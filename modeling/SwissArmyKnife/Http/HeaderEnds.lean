import SwissArmyKnife.Http.HttpResponse
import SwissArmyKnife.Http.RequestChunks
import SwissArmyKnife.WebSocket.WebContext

/-!
# The end of the headers

The parsers know the end of the headers by a line without a colon.  So the headers end at an empty line only, however
the stream is cut, exactly when its first line without a colon is empty (`onlyEmptyLineEnds_iff`).
-/

namespace Http

open Ascii (ascii crlf)
open Loop HeadParser

variable {M : Type}

/-- A loop comes to a turn in one of the calls, one for each chunk. -/
inductive Reaches (P : HeadParser M) : Parsing M → List Bytes → Parsing M → Prop where
  | now {start p : Parsing M} {chunk : Bytes} {chunks : List Bytes} (h : Visits P.turn (start.more chunk) p) :
    Reaches P start (chunk :: chunks) p
  | later {start p q : Parsing M} {chunk : Bytes} {chunks : List Bytes}
      (hends : Ends P.turn (start.more chunk) (some q))
      (h : Reaches P { q with ok := true } chunks p) : Reaches P start (chunk :: chunks) p

/-- A turn that leaves the headers takes an empty line. -/
def OnlyEmptyLineEnds (P : HeadParser M) (start : Parsing M) (chunks : List Bytes) : Prop :=
  ∀ p, Reaches P start chunks p → p.state = .expectHeaders →
    ∀ q, P.turn p = .again q ∨ P.turn p = .done (some q) → q.state ≠ .expectHeaders → p.buffer = crlf ++ q.buffer

local instance lawfulBEqByte : LawfulBEq UInt8 := instLawfulBEq

/-- Of the lines whose end is there. -/
def firstColonless (rest : Bytes) : Option Bytes := (Lines.complete crlf rest).find? (58 ∉ ·)

/-- The first line without a colon, if there is one, is empty. -/
def FirstColonlessEmpty (rest : Bytes) : Prop := ∀ line, firstColonless rest = some line → line = []

instance (rest : Bytes) : Decidable (FirstColonlessEmpty rest) :=
  match h : firstColonless rest with
  | none => isTrue fun line hline => by rw [h] at hline; cases hline
  | some line =>
    decidable_of_iff (line = []) ⟨fun hnil line' hline' => by rw [h] at hline'; cases hline'; exact hnil,
      fun hall => hall line h⟩

theorem firstColonless_of_none {rest : Bytes} (h : Lines.find crlf rest = none) : firstColonless rest = none := by
  unfold firstColonless
  rw [Lines.complete_of_none h]
  rfl

theorem firstColonless_of_find {rest : Bytes} {n : ℕ} (h : Lines.find crlf rest = some n) :
    firstColonless rest = if 58 ∈ rest.take n then firstColonless (rest.drop (n + 2)) else some (rest.take n) := by
  unfold firstColonless
  rw [Lines.complete_of_find (by decide) h, List.find?_cons]
  by_cases hcolon : 58 ∈ rest.take n
  · simp [hcolon, crlf]
  · simp [hcolon]

/-! ### Where the parser is in the stream -/

/-- With `pending` still to come, the first line has not been read, or some header lines have been, or the headers are
over. -/
inductive Pos (message : M) (first rest : Bytes) : Parsing M → Bytes → Prop where
  | first {buffer pending : Bytes} (hstream : buffer ++ pending = first ++ crlf ++ rest) :
    Pos message first rest ⟨true, .expectRequestLine, message, buffer⟩ pending
  | headers {m : M} {buffer pending : Bytes} (hrest : firstColonless rest = firstColonless (buffer ++ pending)) :
    Pos message first rest ⟨true, .expectHeaders, m, buffer⟩ pending
  | ended {p : Parsing M} {pending : Bytes} (hstate : p.state = .expectBody ∨ p.state = .gotAll) :
    Pos message first rest p pending

/-- Behind the headers no line is read. -/
private theorem not_lines {state : HttpRequestParseState} (h : state = .expectBody ∨ state = .gotAll) :
    ¬(state = .expectRequestLine ∨ state = .expectHeaders) := by
  rcases h with rfl | rfl
  · simp
  · simp

section Stream

variable {P : HeadParser M} {message message' : M} {first rest pending : Bytes} {p q start : Parsing M}

theorem Pos.more {chunk : Bytes} (h : Pos message first rest p (chunk ++ pending)) :
    Pos message first rest (p.more chunk) pending := by
  cases h with
  | first hstream => exact .first (by rw [List.append_assoc]; exact hstream)
  | headers hrest => exact .headers (by rw [List.append_assoc]; exact hrest)
  | ended hstate => exact .ended hstate

/-- The first line is where it was in the whole stream. -/
theorem find_first (hfree : Lines.Free crlf first) {buffer : Bytes}
    (hstream : buffer ++ pending = first ++ crlf ++ rest)
    {n : ℕ} (hfind : Lines.find crlf buffer = some n) :
    buffer.take n = first ∧ buffer.drop (n + 2) ++ pending = rest := by
  obtain ⟨hfind', htake, hdrop⟩ := line_more hfind pending
  rw [hstream, hfree.find rest, Option.some.injEq] at hfind'
  subst hfind'
  rw [hstream] at htake hdrop
  rw [← htake, ← hdrop]
  refine ⟨?_, List.drop_left' (by rw [List.length_append]; rfl)⟩
  rw [List.append_assoc, List.take_left]

theorem Pos.again (hfree : Lines.Free crlf first) (h : Pos message first rest p pending)
    (hturn : P.turn p = .again q) : Pos message first rest q pending := by
  cases h with
  | @first buffer _ hstream =>
    have htakes := takes_iff.2 hturn
    cases htakes with
    | accepts _ hfind _ =>
      refine .headers ?_
      rw [(find_first hfree hstream hfind).2]
    | header hstate _ _ => cases hstate
    | toBody hstate _ _ _ => cases hstate
    | stays hstate => exact .ended (hstate.imp And.left id)
  | @headers m buffer _ hrest =>
    have htakes := takes_iff.2 hturn
    cases htakes with
    | accepts hstate _ _ => cases hstate
    | header _ hfind hcut =>
      obtain ⟨hfind', htake, hdrop⟩ := line_more hfind pending
      refine .headers ?_
      rw [hrest, firstColonless_of_find hfind', htake, if_pos (mem_of_cutAt hcut), hdrop]
    | toBody _ _ _ _ => exact .ended (.inl rfl)
    | stays hstate => exact .ended (hstate.imp And.left id)
  | ended hstate => exact eq_of_again hstate hturn ▸ .ended hstate

theorem Pos.visits (hfree : Lines.Free crlf first) (h : Pos message first rest p pending)
    (hvisits : Visits P.turn p q) :
    Pos message first rest q pending := by
  induction hvisits with
  | start => exact h
  | again _ hturn ih => exact ih.again hfree hturn

/-- A call that ends among the lines waits for more of them. -/
theorem Pos.done (hfree : Lines.Free crlf first) (hline : P.processLine message first = some (true, message'))
    (h : Pos message first rest p pending) {r : Option (Parsing M)} (hturn : P.turn p = .done r) :
    (r = some p ∧ p.ok = true ∧ (p.state = .expectRequestLine ∨ p.state = .expectHeaders) ∧
      Lines.find crlf p.buffer = none) ∨
    (p.state = .expectHeaders ∧ P.takeBody = none ∧ ∃ q, r = some q ∧ q.state = .gotAll) ∨
    (p.state = .expectBody ∧ ∃ takeBody, P.takeBody = some takeBody ∧ r = takeBody p) := by
  rcases done_cases hturn with ⟨hstate, hfind, hr⟩ | ⟨hstate, n, hfind, hrefused⟩ |
    ⟨hstate, n, _, _, hnone, hr⟩ | hended
  · cases h with
    | first _ => exact .inl ⟨hr, rfl, hstate, hfind⟩
    | headers _ => exact .inl ⟨hr, rfl, hstate, hfind⟩
    | ended hended => exact absurd hstate (not_lines hended)
  · -- the line is the first one, which is right
    cases h with
    | first hstream =>
      obtain ⟨hfirst, -⟩ := find_first hfree hstream hfind
      dsimp only at hrefused
      rw [hfirst, hline] at hrefused
      simp at hrefused
    | headers _ => cases hstate
    | ended hended => exact absurd (.inl hstate) (not_lines hended)
  · exact .inr (.inl ⟨hstate, hnone, _, hr, rfl⟩)
  · exact .inr (.inr hended)

/-- The branch for the body does not go back to the lines. -/
def BodyStays (P : HeadParser M) : Prop :=
  ∀ takeBody, P.takeBody = some takeBody → ∀ p q, p.state = .expectBody → takeBody p = some q →
    q.state = .expectBody ∨ q.state = .gotAll

/-- Where a call stops, the next one goes on. -/
theorem Pos.ends (hfree : Lines.Free crlf first) (hline : P.processLine message first = some (true, message'))
    (hbody : BodyStays P) (h : Pos message first rest p pending) (hends : Ends P.turn p (some q)) :
    Pos message first rest { q with ok := true } pending := by
  obtain ⟨t, hvisits, hdone⟩ := ends_iff_visits.1 hends
  have ht := h.visits hfree hvisits
  rcases ht.done hfree hline hdone with ⟨hq, hok, -, -⟩ | ⟨-, -, q', hq, hended⟩ | ⟨hstate, takeBody, htake, hq⟩
  · obtain rfl := Option.some.inj hq
    obtain ⟨ok, state, m, buffer⟩ := q
    obtain rfl : ok = true := hok
    exact ht
  · obtain rfl := Option.some.inj hq
    exact .ended (.inr hended)
  · exact .ended (hbody takeBody htake t q hstate hq.symm)

theorem Reaches.pos (hfree : Lines.Free crlf first) (hline : P.processLine message first = some (true, message'))
    (hbody : BodyStays P) {chunks : List Bytes} (h : Reaches P start chunks p)
    (hstart : Pos message first rest start chunks.flatten) : ∃ pending, Pos message first rest p pending := by
  induction h with
  | now hvisits => exact ⟨_, hstart.more.visits hfree hvisits⟩
  | later hends _ ih => exact ih (hstart.more.ends hfree hline hbody hends)

/-- A turn that leaves the headers takes the first line without a colon. -/
theorem Pos.leaves (h : Pos message first rest p pending) (hstate : p.state = .expectHeaders)
    (hturn : P.turn p = .again q ∨ P.turn p = .done (some q)) (hleaves : q.state ≠ .expectHeaders) :
    ∃ line, firstColonless rest = some line ∧ p.buffer = line ++ crlf ++ q.buffer := by
  obtain ⟨n, hfind, hcut, hq⟩ : ∃ n, Lines.find crlf p.buffer = some n ∧ cutAt 58 (p.buffer.take n) = none ∧
      q.buffer = p.buffer.drop (n + 2) := by
    rcases hturn with hturn | hturn
    · have htakes := takes_iff.2 hturn
      cases htakes with
      | accepts _ _ _ => exact absurd rfl hleaves
      | header _ _ _ => exact absurd rfl hleaves
      | toBody _ hfind hcut _ => exact ⟨_, hfind, hcut, rfl⟩
      | stays _ => exact absurd hstate hleaves
    · rcases done_cases hturn with ⟨_, _, hq⟩ | ⟨hstate', _⟩ | ⟨_, n, hfind, hcut, _, hq⟩ | ⟨hstate', _⟩
      · obtain rfl := Option.some.inj hq
        exact absurd hstate hleaves
      · rw [hstate] at hstate'
        cases hstate'
      · obtain rfl := Option.some.inj hq
        exact ⟨n, hfind, hcut, rfl⟩
      · rw [hstate] at hstate'
        cases hstate'
  refine ⟨p.buffer.take n, ?_, ?_⟩
  · cases h with
    | first _ => cases hstate
    | headers hrest =>
      obtain ⟨hfind', htake, -⟩ := line_more hfind pending
      rw [hrest, firstColonless_of_find hfind', htake, if_neg (not_mem_of_cutAt hcut)]
    | ended hended => exact absurd (.inr hstate) (not_lines hended)
  · rw [hq]
    exact (Lines.find_split (by decide) hfind).2

/-- On the way to the body a turn leaves the headers. -/
theorem exists_leaving (hvisits : Visits P.turn start p)
    (hstart : start.state = .expectRequestLine ∨ start.state = .expectHeaders)
    (hp : p.state = .expectBody) :
    ∃ t q, Visits P.turn start t ∧ t.state = .expectHeaders ∧ P.turn t = .again q ∧ q.state ≠ .expectHeaders := by
  induction hvisits with
  | start => exact absurd hstart (not_lines (.inl hp))
  | @again t t' hvisits hturn ih =>
    have htakes := takes_iff.2 hturn
    cases htakes with
    | accepts _ _ _ => cases hp
    | header _ _ _ => cases hp
    | toBody hstate _ _ _ => exact ⟨t, _, hvisits, hstate, hturn, nofun⟩
    | stays _ => exact ih hp

/-- When a line without a colon has come, a turn has left the headers. -/
theorem exists_reaches (hfree : Lines.Free crlf first) (hline : P.processLine message first = some (true, message'))
    {chunks : List Bytes} (hpos : Pos message first rest start chunks.flatten)
    (hstart : start.state = .expectRequestLine ∨ start.state = .expectHeaders)
    (hwaits : Lines.find crlf start.buffer = none) (hsome : firstColonless rest ≠ none) :
    ∃ p q, Reaches P start chunks p ∧ p.state = .expectHeaders ∧ (P.turn p = .again q ∨ P.turn p = .done (some q)) ∧
      q.state ≠ .expectHeaders := by
  induction chunks generalizing start with
  | nil =>
    cases hpos with
    | first hstream =>
      rw [List.flatten_nil, List.append_nil] at hstream
      dsimp only at hwaits
      rw [hstream, hfree.find rest] at hwaits
      cases hwaits
    | headers hrest =>
      rw [List.flatten_nil, List.append_nil, firstColonless_of_none hwaits] at hrest
      exact absurd hrest hsome
    | ended hended => exact absurd hstart (not_lines hended)
  | cons chunk chunks ih =>
    have hmore := hpos.more
    have hlive : (start.more chunk).Live P := by
      unfold Parsing.Live Parsing.more
      rcases hstart with hstart | hstart <;> simp [hstart]
    obtain ⟨r, hends⟩ := exists_ends hlive
    obtain ⟨t, hvisits, hdone⟩ := ends_iff_visits.1 hends
    have ht := hmore.visits hfree hvisits
    rcases ht.done hfree hline hdone with ⟨rfl, hok, hstate, hfind⟩ | ⟨hstate, -, q, rfl, hq⟩ | ⟨hstate, -⟩
    · obtain ⟨ok, state, m, buffer⟩ := t
      obtain rfl : ok = true := hok
      obtain ⟨p, q, hreaches, hp⟩ := ih ht hstate hfind
      exact ⟨p, q, .later hends hreaches, hp⟩
    · exact ⟨t, q, .now hvisits, hstate, .inr hdone, by rw [hq]; nofun⟩
    · obtain ⟨p, q, hvisits', hstate', hturn, hleaves⟩ := exists_leaving hvisits hstart hstate
      exact ⟨p, q, .now hvisits', hstate', .inl hturn, hleaves⟩

theorem onlyEmptyLineEnds_iff (hfree : Lines.Free crlf first)
    (hline : P.processLine message first = some (true, message'))
    (hbody : BodyStays P) {chunks : List Bytes} (hchunks : chunks.flatten = first ++ crlf ++ rest) :
    OnlyEmptyLineEnds P ⟨true, .expectRequestLine, message, []⟩ chunks ↔ FirstColonlessEmpty rest := by
  have hpos : Pos message first rest ⟨true, .expectRequestLine, message, []⟩ chunks.flatten := .first hchunks
  constructor
  · intro honly line hline'
    obtain ⟨p, q, hreaches, hstate, hturn, hleaves⟩ :=
      exists_reaches hfree hline hpos (.inl rfl) rfl (by rw [hline']; nofun)
    obtain ⟨pending, hp⟩ := hreaches.pos hfree hline hbody hpos
    obtain ⟨line', hfirst, hbuffer⟩ := hp.leaves hstate hturn hleaves
    rw [hline', Option.some.injEq] at hfirst
    subst hfirst
    have hlength := congrArg List.length (hbuffer.symm.trans (honly p hreaches hstate q hturn hleaves))
    simp only [List.length_append] at hlength
    exact List.length_eq_zero_iff.1 (by omega)
  · intro hempty p hreaches hstate q hturn hleaves
    obtain ⟨pending, hp⟩ := hreaches.pos hfree hline hbody hpos
    obtain ⟨line, hfirst, hbuffer⟩ := hp.leaves hstate hturn hleaves
    rw [hbuffer, hempty line hfirst, List.nil_append]

end Stream

/-! ### The three parsers -/

private theorem bodyStays_of_none {P : HeadParser M} (h : P.takeBody = none) : BodyStays P := by
  intro takeBody htake
  rw [h] at htake
  cases htake

/-- The body is taken as a whole, or not at all. -/
theorem takeBody_cases {p q : Parsing HttpResponse} (h : takeBody p = some q) :
    ∃ size, p.message.getBodySize = some size ∧
      (p.buffer.length = sizeToUnsigned size ∧
          q = { p with state := .gotAll, message := { p.message with body := p.buffer }, buffer := [] } ∨
        p.buffer.length ≠ sizeToUnsigned size ∧ q = p) := by
  obtain ⟨size, hsize, hq⟩ := Option.map_eq_some_iff.1 h
  refine ⟨size, hsize, ?_⟩
  by_cases hlength : p.buffer.length = sizeToUnsigned size
  · rw [if_pos hlength] at hq
    exact .inl ⟨hlength, hq.symm⟩
  · rw [if_neg hlength] at hq
    exact .inr ⟨hlength, hq.symm⟩

theorem bodyStays_response (string2ll : Bytes → Option ℤ) : BodyStays (responseParser string2ll) := by
  rintro _ ⟨⟩ p q hstate hq
  obtain ⟨size, -, ⟨-, rfl⟩ | ⟨-, rfl⟩⟩ := takeBody_cases hq
  · exact .inr rfl
  · exact .inl hstate

def HttpResponse.start : Parsing HttpResponse := ⟨true, .expectRequestLine, .new, []⟩

def handshakeStart : Parsing WebSocket.HandshakeRequest := ⟨true, .expectRequestLine, .new, []⟩

/-- Only an empty line ends the headers exactly when they have no other line without a colon. -/
theorem headers_end_iff (string2ll : Bytes → Option ℤ) {line rest : Bytes} {chunks : List Bytes}
    (hfree : Lines.Free crlf line) (hchunks : chunks.flatten = line ++ crlf ++ rest) :
    ((∃ request, HttpContext.new.request.processRequestLine line = some (true, request)) →
      (OnlyEmptyLineEnds requestParser (HttpContext.new.parsing []) chunks ↔ FirstColonlessEmpty rest)) ∧
    ((∃ request, WebSocket.HandshakeRequest.new.processRequestLine line = some (true, request)) →
      (OnlyEmptyLineEnds WebSocket.handshakeParser handshakeStart chunks ↔ FirstColonlessEmpty rest)) ∧
    ((HttpResponse.new.processResponseLine string2ll line).1 = true →
      (OnlyEmptyLineEnds (responseParser string2ll) HttpResponse.start chunks ↔ FirstColonlessEmpty rest)) := by
  refine ⟨?_, ?_, ?_⟩
  · rintro ⟨request, hline⟩
    exact onlyEmptyLineEnds_iff hfree hline (bodyStays_of_none rfl) hchunks
  · rintro ⟨request, hline⟩
    exact onlyEmptyLineEnds_iff hfree hline (bodyStays_of_none rfl) hchunks
  · intro hline
    refine @onlyEmptyLineEnds_iff _ _ _ (HttpResponse.new.processResponseLine string2ll line).2 _ _ hfree ?_
      (bodyStays_response string2ll) _ hchunks
    change some (HttpResponse.new.processResponseLine string2ll line) = _
    rw [← hline]

theorem headers_end_iff_host :
    OnlyEmptyLineEnds requestParser (HttpContext.new.parsing [])
      [ascii "GET / HTTP/1.1" ++ [13], [10] ++ (ascii "Host: h" ++ crlf ++ crlf)] :=
  ((@headers_end_iff (fun _ => none) (ascii "GET / HTTP/1.1") _ _ (by decide) (by decide)).1 ⟨_, rfl⟩).2
    (show FirstColonlessEmpty (ascii "Host: h" ++ crlf ++ crlf) by decide)

/-- A line `X` ends the headers, and the field behind it stays in the buffer. -/
theorem not_onlyEmptyLineEnds :
    ¬OnlyEmptyLineEnds requestParser (HttpContext.new.parsing [])
        [ascii "GET / HTTP/1.1" ++ crlf ++ (ascii "X" ++ crlf ++ ascii "A: 1" ++ crlf ++ crlf)] ∧
      ¬OnlyEmptyLineEnds WebSocket.handshakeParser handshakeStart
        [ascii "GET / HTTP/1.1" ++ crlf ++ (ascii "X" ++ crlf ++ ascii "A: 1" ++ crlf ++ crlf)] ∧
      ¬OnlyEmptyLineEnds (responseParser fun _ => none) HttpResponse.start
        [ascii "HTTP/1.1 200 OK" ++ crlf ++ (ascii "X" ++ crlf ++ ascii "A: 1" ++ crlf ++ crlf)] := by
  have hnot : ¬FirstColonlessEmpty (ascii "X" ++ crlf ++ ascii "A: 1" ++ crlf ++ crlf) := by decide
  have hget : Lines.Free crlf (ascii "GET / HTTP/1.1") := by decide
  have hok : Lines.Free crlf (ascii "HTTP/1.1 200 OK") := by decide
  refine ⟨fun h => hnot ?_, fun h => hnot ?_, fun h => hnot ?_⟩
  · exact (onlyEmptyLineEnds_iff hget rfl (bodyStays_of_none rfl) (List.flatten_singleton ..)).1 h
  · exact (onlyEmptyLineEnds_iff hget rfl (bodyStays_of_none rfl) (List.flatten_singleton ..)).1 h
  · exact (onlyEmptyLineEnds_iff hok rfl (bodyStays_response _) (List.flatten_singleton ..)).1 h

end Http
