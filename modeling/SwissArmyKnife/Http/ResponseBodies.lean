import SwissArmyKnife.Http.HeaderEnds

/-!
# The body of a response

`parseResponse` takes the body when the buffer holds just as many bytes as the `Content-Length` says, in 32 bits.  So
it depends on the chunks whether it finds the end of the body (`delivers_iff`).
-/

namespace Http

open Ascii (ascii crlf)
open Loop HeadParser

/-- A status line and header lines. -/
structure ResponseHead where
  line : Bytes
  headers : List Bytes
deriving DecidableEq, Repr

namespace ResponseHead

variable (head : ResponseHead)

def encode : Bytes := head.line ++ crlf ++ ((head.headers.map (· ++ crlf)).flatten ++ crlf)

/-- The last `Content-Length` has the digits of `n`. -/
structure WellFormed (n : ℕ) : Prop where
  line : Lines.Free crlf head.line
  status : ∀ string2ll, (HttpResponse.new.processResponseLine string2ll head.line).1 = true
  headers : ∀ h ∈ head.headers, Lines.Free crlf h ∧ 58 ∈ h
  length : ∃ h ds, (head.headers.reverse.find? fun h => headerName h = ascii "Content-Length") = some h ∧
    headerValue h = ds ∧ ds ≠ [] ∧ ds.all Decimal.isDigit ∧ Decimal.number ds = n

end ResponseHead

/-- What the length of the buffer is compared with. -/
def comparedSize (n : ℕ) : ℕ := sizeToUnsigned (Int32.ofInt (Decimal.saturate n))

/-- What is to hold after a call when so many bytes have arrived. -/
def Right (head : ResponseHead) (body arrived : Bytes) (q : Parsing HttpResponse) : Prop :=
  if head.encode.length + body.length ≤ arrived.length then
    q.state = .gotAll ∧ q.message.body = body ∧ q.buffer = arrived.drop (head.encode.length + body.length)
  else q.state ≠ .gotAll ∧ ∃ j ≤ head.encode.length, q.buffer = arrived.drop j

/-- The calls for the chunks return, and what is to hold after each of them does. -/
def Delivers (string2ll : Bytes → Option ℤ) (head : ResponseHead) (body : Bytes) :
    Parsing HttpResponse → Bytes → List Bytes → Prop
  | _, _, [] => True
  | start, arrived, chunk :: chunks =>
    ∃ q, Ends (responseParser string2ll).turn (start.more chunk) (some q) ∧ Right head body (arrived ++ chunk) q ∧
      Delivers string2ll head body { q with ok := true } (arrived ++ chunk) chunks

/-- After each chunk a part of the response has arrived, and not as much of the body as the size that is compared
says; or just all of the response has, the sizes agree, and there is no other chunk. -/
def BodyFits (head : ResponseHead) (n : ℕ) : Bytes → List Bytes → Prop
  | _, [] => True
  | arrived, chunk :: chunks =>
    ((arrived ++ chunk).length < head.encode.length + n ∧
        (arrived ++ chunk).length ≠ head.encode.length + comparedSize n ∧ BodyFits head n (arrived ++ chunk) chunks) ∨
      (arrived ++ chunk).length = head.encode.length + n ∧ comparedSize n = n ∧ chunks = []

/-! ### What has arrived, in one call -/

section Arrived

variable {string2ll : Bytes → Option ℤ} {head : ResponseHead} {n : ℕ}

private theorem foldl_addHeader (lines : List Bytes) (response : HttpResponse) :
    lines.foldl (fun response h => response.addHeader (headerName h) (afterColon h)) response =
      { response with
        headers :=
          lines.foldl (fun headers h => putHeader headers (headerName h) (headerValue h)) response.headers } := by
  induction lines generalizing response with
  | nil => rfl
  | cons h lines ih =>
    rw [List.foldl_cons, List.foldl_cons, ih]
    rfl

/-- The status line changes no header. -/
private theorem headers_processResponseLine (response : HttpResponse) (line : Bytes) :
    (response.processResponseLine string2ll line).2.headers = response.headers := by
  unfold HttpResponse.processResponseLine
  split
  · rfl
  · dsimp only
    split
    · rfl
    · dsimp only
      split <;> rfl

theorem getBodySize_head (hwf : head.WellFormed n) (response : HttpResponse) (hnone : response.headers = []) :
    (head.headers.foldl (fun response h => response.addHeader (headerName h) (afterColon h)) response).getBodySize =
      some (Int32.ofInt (Decimal.saturate n)) := by
  obtain ⟨h, ds, hfind, hvalue, hne, hdigits, hnumber⟩ := hwf.length
  obtain ⟨-, hlast⟩ := find_foldl_putHeader headerName headerValue head.headers
  have hlast := hlast (ascii "Content-Length")
  rw [hfind, Option.map_some, hvalue] at hlast
  obtain ⟨⟨name, value⟩, hfound, rfl⟩ := Option.map_eq_some_iff.1 hlast
  have hdenotes : Decimal.Denotes value (n : ℤ) := ⟨value, hne, hdigits, .inl ⟨rfl, by rw [hnumber]⟩⟩
  have hzero : value.takeWhile (· ≠ 0) = value := by
    rw [List.takeWhile_eq_self_iff]
    intro b hb
    exact decide_eq_true (hdenotes.ne_zero hb)
  unfold HttpResponse.getBodySize
  rw [foldl_addHeader, hnone, hfound, Option.map_some, hzero, hdenotes.whole.strtoll_eq]

/-- All of the head is taken, and the loop comes to the body. -/
theorem visits_body (hwf : head.WellFormed n) (string2ll : Bytes → Option ℤ) :
    ∃ response : HttpResponse, response.getBodySize = some (Int32.ofInt (Decimal.saturate n)) ∧
      ∀ after, Visits (responseParser string2ll).turn (HttpResponse.start.more (head.encode ++ after))
        ⟨true, .expectBody, response, after⟩ := by
  refine ⟨_, getBodySize_head hwf (HttpResponse.new.processResponseLine string2ll head.line).2
    (headers_processResponseLine _ _), fun after => ?_⟩
  have hline : (responseParser string2ll).processLine HttpResponse.new head.line =
      some (true, (HttpResponse.new.processResponseLine string2ll head.line).2) := by
    change some (HttpResponse.new.processResponseLine string2ll head.line) = _
    rw [← hwf.status string2ll]
  have hfirst := @turn_line _ _ true _ _ _ hwf.line hline
    ((head.headers.map (· ++ crlf)).flatten ++ ([] ++ crlf ++ after))
  have hlines := @visits_headers _ (responseParser string2ll) true
    (HttpResponse.new.processResponseLine string2ll head.line).2 _ hwf.headers ([] ++ crlf ++ after)
  have hstream : head.encode ++ after =
      head.line ++ crlf ++ ((head.headers.map (· ++ crlf)).flatten ++ ([] ++ crlf ++ after)) := by
    unfold ResponseHead.encode
    simp only [List.append_assoc, List.nil_append]
  rw [hstream]
  exact (hlines.head hfirst).again (turn_lastBody free_nil List.not_mem_nil after rfl)

/-- A turn takes bytes off the front of the buffer. -/
theorem visits_suffix {M : Type} {P : HeadParser M} {p q : Parsing M} (h : Visits P.turn p q) :
    q.buffer <:+ p.buffer := by
  induction h with
  | start => exact List.suffix_refl _
  | again _ hturn ih =>
    refine List.IsSuffix.trans ?_ ih
    have htakes := takes_iff.2 hturn
    cases htakes with
    | accepts _ _ _ => exact List.drop_suffix _ _
    | header _ _ _ => exact List.drop_suffix _ _
    | toBody _ _ _ _ => exact List.drop_suffix _ _
    | stays _ => exact List.suffix_refl _

private theorem live_again_start {p q : Parsing HttpResponse} (h : p.Live (responseParser string2ll))
    (hturn : (responseParser string2ll).turn p = .again q) : q.Live (responseParser string2ll) :=
  (live_again h hturn).1

/-- What a call with a part of the stream comes to, and still waits there. -/
structure Parked (string2ll : Bytes → Option ℤ) (arrived : Bytes) (q : Parsing HttpResponse) : Prop where
  visits : Visits (responseParser string2ll).turn (HttpResponse.start.more arrived) q
  waits : (responseParser string2ll).turn q = .done (some q)
  ok : q.ok = true
  state : q.state ≠ .gotAll

/-- The next call is like one with all that has arrived. -/
theorem Parked.ends_iff {arrived chunk : Bytes} {q : Parsing HttpResponse} (h : Parked string2ll arrived q)
    {r : Option (Parsing HttpResponse)} : Ends (responseParser string2ll).turn (q.more chunk) r ↔
      Ends (responseParser string2ll).turn (HttpResponse.start.more (arrived ++ chunk)) r := by
  have hmore := visits_more h.visits chunk
  rw [Parsing.more_more] at hmore
  exact hmore.ends_iff.symm

/-- With a part of the head at hand a call waits among the lines. -/
theorem parked_part (hwf : head.WellFormed n) {arrived after pending : Bytes}
    (hlt : arrived.length < head.encode.length) (hstream : arrived ++ pending = head.encode ++ after) :
    ∃ q, Parked string2ll arrived q ∧ ∃ j ≤ head.encode.length, q.buffer = arrived.drop j := by
  obtain ⟨response, -, hvisitsBody⟩ := visits_body hwf string2ll
  have hline : (responseParser string2ll).processLine HttpResponse.new head.line =
      some (true, (HttpResponse.new.processResponseLine string2ll head.line).2) := by
    change some (HttpResponse.new.processResponseLine string2ll head.line) = _
    rw [← hwf.status string2ll]
  have hpos : Pos HttpResponse.new head.line ((head.headers.map (· ++ crlf)).flatten ++ crlf ++ after)
      (HttpResponse.start.more arrived) pending := by
    refine .first ?_
    change arrived ++ pending = _
    rw [hstream]
    unfold ResponseHead.encode
    simp only [List.append_assoc]
  have hlive : (HttpResponse.start.more arrived).Live (responseParser string2ll) := ⟨nofun, nofun⟩
  obtain ⟨r, hends⟩ := exists_ends hlive
  obtain ⟨t, hvisits, hdone⟩ := ends_iff_visits.1 hends
  have htlive := hvisits.invariant (fun _ _ => live_again_start) hlive
  obtain ⟨before, hbefore⟩ := visits_suffix hvisits
  rcases hpos.visits hwf.line hvisits |>.done hwf.line hline hdone with ⟨rfl, hok, -, -⟩ | ⟨-, hnone, -⟩ | ⟨hstate, -⟩
  · refine ⟨t, ⟨hvisits, hdone, hok, htlive.1⟩, before.length, ?_, ?_⟩
    · have hlength := congrArg List.length hbefore
      rw [List.length_append] at hlength
      change _ = arrived.length at hlength
      omega
    · change before ++ t.buffer = arrived at hbefore
      rw [← hbefore, List.drop_left]
  · cases hnone
  · -- behind the headers there would be fewer bytes than have arrived
    exfalso
    have hmore := visits_more hvisits pending
    rw [Parsing.more_more, hstream] at hmore
    have heq := hmore.unique (takes_iff.1 (.body hstate rfl)) (hvisitsBody after) (takes_iff.1 (.body rfl rfl))
    have hbuffer : t.buffer ++ pending = after := congrArg Parsing.buffer heq
    have hlength := congrArg List.length hstream
    rw [← hbuffer] at hlength
    simp only [List.length_append] at hlength
    omega

/-- With all of the head at hand a call takes what is behind it, when that is as long as the size, and waits
otherwise. -/
theorem ends_whole (hwf : head.WellFormed n) (after : Bytes) :
    ∃ response : HttpResponse,
      (after.length = comparedSize n ∧
        Ends (responseParser string2ll).turn (HttpResponse.start.more (head.encode ++ after))
          (some ⟨true, .gotAll, { response with body := after }, []⟩)) ∨
      (after.length ≠ comparedSize n ∧
        Parked string2ll (head.encode ++ after) ⟨true, .expectBody, response, after⟩) := by
  obtain ⟨response, hsize, hvisits⟩ := visits_body hwf string2ll
  refine ⟨response, ?_⟩
  have hbody : (responseParser string2ll).turn ⟨true, .expectBody, response, after⟩ =
      .done (takeBody ⟨true, .expectBody, response, after⟩) := takes_iff.1 (.body rfl rfl)
  by_cases hlength : after.length = comparedSize n
  · have htaken : takeBody ⟨true, .expectBody, response, after⟩ =
        some ⟨true, .gotAll, { response with body := after }, []⟩ := by
      unfold takeBody
      rw [hsize]
      exact congrArg some (if_pos hlength)
    exact .inl ⟨hlength, (hvisits after).ends_iff.2 (ends_of_done (hbody.trans (by rw [htaken])))⟩
  · have hleft : takeBody ⟨true, .expectBody, response, after⟩ = some ⟨true, .expectBody, response, after⟩ := by
      unfold takeBody
      rw [hsize]
      exact congrArg some (if_neg hlength)
    exact .inr ⟨hlength, hvisits after, hbody.trans (by rw [hleft]), rfl, nofun⟩

end Arrived

/-! ### The calls for the chunks -/

section Chunked

variable {string2ll : Bytes → Option ℤ} {head : ResponseHead} {body rest : Bytes}

/-- There is only one state that a call comes to. -/
theorem delivers_cons {start q : Parsing HttpResponse} {arrived chunk : Bytes} {chunks : List Bytes}
    (hends : Ends (responseParser string2ll).turn (start.more chunk) (some q)) :
    Delivers string2ll head body start arrived (chunk :: chunks) ↔
      Right head body (arrived ++ chunk) q ∧
        Delivers string2ll head body { q with ok := true } (arrived ++ chunk) chunks := by
  constructor
  · rintro ⟨q', hends', hright, hdelivers⟩
    obtain rfl := Option.some.inj (hends.unique hends')
    exact ⟨hright, hdelivers⟩
  · rintro ⟨hright, hdelivers⟩
    exact ⟨q, hends, hright, hdelivers⟩

/-- After the body no call returns. -/
theorem delivers_gotAll {start : Parsing HttpResponse} {arrived : Bytes} {chunks : List Bytes}
    (h : start.state = .gotAll) : Delivers string2ll head body start arrived chunks ↔ chunks = [] := by
  cases chunks with
  | nil => exact ⟨fun _ => rfl, fun _ => trivial⟩
  | cons chunk chunks =>
    refine ⟨?_, nofun⟩
    rintro ⟨q, hends, -⟩
    exact (@not_ends _ _ (start.more chunk) (fun hlive => hlive.1 h) _ hends).elim

private theorem delivers_iff_from {start : Parsing HttpResponse} {arrived : Bytes} {chunks : List Bytes}
    (hwf : head.WellFormed body.length) (hstart : Parked string2ll arrived start)
    (hstream : arrived ++ chunks.flatten = head.encode ++ (body ++ rest)) :
    Delivers string2ll head body start arrived chunks ↔ BodyFits head body.length arrived chunks := by
  induction chunks generalizing start arrived with
  | nil => exact Iff.rfl
  | cons chunk chunks ih =>
    rw [List.flatten_cons, ← List.append_assoc] at hstream
    rw [BodyFits]
    rcases Nat.lt_or_ge (arrived ++ chunk).length head.encode.length with hlt | hge
    · obtain ⟨q, hparked, j, hj, hbuffer⟩ := @parked_part string2ll _ _ hwf _ _ _ hlt hstream
      have hends := hstart.ends_iff.2 (hparked.visits.ends_iff.2 (ends_of_done hparked.waits))
      have hright : Right head body (arrived ++ chunk) q := by
        unfold Right
        rw [if_neg (by omega)]
        exact ⟨hparked.state, j, hj, hbuffer⟩
      have hq : { q with ok := true } = q := by rw [← hparked.ok]
      rw [delivers_cons hends, hq, ih hparked hstream]
      constructor
      · rintro ⟨-, hfits⟩
        exact .inl ⟨by omega, by omega, hfits⟩
      · rintro (⟨-, -, hfits⟩ | ⟨heq, -, -⟩)
        · exact ⟨hright, hfits⟩
        · omega
    · obtain ⟨after, hafter⟩ :=
        List.prefix_of_prefix_length_le (List.prefix_append head.encode (body ++ rest)) ⟨_, hstream⟩ hge
      rw [← hafter, List.append_assoc] at hstream
      have hpart := List.append_cancel_left hstream
      have hlength : (arrived ++ chunk).length = head.encode.length + after.length := by
        rw [← hafter, List.length_append]
      obtain ⟨response, ⟨hsize, hends⟩ | ⟨hsize, hparked⟩⟩ := @ends_whole string2ll _ _ hwf after
      · -- what is behind the head is taken for the body
        rw [hafter] at hends
        rw [delivers_cons (hstart.ends_iff.2 hends), delivers_gotAll rfl]
        unfold Right
        constructor
        · rintro ⟨hright, hnil⟩
          split at hright
          · have hbody : after = body := hright.2.1
            rw [hbody] at hsize hlength
            exact .inr ⟨hlength, hsize.symm, hnil⟩
          · exact absurd rfl hright.1
        · rintro (⟨-, hne, -⟩ | ⟨hall, -, hnil⟩)
          · omega
          · have hbody : after = body := (List.append_inj hpart (by omega)).1
            rw [if_pos (by omega), List.drop_eq_nil_of_le (by omega)]
            exact ⟨⟨rfl, hbody, rfl⟩, hnil⟩
      · rw [hafter] at hparked
        have hends := hstart.ends_iff.2 (hparked.visits.ends_iff.2 (ends_of_done hparked.waits))
        have hstream' : arrived ++ chunk ++ chunks.flatten = head.encode ++ (body ++ rest) := by
          rw [← hafter, List.append_assoc, hpart]
        rw [delivers_cons hends, ih hparked hstream']
        unfold Right
        constructor
        · rintro ⟨hright, hfits⟩
          split at hright
          · cases hright.1
          · exact .inl ⟨by omega, by omega, hfits⟩
        · rintro (⟨hlt, -, hfits⟩ | ⟨hall, heq, -⟩)
          · rw [if_neg (by omega)]
            refine ⟨⟨nofun, head.encode.length, le_rfl, ?_⟩, hfits⟩
            rw [← hafter, List.drop_left]
          · omega

private theorem parked_start : Parked string2ll [] HttpResponse.start := by
  refine ⟨?_, rfl, rfl, nofun⟩
  rw [Parsing.more_nil]
  exact .start

/-- The body is delimited as it should be exactly when the chunks fit. -/
theorem delivers_iff (string2ll : Bytes → Option ℤ) (hwf : head.WellFormed body.length) {chunks : List Bytes}
    (hstream : chunks.flatten = head.encode ++ body ++ rest) :
    Delivers string2ll head body HttpResponse.start [] chunks ↔ BodyFits head body.length [] chunks :=
  delivers_iff_from hwf parked_start (by rw [List.nil_append, hstream, List.append_assoc])

end Chunked

/-- A response with a body of two bytes. -/
def twoBytes : ResponseHead := ⟨ascii "HTTP/1.1 200 OK", [ascii "Content-Length: 2"]⟩

private theorem twoBytes_wellFormed : twoBytes.WellFormed 2 :=
  ⟨by decide, fun _ => rfl, by decide, ascii "Content-Length: 2",
    [50], by decide, by decide, by decide, by decide, by decide⟩

/-- It is cut in a header and in the body. -/
theorem delivers_twoBytes :
    Delivers (fun _ => none) twoBytes [104, 105] HttpResponse.start []
      [twoBytes.encode.take 20, twoBytes.encode.drop 20 ++ [104], [105]] := by
  refine (@delivers_iff _ [104, 105] [] _ twoBytes_wellFormed _ (by decide)).2 ?_
  exact .inl ⟨by decide, by decide, .inl ⟨by decide, by decide, .inr ⟨by decide, by decide, rfl⟩⟩⟩

/-- With the first byte of what follows the body is not found. -/
theorem not_delivers_more :
    ¬∀ (string2ll : Bytes → Option ℤ) (head : ResponseHead) (body rest : Bytes) (chunks : List Bytes),
      head.WellFormed body.length → chunks.flatten = head.encode ++ body ++ rest →
        Delivers string2ll head body HttpResponse.start [] chunks := by
  intro hall
  have hdelivers := hall (fun _ => none) twoBytes [104, 105] [72] [twoBytes.encode ++ [104, 105] ++ [72]]
    twoBytes_wellFormed (by decide)
  rw [@delivers_iff_from _ _ _ [72] _ _ _ twoBytes_wellFormed parked_start (by decide)] at hdelivers
  rcases hdelivers with ⟨hlt, -, -⟩ | ⟨heq, -, -⟩
  · exact absurd hlt (by decide)
  · exact absurd heq (by decide)

end Http
