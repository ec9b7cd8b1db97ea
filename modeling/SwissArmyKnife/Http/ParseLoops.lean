import SwissArmyKnife.Http.HttpServerRuns
import SwissArmyKnife.Lib.Loops

/-!
# The parse loops

The loops of `parseRequest` and `parseResponse` read a first line, the headers and, in a response, a body. 
`HeadParser` says where they differ.  A turn that goes on does the same with more bytes behind those at hand
(`turn_more`).
-/

namespace Http

open Ascii (crlf)
open Loop

/-- What a loop works on; `ok` is what it returns. -/
structure Parsing (M : Type) where
  ok : Bool
  state : HttpRequestParseState
  message : M
  buffer : Bytes
deriving DecidableEq, Repr

variable {M : Type}

/-- The functions that a loop calls for the first line, where an assertion may fail, for a header, and for the body,
if there is a branch for one. -/
structure HeadParser (M : Type) where
  processLine : M → Bytes → Option (Bool × M)
  addHeader : M → Bytes → Bytes → M
  takeBody : Option (Parsing M → Option (Parsing M))

namespace HeadParser

variable (P : HeadParser M)

/-- A loop ends with what it has worked on, or with a failed assertion. -/
def turn (p : Parsing M) : Turn (Parsing M) (Option (Parsing M)) :=
  match p.state with
  | .expectRequestLine =>
    match Lines.find crlf p.buffer with
    | none => .done (some p)
    | some n =>
      match P.processLine p.message (p.buffer.take n) with
      | none => .done none
      | some (true, message) =>
        .again { p with ok := true, state := .expectHeaders, message := message, buffer := p.buffer.drop (n + 2) }
      | some (false, message) => .done (some { p with ok := false, message := message })
  | .expectHeaders =>
    match Lines.find crlf p.buffer with
    | none => .done (some p)
    | some n =>
      match cutAt 58 (p.buffer.take n) with
      | some (field, value) =>
        .again { p with message := P.addHeader p.message field value, buffer := p.buffer.drop (n + 2) }
      | none =>
        if P.takeBody.isSome then .again { p with state := .expectBody, buffer := p.buffer.drop (n + 2) }
        else .done (some { p with state := .gotAll, buffer := p.buffer.drop (n + 2) })
  | .expectBody =>
    match P.takeBody with
    | some takeBody => .done (takeBody p)
    -- an empty branch
    | none => .again p
  -- no branch
  | .gotAll => .again p

end HeadParser

/-- `HttpContext::parseRequest`. -/
def requestParser : HeadParser HttpRequest := ⟨HttpRequest.processRequestLine, HttpRequest.addHeader, none⟩

/-! ### What a turn does -/

namespace HeadParser

variable {P : HeadParser M} {p q : Parsing M}

/-- The ways of a turn. -/
inductive Takes (P : HeadParser M) (p : Parsing M) : Turn (Parsing M) (Option (Parsing M)) → Prop where
  | waits (hstate : p.state = .expectRequestLine ∨ p.state = .expectHeaders)
      (hfind : Lines.find crlf p.buffer = none) :
    Takes P p (.done (some p))
  | aborts {n : ℕ} (hstate : p.state = .expectRequestLine) (hfind : Lines.find crlf p.buffer = some n)
      (hline : P.processLine p.message (p.buffer.take n) = none) : Takes P p (.done none)
  | rejects {n : ℕ} {message : M} (hstate : p.state = .expectRequestLine) (hfind : Lines.find crlf p.buffer = some n)
      (hline : P.processLine p.message (p.buffer.take n) = some (false, message)) :
    Takes P p (.done (some ⟨false, .expectRequestLine, message, p.buffer⟩))
  | accepts {n : ℕ} {message : M} (hstate : p.state = .expectRequestLine) (hfind : Lines.find crlf p.buffer = some n)
      (hline : P.processLine p.message (p.buffer.take n) = some (true, message)) :
    Takes P p (.again ⟨true, .expectHeaders, message, p.buffer.drop (n + 2)⟩)
  | header {n : ℕ} {field value : Bytes} (hstate : p.state = .expectHeaders)
      (hfind : Lines.find crlf p.buffer = some n) (hcut : cutAt 58 (p.buffer.take n) = some (field, value)) :
    Takes P p (.again ⟨p.ok, .expectHeaders, P.addHeader p.message field value, p.buffer.drop (n + 2)⟩)
  | toBody {n : ℕ} (hstate : p.state = .expectHeaders) (hfind : Lines.find crlf p.buffer = some n)
      (hcut : cutAt 58 (p.buffer.take n) = none) (hbody : P.takeBody.isSome) :
    Takes P p (.again ⟨p.ok, .expectBody, p.message, p.buffer.drop (n + 2)⟩)
  | completes {n : ℕ} (hstate : p.state = .expectHeaders) (hfind : Lines.find crlf p.buffer = some n)
      (hcut : cutAt 58 (p.buffer.take n) = none) (hbody : P.takeBody = none) :
    Takes P p (.done (some ⟨p.ok, .gotAll, p.message, p.buffer.drop (n + 2)⟩))
  | body {takeBody : Parsing M → Option (Parsing M)} (hstate : p.state = .expectBody)
      (hbody : P.takeBody = some takeBody) :
    Takes P p (.done (takeBody p))
  | stays (hstate : p.state = .expectBody ∧ P.takeBody = none ∨ p.state = .gotAll) : Takes P p (.again p)

theorem takes_turn (P : HeadParser M) (p : Parsing M) : P.Takes p (P.turn p) := by
  unfold turn
  cases hstate : p.state with
  | expectRequestLine =>
    dsimp only
    cases hfind : Lines.find crlf p.buffer with
    | none => exact .waits (.inl hstate) hfind
    | some n =>
      dsimp only
      cases hline : P.processLine p.message (p.buffer.take n) with
      | none => exact .aborts hstate hfind hline
      | some found =>
        obtain ⟨succeed, message⟩ := found
        cases succeed with
        | false => exact .rejects hstate hfind hline
        | true => exact .accepts hstate hfind hline
  | expectHeaders =>
    dsimp only
    cases hfind : Lines.find crlf p.buffer with
    | none => exact .waits (.inr hstate) hfind
    | some n =>
      dsimp only
      cases hcut : cutAt 58 (p.buffer.take n) with
      | some found => exact .header hstate hfind hcut
      | none =>
        dsimp only
        by_cases hbody : P.takeBody.isSome
        · rw [if_pos hbody]
          exact .toBody hstate hfind hcut hbody
        · rw [if_neg hbody]
          exact .completes hstate hfind hcut (by simpa using hbody)
  | expectBody =>
    dsimp only
    cases hbody : P.takeBody with
    | some takeBody => exact .body hstate hbody
    | none => exact .stays (.inl ⟨hstate, hbody⟩)
  | gotAll => exact .stays (.inr hstate)

theorem Takes.turn_eq {t : Turn (Parsing M) (Option (Parsing M))} (h : P.Takes p t) : P.turn p = t := by
  unfold turn
  cases h with
  | waits hstate hfind => rcases hstate with hstate | hstate <;> simp only [hstate, hfind]
  | aborts hstate hfind hline => simp only [hstate, hfind, hline]
  | rejects hstate hfind hline => simp only [hstate, hfind, hline]
  | accepts hstate hfind hline => simp only [hstate, hfind, hline]
  | header hstate hfind hcut => simp only [hstate, hfind, hcut]
  | toBody hstate hfind hcut hbody => simp only [hstate, hfind, hcut, hbody, if_true]
  | completes hstate hfind hcut hbody => simp [hstate, hfind, hcut, hbody]
  | body hstate hbody => simp only [hstate, hbody]
  | stays hstate => rcases hstate with ⟨hstate, hbody⟩ | hstate <;> simp only [*]

theorem takes_iff {t : Turn (Parsing M) (Option (Parsing M))} : P.Takes p t ↔ P.turn p = t :=
  ⟨Takes.turn_eq, fun h => h ▸ P.takes_turn p⟩

/-- How a call ends. -/
theorem done_cases {r : Option (Parsing M)} (h : P.turn p = .done r) :
    ((p.state = .expectRequestLine ∨ p.state = .expectHeaders) ∧ Lines.find crlf p.buffer = none ∧ r = some p) ∨
    (p.state = .expectRequestLine ∧ ∃ n, Lines.find crlf p.buffer = some n ∧
      (P.processLine p.message (p.buffer.take n) = none ∧ r = none ∨
        ∃ message, P.processLine p.message (p.buffer.take n) = some (false, message) ∧
          r = some ⟨false, .expectRequestLine, message, p.buffer⟩)) ∨
    (p.state = .expectHeaders ∧ ∃ n, Lines.find crlf p.buffer = some n ∧ cutAt 58 (p.buffer.take n) = none ∧
      P.takeBody = none ∧ r = some ⟨p.ok, .gotAll, p.message, p.buffer.drop (n + 2)⟩) ∨
    (p.state = .expectBody ∧ ∃ takeBody, P.takeBody = some takeBody ∧ r = takeBody p) := by
  have htakes := takes_iff.2 h
  generalize ht : Turn.done r = t at htakes
  cases htakes with
  | waits hstate hfind => exact .inl ⟨hstate, hfind, Turn.done.inj ht⟩
  | aborts hstate hfind hline => exact .inr (.inl ⟨hstate, _, hfind, .inl ⟨hline, Turn.done.inj ht⟩⟩)
  | rejects hstate hfind hline => exact .inr (.inl ⟨hstate, _, hfind, .inr ⟨_, hline, Turn.done.inj ht⟩⟩)
  | completes hstate hfind hcut hbody =>
    exact .inr (.inr (.inl ⟨hstate, _, hfind, hcut, hbody, Turn.done.inj ht⟩))
  | body hstate hbody => exact .inr (.inr (.inr ⟨hstate, _, hbody, Turn.done.inj ht⟩))
  | accepts _ _ _ => cases ht
  | header _ _ _ => cases ht
  | toBody _ _ _ _ => cases ht
  | stays _ => cases ht

end HeadParser

/-! ### The end of a call -/

/-- The loop has a branch for the state. -/
def Parsing.Live (P : HeadParser M) (p : Parsing M) : Prop :=
  p.state ≠ .gotAll ∧ (p.state = .expectBody → P.takeBody.isSome)

namespace HeadParser

variable {P : HeadParser M} {p q : Parsing M}

theorem live_again (h : p.Live P) (hturn : P.turn p = .again q) : q.Live P ∧ q.buffer.length < p.buffer.length := by
  have hdrop : ∀ {n : ℕ}, Lines.find crlf p.buffer = some n → (p.buffer.drop (n + 2)).length < p.buffer.length := by
    intro n hfind
    have hle : n + 2 ≤ p.buffer.length := Lines.find_le hfind
    rw [List.length_drop]
    omega
  have htakes := takes_iff.2 hturn
  cases htakes with
  | accepts hstate hfind hline => exact ⟨⟨nofun, nofun⟩, hdrop hfind⟩
  | header hstate hfind hcut => exact ⟨⟨nofun, nofun⟩, hdrop hfind⟩
  | toBody hstate hfind hcut hbody => exact ⟨⟨nofun, fun _ => hbody⟩, hdrop hfind⟩
  | stays hstate =>
    rcases hstate with ⟨hstate, hnone⟩ | hstate
    · have := h.2 hstate
      rw [hnone] at this
      cases this
    · exact absurd hstate h.1

/-- After the headers a loop does not go back. -/
theorem eq_of_again (hstate : p.state = .expectBody ∨ p.state = .gotAll) (hturn : P.turn p = .again q) : q = p := by
  have htakes := takes_iff.2 hturn
  cases htakes with
  | accepts hstate' _ _ => rcases hstate with hstate | hstate <;> rw [hstate] at hstate' <;> cases hstate'
  | header hstate' _ _ => rcases hstate with hstate | hstate <;> rw [hstate] at hstate' <;> cases hstate'
  | toBody hstate' _ _ _ => rcases hstate with hstate | hstate <;> rw [hstate] at hstate' <;> cases hstate'
  | stays _ => rfl

theorem exists_ends (h : p.Live P) : ∃ r, Ends P.turn p r :=
  Loop.exists_ends (fun p => p.buffer.length) (fun _ _ hp hturn => live_again hp hturn) h

/-- In the other states the loop goes around for ever. -/
theorem not_ends (h : ¬p.Live P) (r : Option (Parsing M)) : ¬Ends P.turn p r := by
  apply not_ends_of_fixed
  refine Takes.turn_eq (.stays ?_)
  by_cases hgotAll : p.state = .gotAll
  · exact .inr hgotAll
  · rw [Parsing.Live, not_and_or, not_not, Classical.not_imp, Bool.not_eq_true, Option.isSome_eq_false_iff,
      Option.isNone_iff_eq_none] at h
    exact h.elim (fun h => absurd h hgotAll) .inl

theorem exists_ends_iff : (∃ r, Ends P.turn p r) ↔ p.Live P := by
  constructor
  · rintro ⟨r, hr⟩
    by_contra hlive
    exact not_ends hlive r hr
  · exact exists_ends

end HeadParser

/-! ### More bytes -/

/-- With more bytes in the buffer. -/
def Parsing.more (p : Parsing M) (bytes : Bytes) : Parsing M := { p with buffer := p.buffer ++ bytes }

@[simp] theorem Parsing.more_nil (p : Parsing M) : p.more [] = p := by
  unfold Parsing.more
  rw [List.append_nil]

theorem Parsing.more_more (p : Parsing M) (a b : Bytes) : (p.more a).more b = p.more (a ++ b) := by
  unfold Parsing.more
  rw [List.append_assoc]

namespace HeadParser

variable {P : HeadParser M} {p q : Parsing M}

/-- The first line of a buffer stays where it is. -/
theorem line_more {buffer : Bytes} {n : ℕ} (h : Lines.find crlf buffer = some n) (bytes : Bytes) :
    Lines.find crlf (buffer ++ bytes) = some n ∧ (buffer ++ bytes).take n = buffer.take n ∧
      (buffer ++ bytes).drop (n + 2) = buffer.drop (n + 2) ++ bytes := by
  have hle : n + 2 ≤ buffer.length := Lines.find_le h
  exact ⟨Lines.find_append h bytes, List.take_append_of_le_length (by omega), List.drop_append_of_le_length hle⟩

theorem turn_more (h : P.turn p = .again q) (bytes : Bytes) : P.turn (p.more bytes) = .again (q.more bytes) := by
  have htakes := takes_iff.2 h
  refine Takes.turn_eq ?_
  cases htakes with
  | accepts hstate hfind hline =>
    obtain ⟨hfind', htake, hdrop⟩ := line_more hfind bytes
    have hmore : P.Takes (p.more bytes) _ := .accepts hstate hfind' (htake ▸ hline)
    rwa [Parsing.more, hdrop] at hmore
  | header hstate hfind hcut =>
    obtain ⟨hfind', htake, hdrop⟩ := line_more hfind bytes
    have hmore : P.Takes (p.more bytes) _ := .header hstate hfind' (htake ▸ hcut)
    rwa [Parsing.more, hdrop] at hmore
  | toBody hstate hfind hcut hbody =>
    obtain ⟨hfind', htake, hdrop⟩ := line_more hfind bytes
    have hmore : P.Takes (p.more bytes) _ := .toBody hstate hfind' (htake ▸ hcut) hbody
    rwa [Parsing.more, hdrop] at hmore
  | stays hstate => exact .stays hstate

theorem visits_more (h : Visits P.turn p q) (bytes : Bytes) : Visits P.turn (p.more bytes) (q.more bytes) := by
  induction h with
  | start => exact .start
  | again _ hturn ih => exact ih.again (turn_more hturn bytes)

end HeadParser

/-! ### Lines at hand -/

/-- What is before the first colon of a header line. -/
def headerName (line : Bytes) : Bytes := line.takeWhile (· ≠ 58)

def afterColon (line : Bytes) : Bytes := (line.dropWhile (· ≠ 58)).tail

theorem cutAt_eq {b : UInt8} {l : Bytes} (h : b ∈ l) :
    cutAt b l = some (l.takeWhile (· ≠ b), (l.dropWhile (· ≠ b)).tail) := if_pos h

theorem mem_of_cutAt {b : UInt8} {l : Bytes} {cut : Bytes × Bytes} (h : cutAt b l = some cut) : b ∈ l := by
  by_contra hnot
  rw [cutAt_none hnot] at h
  cases h

theorem not_mem_of_cutAt {b : UInt8} {l : Bytes} (h : cutAt b l = none) : b ∉ l := by
  intro hmem
  rw [cutAt_eq hmem] at h
  cases h

namespace HeadParser

variable {P : HeadParser M} {ok : Bool} {message message' : M} {line : Bytes}

private theorem take_free (line rest : Bytes) : (line ++ crlf ++ rest).take line.length = line := by
  rw [List.append_assoc, List.take_left]

private theorem drop_free (line rest : Bytes) : (line ++ crlf ++ rest).drop (line.length + 2) = rest :=
  List.drop_left' (by rw [List.length_append]; rfl)

theorem turn_line (hfree : Lines.Free crlf line) (hline : P.processLine message line = some (true, message'))
    (rest : Bytes) :
    P.turn ⟨ok, .expectRequestLine, message, line ++ crlf ++ rest⟩ =
      .again ⟨true, .expectHeaders, message', rest⟩ := by
  have hturn : P.Takes ⟨ok, .expectRequestLine, message, line ++ crlf ++ rest⟩ _ :=
    .accepts rfl (hfree.find rest) (by rw [take_free]; exact hline)
  dsimp only at hturn
  rw [drop_free] at hturn
  exact hturn.turn_eq

theorem turn_header (hfree : Lines.Free crlf line) (hcolon : 58 ∈ line) (rest : Bytes) :
    P.turn ⟨ok, .expectHeaders, message, line ++ crlf ++ rest⟩ =
      .again ⟨ok, .expectHeaders, P.addHeader message (headerName line) (afterColon line), rest⟩ := by
  have hturn : P.Takes ⟨ok, .expectHeaders, message, line ++ crlf ++ rest⟩ _ :=
    .header rfl (hfree.find rest) (by rw [take_free]; exact cutAt_eq hcolon)
  dsimp only at hturn
  rw [drop_free] at hturn
  exact hturn.turn_eq

/-- A line without a colon ends the headers. -/
theorem turn_last (hfree : Lines.Free crlf line) (hcolon : 58 ∉ line) (rest : Bytes) (hbody : P.takeBody = none) :
    P.turn ⟨ok, .expectHeaders, message, line ++ crlf ++ rest⟩ = .done (some ⟨ok, .gotAll, message, rest⟩) := by
  have hturn : P.Takes ⟨ok, .expectHeaders, message, line ++ crlf ++ rest⟩ _ :=
    .completes rfl (hfree.find rest) (by rw [take_free]; exact cutAt_none hcolon) hbody
  dsimp only at hturn
  rw [drop_free] at hturn
  exact hturn.turn_eq

theorem turn_lastBody (hfree : Lines.Free crlf line) (hcolon : 58 ∉ line) (rest : Bytes) (hbody : P.takeBody.isSome) :
    P.turn ⟨ok, .expectHeaders, message, line ++ crlf ++ rest⟩ = .again ⟨ok, .expectBody, message, rest⟩ := by
  have hturn : P.Takes ⟨ok, .expectHeaders, message, line ++ crlf ++ rest⟩ _ :=
    .toBody rfl (hfree.find rest) (by rw [take_free]; exact cutAt_none hcolon) hbody
  dsimp only at hturn
  rw [drop_free] at hturn
  exact hturn.turn_eq

/-- The header lines are taken one after another. -/
theorem visits_headers {lines : List Bytes} (hlines : ∀ h ∈ lines, Lines.Free crlf h ∧ 58 ∈ h) (rest : Bytes) :
    Visits P.turn ⟨ok, .expectHeaders, message, (lines.map (· ++ crlf)).flatten ++ rest⟩
      ⟨ok, .expectHeaders, lines.foldl (fun m h => P.addHeader m (headerName h) (afterColon h)) message, rest⟩ := by
  induction lines generalizing message with
  | nil => exact .start
  | cons h lines ih =>
    obtain ⟨hfree, hcolon⟩ := hlines h (List.mem_cons_self ..)
    rw [List.map_cons, List.flatten_cons, List.append_assoc, List.foldl_cons]
    exact (ih fun h' hh' => hlines h' (List.mem_cons_of_mem h hh')).head (turn_header hfree hcolon _)

end HeadParser

theorem free_nil : Lines.Free crlf [] := by decide

end Http
