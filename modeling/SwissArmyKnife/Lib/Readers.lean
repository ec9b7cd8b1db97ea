import Mathlib.Data.List.Basic
import Mathlib.Tactic.Common

/-!
# Readers

A reader takes a value off the front of a list.  `Reads read bytes v` says that `bytes` is an encoding of `v`: it is
read whatever follows it, and cut short it is not read.  Encodings are composed by `Reads.bind`.  A list that begins
like a sequence of encodings is a number of them followed by the beginning of the next (`exists_take_of_prefix`).
-/

namespace Readers

variable {α β γ : Type*}

structure Reads (read : List α → Option (β × List α)) (bytes : List α) (v : β) : Prop where
  whole : ∀ rest, read (bytes ++ rest) = some (v, rest)
  cut : ∀ p, p <+: bytes → p ≠ bytes → read p = none

/-- Reads one value and then another. -/
def pair (read : List α → Option (β × List α)) (read' : List α → Option (γ × List α)) (input : List α) :
    Option ((β × γ) × List α) :=
  (read input).bind fun r => (read' r.2).map fun q => ((r.1, q.1), q.2)

theorem of_pair {read : List α → Option (β × List α)} {read' : List α → Option (γ × List α)} {input rest : List α}
    {v : β × γ} (h : pair read read' input = some (v, rest)) :
    ∃ mid, read input = some (v.1, mid) ∧ read' mid = some (v.2, rest) := by
  obtain ⟨r, hr, hmap⟩ := Option.bind_eq_some_iff.1 h
  obtain ⟨q, hq, heq⟩ := Option.map_eq_some_iff.1 hmap
  obtain ⟨rfl, rfl⟩ := Prod.mk.inj heq
  exact ⟨r.2, hr, hq⟩

namespace Reads

variable {read : List α → Option (β × List α)} {read' : List α → Option (γ × List α)} {bytes bytes' : List α} {v : β}
  {w : γ}

theorem whole_self (h : Reads read bytes v) : read bytes = some (v, []) := by
  simpa using h.whole []

theorem bind (next : β → List α → Option (γ × List α)) (h : Reads read bytes v) (hnext : Reads (next v) bytes' w) :
    Reads (fun input => (read input).bind fun r => next r.1 r.2) (bytes ++ bytes') w where
  whole rest := by
    rw [List.append_assoc, h.whole, Option.bind_some]
    exact hnext.whole rest
  cut p hp hne := by
    rcases List.prefix_or_prefix_of_prefix hp (List.prefix_append bytes bytes') with hp' | ⟨q, rfl⟩
    · by_cases heq : p = bytes
      · -- The first value is whole and the second has not begun.
        subst heq
        have hne' : ([] : List α) ≠ bytes' := fun h' => hne (by rw [← h', List.append_nil])
        rw [h.whole_self, Option.bind_some]
        exact hnext.cut [] List.nil_prefix hne'
      · rw [h.cut p hp' heq, Option.bind_none]
    · rw [h.whole, Option.bind_some]
      exact hnext.cut q ((List.prefix_append_right_inj bytes).1 hp) fun h' => hne (by rw [h'])

theorem congr {read' : List α → Option (β × List α)} (h : Reads read bytes v)
    (heq : ∀ input, read' input = read input) :
    Reads read' bytes v := by
  have : read' = read := funext heq
  rwa [this]

/-- The value is checked or converted after it has been read. -/
theorem filterMap {f : β → Option γ} (h : Reads read bytes v) (hf : f v = some w) :
    Reads (fun input => (read input).bind fun r => (f r.1).map fun c => (c, r.2)) bytes w where
  whole rest := by rw [h.whole, Option.bind_some, hf, Option.map_some]
  cut p hp hne := by rw [h.cut p hp hne, Option.bind_none]

theorem map (f : β → γ) (h : Reads read bytes v) :
    Reads (fun input => (read input).map fun r => (f r.1, r.2)) bytes (f v) where
  whole rest := by rw [h.whole, Option.map_some]
  cut p hp hne := by rw [h.cut p hp hne, Option.map_none]

/-- One value and then another. -/
theorem pair (h : Reads read bytes v) (h' : Reads read' bytes' w) :
    Reads (Readers.pair read read') (bytes ++ bytes') (v, w) := by
  have hnext : Reads (fun input => (read' input).map fun r => ((v, r.1), r.2)) bytes' (v, w) := h'.map fun b => (v, b)
  exact bind (fun a input => (read' input).map fun r => ((a, r.1), r.2)) h hnext

end Reads

/-- A number of elements. -/
def readN (n : ℕ) (input : List α) : Option (List α × List α) :=
  if n ≤ input.length then some (input.take n, input.drop n) else none

theorem reads_readN (l : List α) : Reads (readN l.length) l l where
  whole rest := by simp [readN]
  cut p hp hne := by
    have hlt : p.length < l.length := Nat.lt_of_le_of_ne hp.length_le fun h => hne (hp.eq_of_length h)
    rw [readN, if_neg (by omega)]

/-! ### Sequences of encodings -/

theorem exists_take_of_prefix {encodings : List (List α)} {p : List α} (h : p <+: encodings.flatten) :
    ∃ n q, p = (encodings.take n).flatten ++ q ∧
      (q = [] ∨ ∃ bytes, encodings[n]? = some bytes ∧ q <+: bytes ∧ q ≠ bytes ∧ q ≠ []) := by
  induction encodings generalizing p with
  | nil => exact ⟨0, [], by simpa using h, Or.inl rfl⟩
  | cons bytes encodings ih =>
    rw [List.flatten_cons] at h
    rcases List.prefix_or_prefix_of_prefix h (List.prefix_append bytes encodings.flatten) with hp | ⟨p', rfl⟩
    · by_cases hnil : p = []
      · exact ⟨0, [], by simpa using hnil, Or.inl rfl⟩
      by_cases heq : p = bytes
      · exact ⟨1, [], by simp [heq], Or.inl rfl⟩
      · exact ⟨0, p, by simp, Or.inr ⟨bytes, rfl, hp, heq, hnil⟩⟩
    · obtain ⟨n, q, rfl, hq⟩ := ih ((List.prefix_append_right_inj bytes).1 h)
      exact ⟨n + 1, q, by simp, by simpa using hq⟩

/-- A sequence that is cut inside an encoding is no sequence of whole encodings. -/
theorem append_ne_flatten_take {before after : List (List α)} {bytes q : List α} (hq : q <+: bytes) (hcut : q ≠ bytes)
    (hne : q ≠ []) (n : ℕ) : before.flatten ++ q ≠ ((before ++ bytes :: after).take n).flatten := by
  intro h
  have hlength := congrArg List.length h
  have hlt : q.length < bytes.length := Nat.lt_of_le_of_ne hq.length_le fun h => hcut (hq.eq_of_length h)
  have hpos := List.length_pos_iff.2 hne
  rcases Nat.lt_or_ge before.length n with hn | hn
  · obtain ⟨m, rfl⟩ := Nat.exists_eq_add_of_lt hn
    rw [show before.length + m + 1 = before.length + (m + 1) by omega, List.take_length_add_append,
      List.take_succ_cons, List.flatten_append, List.flatten_cons] at hlength
    simp only [List.length_append] at hlength
    omega
  · have hsplit := congrArg (fun l => l.flatten.length) (List.take_append_drop n before)
    rw [List.take_append_of_le_length hn] at hlength
    simp only [List.flatten_append, List.length_append] at hlength hsplit
    omega

end Readers
