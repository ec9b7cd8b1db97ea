import Mathlib.Data.Int.Order.Basic
import Mathlib.Data.List.TakeWhile
import Mathlib.Data.Nat.Digits.Defs
import Mathlib.Tactic.Common

/-!
# Decimal numbers as bytes

The decimal text of an integer, as `std::to_string` writes it, and the reader `strtoll`, which takes blanks, a sign
and digits from the front of a text and saturates.  The texts that it reads to their end are more than those that
denote an integer (`strtoll_eq_iff`).
-/

namespace Decimal

abbrev Bytes := List UInt8

def isDigit (b : UInt8) : Bool := 48 ≤ b && b ≤ 57

/-- `isspace` of the C locale. -/
def isSpace (b : UInt8) : Bool := b = 32 || (9 ≤ b && b ≤ 13)

/-- The number that digits stand for. -/
def number (ds : Bytes) : ℕ := ds.foldl (fun n d => 10 * n + (d.toNat - 48)) 0

def digits (n : ℕ) : Bytes := if n = 0 then [48] else (Nat.digits 10 n).reverse.map fun d => (48 + d).toUInt8

/-- `std::to_string`. -/
def toString (i : ℤ) : Bytes := if i < 0 then 45 :: digits i.natAbs else digits i.natAbs

/-- The text is an optional minus sign and digits, which denote the integer. -/
def Denotes (s : Bytes) (i : ℤ) : Prop :=
  ∃ ds, ds ≠ [] ∧ ds.all isDigit ∧ (s = ds ∧ i = number ds ∨ s = 45 :: ds ∧ i = -(number ds : ℤ))

/-! ### Writing -/

theorem number_map_reverse {l : List ℕ} (h : ∀ d ∈ l, d < 10) :
    number (l.reverse.map fun d => (48 + d).toUInt8) = Nat.ofDigits 10 l := by
  induction l with
  | nil => rfl
  | cons d l ih =>
    have hd := h d (List.mem_cons_self ..)
    have hbyte : ((48 + d).toUInt8).toNat = 48 + d := by simp; omega
    have ih := ih fun e he => h e (List.mem_cons_of_mem _ he)
    rw [number] at ih ⊢
    rw [List.reverse_cons, List.map_append, List.foldl_append, ih, Nat.ofDigits_cons]
    simp only [List.map_cons, List.map_nil, List.foldl_cons, List.foldl_nil, hbyte]
    omega

theorem number_digits (n : ℕ) : number (digits n) = n := by
  unfold digits
  split
  · rename_i hn
    rw [hn]
    rfl
  · rw [number_map_reverse fun d hd => Nat.digits_lt_base (by omega) hd, Nat.ofDigits_digits]

theorem digits_ne_nil (n : ℕ) : digits n ≠ [] := by
  unfold digits
  split
  · simp
  · rename_i hn
    simpa [Nat.digits_eq_nil_iff_eq_zero] using hn

theorem isDigit_digits (n : ℕ) : (digits n).all isDigit := by
  unfold digits
  split
  · rfl
  · rw [List.all_eq_true]
    intro b hb
    obtain ⟨d, hd, rfl⟩ := List.mem_map.1 hb
    have hlt : d < 10 := Nat.digits_lt_base (by omega) (List.mem_reverse.1 hd)
    have hbyte : ((48 + d).toUInt8).toNat = 48 + d := by simp; omega
    simp only [isDigit, Bool.and_eq_true, decide_eq_true_eq, UInt8.le_iff_toNat_le, hbyte]
    exact ⟨by simp, by simp; omega⟩

theorem denotes_toString (i : ℤ) : Denotes (toString i) i := by
  refine ⟨digits i.natAbs, digits_ne_nil _, isDigit_digits _, ?_⟩
  unfold toString
  rw [number_digits]
  split
  · exact Or.inr ⟨rfl, by omega⟩
  · exact Or.inl ⟨rfl, by omega⟩

/-! ### Reading -/

/-- The nearest number that 64 bits with a sign hold. -/
def saturate (i : ℤ) : ℤ := max (-2 ^ 63) (min i (2 ^ 63 - 1))

/-- The sign before a number. -/
def sign : Bytes → Bool × Bytes
  | [] => (false, [])
  | d :: ds => if d = 45 then (true, ds) else if d = 43 then (false, ds) else (false, d :: ds)

/-- `strtoll` in base 10: what it returns and the text from `*end` on. -/
def strtoll (s : Bytes) : ℤ × Bytes :=
  let (negative, rest) := sign (s.dropWhile isSpace)
  let ds := rest.takeWhile isDigit
  if ds = [] then (0, s) else (saturate (if negative then -(number ds : ℤ) else number ds), rest.dropWhile isDigit)

theorem saturate_of_fits {i : ℤ} (hmin : -2 ^ 63 ≤ i) (hmax : i < 2 ^ 63) : saturate i = i := by
  unfold saturate
  omega

theorem saturate_fits (i : ℤ) : -2 ^ 63 ≤ saturate i ∧ saturate i < 2 ^ 63 := by
  unfold saturate
  omega

theorem strtoll_fits (s : Bytes) : -2 ^ 63 ≤ (strtoll s).1 ∧ (strtoll s).1 < 2 ^ 63 := by
  simp only [strtoll]
  split
  · simp
  · exact saturate_fits _

/-- The number at the front of a text, before it is saturated. -/
def leading (s : Bytes) : ℤ :=
  let (negative, rest) := sign (s.dropWhile isSpace)
  if negative then -(number (rest.takeWhile isDigit) : ℤ) else number (rest.takeWhile isDigit)

theorem strtoll_fst (s : Bytes) : (strtoll s).1 = saturate (leading s) := by
  obtain ⟨negative, rest, hsign⟩ : ∃ negative rest, sign (s.dropWhile isSpace) = (negative, rest) := ⟨_, _, rfl⟩
  simp only [strtoll, leading, hsign]
  split
  · rename_i hnone
    rw [hnone]
    cases negative <;> rfl
  · rfl

/-- A digit is no blank, no sign and no NUL. -/
theorem isDigit_cases {d : UInt8} (h : isDigit d = true) : isSpace d = false ∧ d ≠ 45 ∧ d ≠ 43 ∧ d ≠ 0 := by
  have hd : 48 ≤ d.toNat ∧ d.toNat ≤ 57 := by
    simpa [isDigit, UInt8.le_iff_toNat_le] using h
  refine ⟨?_, ?_, ?_, ?_⟩
  · simp only [isSpace, Bool.or_eq_false_iff, Bool.and_eq_false_iff, decide_eq_false_iff_not, UInt8.le_iff_toNat_le,
      UInt8.toNat_inj.symm]
    exact ⟨by simp; omega, by simp; omega⟩
  all_goals
    rintro rfl
    simp at hd

/-- Digits are read to their end. -/
private theorem takeWhile_isDigit {ds : Bytes} (h : ds.all isDigit) :
    ds.takeWhile isDigit = ds ∧ ds.dropWhile isDigit = [] := by
  have hall : ∀ d ∈ ds, isDigit d = true := List.all_eq_true.1 h
  exact ⟨List.takeWhile_eq_self_iff.2 hall, List.dropWhile_eq_nil_iff.2 hall⟩

/-- A text that is read to its end, and what it is read as: nothing, or blanks, a sign and digits. -/
def Whole (s : Bytes) (i : ℤ) : Prop :=
  s = [] ∧ i = 0 ∨ ∃ blanks ds, blanks.all isSpace ∧ ds ≠ [] ∧ ds.all isDigit ∧
    ((s = blanks ++ ds ∨ s = blanks ++ 43 :: ds) ∧ i = saturate (number ds) ∨
      s = blanks ++ 45 :: ds ∧ i = saturate (-(number ds : ℤ)))

theorem Denotes.whole {s : Bytes} {i : ℤ} (h : Denotes s i) : Whole s (saturate i) := by
  obtain ⟨ds, hne, hdigits, ⟨rfl, rfl⟩ | ⟨rfl, rfl⟩⟩ := h
  · exact Or.inr ⟨[], s, rfl, hne, hdigits, Or.inl ⟨Or.inl rfl, rfl⟩⟩
  · exact Or.inr ⟨[], ds, rfl, hne, hdigits, Or.inr ⟨rfl, rfl⟩⟩

private theorem dropWhile_isSpace {blanks rest : Bytes} {d : UInt8} (hblanks : blanks.all isSpace)
    (hd : isSpace d = false) : (blanks ++ d :: rest).dropWhile isSpace = d :: rest := by
  rw [List.dropWhile_append_of_pos fun b hb => List.all_eq_true.1 hblanks b hb,
    List.dropWhile_cons_of_neg (by simp [hd])]

/-- The digits after the blanks and the sign, when nothing comes after them. -/
private theorem strtoll_of_sign {s ds : Bytes} (negative : Bool) (hsign : sign (s.dropWhile isSpace) = (negative, ds))
    (hne : ds ≠ []) (hdigits : ds.all isDigit) :
    strtoll s = (saturate (if negative then -(number ds : ℤ) else number ds), []) := by
  obtain ⟨htake, hdrop⟩ := takeWhile_isDigit hdigits
  simp only [strtoll, hsign, htake, hdrop, if_neg hne]

theorem Whole.strtoll_eq {s : Bytes} {i : ℤ} (h : Whole s i) : strtoll s = (i, []) := by
  obtain ⟨rfl, rfl⟩ | ⟨blanks, ds, hblanks, hne, hdigits, htext⟩ := h
  · rfl
  · rcases htext with ⟨rfl | rfl, rfl⟩ | ⟨rfl, rfl⟩
    · obtain ⟨d, ds', rfl⟩ := List.exists_cons_of_ne_nil hne
      have hd := isDigit_cases (List.all_eq_true.1 hdigits d (List.mem_cons_self ..))
      refine (strtoll_of_sign false ?_ hne hdigits).trans (by simp)
      rw [dropWhile_isSpace hblanks hd.1]
      simp [sign, hd.2.1, hd.2.2.1]
    · refine (strtoll_of_sign false ?_ hne hdigits).trans (by simp)
      rw [dropWhile_isSpace hblanks (by decide)]
      rfl
    · refine (strtoll_of_sign true ?_ hne hdigits).trans (by simp)
      rw [dropWhile_isSpace hblanks (by decide)]
      rfl

/-- What follows the sign, when it is not empty. -/
private theorem sign_cases {s ds : Bytes} {negative : Bool} (h : sign s = (negative, ds)) :
    (negative = false ∧ (s = ds ∨ s = 43 :: ds)) ∨ negative = true ∧ s = 45 :: ds := by
  cases s with
  | nil =>
    simp only [sign, Prod.mk.injEq] at h
    exact Or.inl ⟨h.1.symm, Or.inl h.2⟩
  | cons d rest =>
    simp only [sign] at h
    split at h
    · rename_i hd
      simp only [Prod.mk.injEq] at h
      exact Or.inr ⟨h.1.symm, by rw [hd, h.2]⟩
    · split at h
      · rename_i hd
        simp only [Prod.mk.injEq] at h
        exact Or.inl ⟨h.1.symm, Or.inr (by rw [hd, h.2])⟩
      · simp only [Prod.mk.injEq] at h
        exact Or.inl ⟨h.1.symm, Or.inl h.2⟩

theorem strtoll_eq_iff {s : Bytes} {i : ℤ} : strtoll s = (i, []) ↔ Whole s i := by
  constructor
  · intro h
    have hsplit := List.takeWhile_append_dropWhile (p := isSpace) (l := s)
    obtain ⟨negative, rest, hsign⟩ : ∃ negative rest, sign (s.dropWhile isSpace) = (negative, rest) := ⟨_, _, rfl⟩
    simp only [strtoll, hsign] at h
    split at h
    · simp only [Prod.mk.injEq] at h
      exact Or.inl ⟨h.2, h.1.symm⟩
    · rename_i hne
      simp only [Prod.mk.injEq] at h
      have hdigits : ∀ d ∈ rest, isDigit d = true := List.dropWhile_eq_nil_iff.1 h.2
      rw [List.takeWhile_eq_self_iff.2 hdigits] at h hne
      refine Or.inr ⟨s.takeWhile isSpace, rest, ?_, hne, List.all_eq_true.2 hdigits, ?_⟩
      · exact List.all_eq_true.2 fun b hb => List.mem_takeWhile_imp hb
      · rcases sign_cases hsign with ⟨rfl, hrest | hrest⟩ | ⟨rfl, hrest⟩
        · exact Or.inl ⟨Or.inl (by rw [← hrest, hsplit]), by simpa using h.1.symm⟩
        · exact Or.inl ⟨Or.inr (by rw [← hrest, hsplit]), by simpa using h.1.symm⟩
        · exact Or.inr ⟨by rw [← hrest, hsplit], by simpa using h.1.symm⟩
  · exact Whole.strtoll_eq

/-- A text that denotes an integer has no NUL. -/
theorem Denotes.ne_zero {s : Bytes} {i : ℤ} (h : Denotes s i) {b : UInt8} (hb : b ∈ s) : b ≠ 0 := by
  obtain ⟨ds, -, hdigits, ⟨rfl, -⟩ | ⟨rfl, -⟩⟩ := h
  · exact (isDigit_cases (List.all_eq_true.1 hdigits b hb)).2.2.2
  · rcases List.mem_cons.1 hb with rfl | hb
    · decide
    · exact (isDigit_cases (List.all_eq_true.1 hdigits b hb)).2.2.2

/-- Digits are read up to the first byte that is not a digit. -/
theorem strtoll_digits {blanks ds rest : Bytes} (hblanks : blanks.all isSpace) (hne : ds ≠ [])
    (hdigits : ds.all isDigit)
    (hrest : ∀ b ∈ rest.head?, isDigit b = false) : (strtoll (blanks ++ (ds ++ rest))).1 = saturate (number ds) := by
  have htake : (ds ++ rest).takeWhile isDigit = ds := by
    rw [List.takeWhile_append_of_pos fun b hb => List.all_eq_true.1 hdigits b hb]
    cases rest with
    | nil => rw [List.takeWhile_nil, List.append_nil]
    | cons b rest => rw [List.takeWhile_cons_of_neg (by simp [hrest b rfl]), List.append_nil]
  have hsign : sign ((blanks ++ (ds ++ rest)).dropWhile isSpace) = (false, ds ++ rest) := by
    obtain ⟨d, ds', rfl⟩ := List.exists_cons_of_ne_nil hne
    have hd := isDigit_cases (List.all_eq_true.1 hdigits d (List.mem_cons_self ..))
    rw [List.cons_append, dropWhile_isSpace hblanks hd.1]
    simp [sign, hd.2.1, hd.2.2.1]
  simp [strtoll, hsign, htake, hne]

/-- A decimal text has no blanks. -/
theorem not_isSpace_digits {n : ℕ} {b : UInt8} (hb : b ∈ digits n) : isSpace b = false :=
  (isDigit_cases (List.all_eq_true.1 (isDigit_digits n) b hb)).1

end Decimal
