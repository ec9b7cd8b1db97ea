import Mathlib.Data.List.Basic
import Mathlib.Tactic.Common

/-!
# Binary search

The loop that halves an interval of indices, for a test that stays true once it is true.  On a list that is sorted
with respect to the test it stops at the first element that passes (`getElem?_bisect`).
-/

namespace Search

/-- The least index between `left` and `right` at which the test holds, or `right`. -/
def bisect (p : ℕ → Bool) (left right : ℕ) : ℕ :=
  if left < right then
    if p ((left + right) / 2) then bisect p left ((left + right) / 2)
    else bisect p ((left + right) / 2 + 1) right
  else right
termination_by right - left

theorem bisect_spec {p : ℕ → Bool} (hmono : ∀ i j, i ≤ j → p i → p j) {left right : ℕ} (hle : left ≤ right)
    (hleft : ∀ i < left, ¬ p i) (hright : p right) :
    p (bisect p left right) ∧ ∀ i < bisect p left right, ¬ p i := by
  fun_induction bisect p left right with
  | case1 left right hlt hp ih => exact ih (by omega) hleft hp
  | case2 left right hlt hp ih =>
    refine ih (by omega) (fun i hi hpi => ?_) hright
    exact hp (hmono i _ (by omega) hpi)
  | case3 left right hnot => exact ⟨hright, fun i hi => hleft i (by omega)⟩

variable {α : Type*}

/-- The test at an index of a list; it is passed beyond the end. -/
def passesAt (l : List α) (p : α → Bool) (i : ℕ) : Bool := l[i]?.all p

private theorem passesAt_cons_succ (a : α) (l : List α) (p : α → Bool) (i : ℕ) :
    passesAt (a :: l) p (i + 1) = passesAt l p i := by
  simp [passesAt]

theorem passesAt_mono {l : List α} {p : α → Bool} (h : l.Pairwise fun a b => p a → p b) {i j : ℕ} (hij : i ≤ j)
    (hi : passesAt l p i) : passesAt l p j := by
  rcases Nat.lt_or_ge j l.length with hj | hj
  · rcases Nat.lt_or_eq_of_le hij with hlt | rfl
    · have hpair := List.pairwise_iff_getElem.1 h i j (by omega) hj hlt
      simp only [passesAt, List.getElem?_eq_getElem hj, Option.all_some]
      simp only [passesAt, List.getElem?_eq_getElem (Nat.lt_trans hlt hj), Option.all_some] at hi
      exact hpair hi
    · exact hi
  · simp [passesAt, List.getElem?_eq_none hj]

private theorem getElem?_eq_find? {l : List α} {p : α → Bool} {i : ℕ} (hi : passesAt l p i)
    (hbefore : ∀ j < i, ¬ passesAt l p j) : l[i]? = l.find? p := by
  induction l generalizing i with
  | nil => simp
  | cons a l ih =>
    cases i with
    | zero =>
      have ha : p a := by simpa [passesAt] using hi
      simp [ha]
    | succ i =>
      have ha : p a = false := by simpa [passesAt] using hbefore 0 (by omega)
      rw [List.getElem?_cons_succ, List.find?_cons_of_neg (by simp [ha])]
      refine ih (by rwa [passesAt_cons_succ] at hi) fun j hj => ?_
      have := hbefore (j + 1) (by omega)
      rwa [passesAt_cons_succ] at this

/-- The search stops at the first element that passes. -/
theorem getElem?_bisect {l : List α} {p : α → Bool} (h : l.Pairwise fun a b => p a → p b) :
    l[bisect (passesAt l p) 0 l.length]? = l.find? p := by
  have hend : passesAt l p l.length := by simp [passesAt]
  have hspec := bisect_spec (fun i j hij hi => passesAt_mono h (i := i) (j := j) hij hi) (Nat.zero_le l.length)
    (fun i hi => absurd hi (Nat.not_lt_zero i)) hend
  exact getElem?_eq_find? hspec.1 hspec.2

/-! ### Tests that change once along a list -/

theorem filter_eq_takeWhile {l : List α} {p : α → Bool} (h : l.Pairwise fun a b => p b → p a) :
    l.filter p = l.takeWhile p := by
  induction l with
  | nil => rfl
  | cons a l ih =>
    obtain ⟨ha, hl⟩ := List.pairwise_cons.1 h
    by_cases hp : p a
    · rw [List.filter_cons_of_pos hp, List.takeWhile_cons_of_pos hp, ih hl]
    · rw [List.filter_cons_of_neg hp, List.takeWhile_cons_of_neg hp, List.filter_eq_nil_iff]
      exact fun b hb hpb => hp (ha b hb hpb)

theorem filter_eq_dropWhile {l : List α} {p : α → Bool} (h : l.Pairwise fun a b => p a → p b) :
    l.filter p = l.dropWhile fun a => !p a := by
  induction l with
  | nil => rfl
  | cons a l ih =>
    obtain ⟨ha, hl⟩ := List.pairwise_cons.1 h
    by_cases hp : p a
    · rw [List.dropWhile_cons_of_neg (by simp [hp]), List.filter_eq_self]
      intro b hb
      rcases List.mem_cons.1 hb with rfl | hb
      · exact hp
      · exact ha b hb hp
    · rw [List.filter_cons_of_neg hp, List.dropWhile_cons_of_pos (by simp [hp]), ih hl]

/-- The elements that pass both a test that is passed from some point on and one that is passed up to some point are a
section of the list. -/
theorem filter_isInfix {l : List α} {p q : α → Bool} (hp : l.Pairwise fun a b => p a → p b)
    (hq : l.Pairwise fun a b => q b → q a) : (l.filter fun a => p a && q a) <:+: l := by
  have hsplit : l.filter (fun a => p a && q a) = (l.dropWhile fun a => !p a).takeWhile q := by
    rw [← filter_eq_dropWhile hp, ← filter_eq_takeWhile (hq.sublist List.filter_sublist), List.filter_filter]
    exact List.filter_congr fun a _ => Bool.and_comm _ _
  rw [hsplit]
  exact (List.takeWhile_prefix _).isInfix.trans (List.dropWhile_suffix _).isInfix

end Search
