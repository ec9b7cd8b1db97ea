import Mathlib.Data.List.Basic
import Mathlib.Tactic.Common

/-!
# Glob patterns

A pattern is a list of elements: an element takes one letter with some property, or any word.  `Matches` is the
language of a pattern and `accepts` decides it.
-/

namespace Glob

variable {α : Type*}

inductive Elem (α : Type*) where
  | one (p : α → Bool)
  | star

/-- The word belongs to the language of the pattern. -/
inductive Matches : List (Elem α) → List α → Prop
  | nil : Matches [] []
  | one {p : α → Bool} {a : α} {es : List (Elem α)} {w : List α} :
      p a = true → Matches es w → Matches (.one p :: es) (a :: w)
  | star {es : List (Elem α)} {w : List α} (skipped : List α) :
      Matches es w → Matches (.star :: es) (skipped ++ w)

def accepts : List (Elem α) → List α → Bool
  | [], w => w.isEmpty
  | .one _ :: _, [] => false
  | .one p :: es, a :: w => p a && accepts es w
  | .star :: es, w => (List.range (w.length + 1)).any fun i => accepts es (w.drop i)

variable {p : α → Bool} {es : List (Elem α)} {w : List α}

theorem accepts_star_iff : accepts (.star :: es) w = true ↔ ∃ i ≤ w.length, accepts es (w.drop i) = true := by
  simp only [accepts, List.any_eq_true, List.mem_range, Nat.lt_succ_iff]

theorem accepts_iff : accepts es w = true ↔ Matches es w := by
  constructor
  · intro h
    induction es generalizing w with
    | nil =>
      obtain rfl : w = [] := by simpa [accepts] using h
      exact .nil
    | cons e es ih =>
      cases e with
      | one p =>
        cases w with
        | nil => simp [accepts] at h
        | cons a w =>
          simp only [accepts, Bool.and_eq_true] at h
          exact .one h.1 (ih h.2)
      | star =>
        obtain ⟨i, -, hi⟩ := accepts_star_iff.1 h
        have hstar := Matches.star (w.take i) (ih hi)
        rwa [List.take_append_drop] at hstar
  · intro h
    induction h with
    | nil => rfl
    | one hp _ ih => simp [accepts, hp, ih]
    | star skipped _ ih => exact accepts_star_iff.2 ⟨skipped.length, by simp, by rwa [List.drop_left]⟩

instance (es : List (Elem α)) (w : List α) : Decidable (Matches es w) := decidable_of_iff _ accepts_iff

/-- A star in front of a star makes no difference. -/
theorem accepts_star_star : accepts (.star :: .star :: es) w = accepts (.star :: es) w := by
  rw [Bool.eq_iff_iff, accepts_star_iff, accepts_star_iff]
  constructor
  · rintro ⟨i, hi, h⟩
    obtain ⟨j, hj, h⟩ := accepts_star_iff.1 h
    rw [List.length_drop] at hj
    exact ⟨i + j, by omega, by rwa [List.drop_drop] at h⟩
  · rintro ⟨i, hi, h⟩
    exact ⟨0, Nat.zero_le _, accepts_star_iff.2 ⟨i, hi, h⟩⟩

/-- A star at the end takes what is left. -/
theorem accepts_star_nil : accepts ([.star] : List (Elem α)) w = true :=
  accepts_star_iff.2 ⟨w.length, Nat.le_refl _, by simp [accepts]⟩

/-- The empty word is taken by stars only. -/
theorem accepts_empty_iff : accepts es ([] : List α) = true ↔ ∀ e ∈ es, e = .star := by
  induction es with
  | nil => simp [accepts]
  | cons e es ih =>
    cases e with
    | one p => simp [accepts]
    | star => simp [accepts, ih]

/-- A star in front of an element for one letter leaves it a letter. -/
theorem accepts_star_one : accepts (.star :: .one p :: es) w =
    (List.range w.length).any fun i => accepts (.one p :: es) (w.drop i) := by
  rw [accepts, List.range_succ, List.any_append]
  simp [accepts]

end Glob
