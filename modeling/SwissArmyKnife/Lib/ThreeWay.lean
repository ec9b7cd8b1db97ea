import Mathlib.Order.Lattice

/-!
# Three-way comparison

The sign with which a three-way comparison tells the order of two elements, and what follows of a comparison that
tells it on some elements only (`strictTotal_of_sign`).
-/

namespace ThreeWay

variable {κ : Type*} [LinearOrder κ]

def sign (a b : κ) : Ordering := if a < b then .lt else if a = b then .eq else .gt

theorem sign_eq_lt_iff {a b : κ} : sign a b = .lt ↔ a < b := by
  rw [sign]
  split_ifs <;> simp_all

theorem sign_eq_eq_iff {a b : κ} : sign a b = .eq ↔ a = b := by
  rw [sign]
  split_ifs with hlt heq
  · simp [hlt.ne]
  · simp [heq]
  · simp [heq]

theorem eq_sign {a b : κ} {r : Ordering} (hlt : r = .lt ↔ a < b) (heq : r = .eq ↔ a = b) : r = sign a b := by
  rw [sign]
  cases r with
  | lt => rw [if_pos (hlt.1 rfl)]
  | eq => rw [if_neg (heq.1 rfl).not_lt, if_pos (heq.1 rfl)]
  | gt => rw [if_neg (mt hlt.2 (by simp)), if_neg (mt heq.2 (by simp))]

theorem isLE_sign {a b : κ} : (sign a b).isLE ↔ a ≤ b := by
  rw [sign]
  split_ifs with hlt heq
  · simp [hlt.le]
  · simp [heq]
  · simp [lt_of_le_of_ne (not_lt.1 hlt) (Ne.symm heq)]

theorem some_sign_ne_gt_iff {a b : κ} : some (sign a b) ≠ some .gt ↔ a ≤ b := by
  rw [Ne, Option.some.injEq, ← isLE_sign]
  cases sign a b <;> simp

/-- Whether the elements are equal. -/
theorem map_sign_eq_iff {a b : κ} : ((some (sign a b)).map fun r => r == .eq) = some true ↔ a = b := by
  rw [Option.map_some, Option.some.injEq, beq_iff_eq, sign_eq_eq_iff]

theorem sign_swap (a b : κ) : (sign a b).swap = sign b a := by
  rcases lt_trichotomy a b with h | rfl | h
  · rw [sign, sign, if_pos h, if_neg h.not_gt, if_neg h.ne']
    rfl
  · rw [sign, if_neg (lt_irrefl a), if_pos rfl]
    rfl
  · rw [sign, sign, if_pos h, if_neg h.not_gt, if_neg h.ne']
    rfl

instance transCmpSign : Std.TransCmp (sign : κ → κ → Ordering) where
  eq_swap := (sign_swap _ _).symm
  isLE_trans hab hbc := by
    rw [isLE_sign] at *
    exact hab.trans hbc

/-- On the elements with `fits` a comparison is a strict total order: only an element is equal to itself, the two
directions have opposite signs, and it is transitive. -/
structure StrictTotal {κ : Type*} (fits : κ → Prop) (compare : κ → κ → Option Ordering) : Prop where
  returns : ∀ a b, fits a → fits b → (compare a b).isSome
  eq_iff : ∀ a b, fits a → fits b → (compare a b = some .eq ↔ a = b)
  swap : ∀ a b, fits a → fits b → compare b a = (compare a b).map Ordering.swap
  trans : ∀ a b c, fits a → fits b → fits c → compare a b = some .lt → compare b c = some .lt → compare a c = some .lt

theorem strictTotal_of_sign {fits : κ → Prop} {compare : κ → κ → Option Ordering}
    (h : ∀ a b, fits a → fits b → compare a b = some (sign a b)) : StrictTotal fits compare where
  returns a b ha hb := by
    rw [h a b ha hb]
    rfl
  eq_iff a b ha hb := by
    rw [h a b ha hb, Option.some.injEq, sign_eq_eq_iff]
  swap a b ha hb := by
    rw [h a b ha hb, h b a hb ha, Option.map_some, sign_swap]
  trans a b c ha hb hc hab hbc := by
    rw [h a b ha hb, Option.some.injEq, sign_eq_lt_iff] at hab
    rw [h b c hb hc, Option.some.injEq, sign_eq_lt_iff] at hbc
    rw [h a c ha hc, Option.some.injEq, sign_eq_lt_iff]
    exact hab.trans hbc

end ThreeWay
