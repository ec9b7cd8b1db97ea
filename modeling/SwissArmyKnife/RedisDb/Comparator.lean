import Mathlib.Data.List.Lex
import SwissArmyKnife.RedisDb.Coding

/-!
# Byte strings in order

`BytewiseComparator` orders byte strings lexicographically by unsigned bytes.  The strings that start with a given
prefix follow it without gaps.
-/

namespace RedisDb

instance instLinearOrderUInt8 : LinearOrder UInt8 where
  le_refl := UInt8.le_refl
  le_trans _ _ _ := UInt8.le_trans
  le_antisymm _ _ := UInt8.le_antisymm
  le_total := UInt8.le_total
  lt_iff_le_not_ge a b := by
    rw [UInt8.lt_iff_toNat_lt, UInt8.le_iff_toNat_le, UInt8.le_iff_toNat_le]
    omega
  toDecidableLE := inferInstance
  toDecidableLT := inferInstance
  toDecidableEq := inferInstance
  min_def := UInt8.min_def
  max_def := UInt8.max_def
  compare_eq_compareOfLessAndEq _ _ := by
    exact Std.LawfulLTCmp.eq_compareOfLessAndEq ..

def StartsWith (x y : Slice) : Bool := y.isPrefixOf x

theorem startsWith_iff {x y : Slice} : StartsWith x y = true ↔ ∃ data, x = y ++ data := by
  rw [StartsWith, List.isPrefixOf_iff_prefix]
  exact ⟨fun ⟨data, h⟩ => ⟨data, h.symm⟩, fun ⟨data, h⟩ => ⟨data, h.symm⟩⟩

theorem startsWith_append (x y : Slice) : StartsWith (x ++ y) x = true := startsWith_iff.2 ⟨y, rfl⟩

private theorem cons_lt_cons {a b : UInt8} {x y : Slice} : a :: x < b :: y ↔ a < b ∨ a = b ∧ x < y :=
  List.cons_lt_cons_iff

theorem append_lt_append_iff {p x y : Slice} : p ++ x < p ++ y ↔ x < y := by
  induction p with
  | nil => rfl
  | cons a p ih => simp [ih]

theorem le_append (x y : Slice) : x ≤ x ++ y := by
  induction x with
  | nil =>
    apply not_lt.1
    exact List.not_lt_nil _
  | cons a x ih =>
    apply not_lt.1
    rw [List.cons_append, cons_lt_cons]
    rintro (h | ⟨-, h⟩)
    · exact h.false
    · exact not_lt.2 ih h

/-- A prefix is not greater. -/
theorem le_of_startsWith {x y : Slice} (h : StartsWith x y = true) : y ≤ x := by
  obtain ⟨data, rfl⟩ := startsWith_iff.1 h
  exact le_append y data

/-- What lies between a prefix and a string that starts with it starts with it as well. -/
theorem startsWith_of_le {p x y : Slice} (hp : p ≤ x) (hxy : x ≤ y) (hy : StartsWith y p = true) :
    StartsWith x p = true := by
  obtain ⟨data, rfl⟩ := startsWith_iff.1 hy
  rw [startsWith_iff]
  induction p generalizing x with
  | nil => exact ⟨x, rfl⟩
  | cons a p ih =>
    cases x with
    | nil => exact absurd (List.nil_lt_cons a p) (not_lt.2 hp)
    | cons b x =>
      have hab := mt cons_lt_cons.2 (not_lt.2 hp)
      have hba := mt cons_lt_cons.2 (not_lt.2 hxy)
      simp only [not_or, not_and, not_lt] at hab hba
      have heq : a = b := le_antisymm hab.1 hba.1
      subst heq
      obtain ⟨data', rfl⟩ := ih (hab.2 rfl) (hba.2 rfl) (startsWith_append p data)
      exact ⟨data', rfl⟩

end RedisDb
