import Mathlib.Data.List.Dedup
import Mathlib.Tactic.Common

/-!
# Time wheels

A wheel is a list of buckets, the oldest first.  An element is put into the newest bucket, and a turn drops the oldest
bucket for a new one.  `left a w` is after how many turns the element will be in no bucket any more; a turn takes one
off it and putting the element in again sets it to the number of buckets.
-/

namespace Wheel

variable {α : Type*} [DecidableEq α]

/-- Put into the newest bucket. -/
def put (a : α) : List (List α) → List (List α)
  | [] => []
  | [bucket] => [bucket.insert a]
  | bucket :: buckets => bucket :: put a buckets

def turn (w : List (List α)) : List (List α) := w.tail ++ [[]]

/-- What is in no bucket after a turn. -/
def expired (w : List (List α)) : List α := (w.headD []).dedup.filter fun a => ∀ bucket ∈ w.tail, a ∉ bucket

/-- The turns that are left to an element. -/
def left (a : α) : List (List α) → ℕ
  | [] => 0
  | bucket :: w => if left a w = 0 then if a ∈ bucket then 1 else 0 else left a w + 1

theorem left_eq_zero {a : α} {w : List (List α)} : left a w = 0 ↔ ∀ bucket ∈ w, a ∉ bucket := by
  induction w with
  | nil => simp [left]
  | cons bucket w ih =>
    rw [left, List.forall_mem_cons, ← ih]
    by_cases h : left a w = 0 <;> by_cases hmem : a ∈ bucket <;> simp [h, hmem]

theorem length_put (a : α) (w : List (List α)) : (put a w).length = w.length := by
  induction w with
  | nil => rfl
  | cons bucket w ih =>
    cases w with
    | nil => rfl
    | cons bucket' w =>
      rw [put, List.length_cons, ih]
      · rfl
      · simp

omit [DecidableEq α] in
theorem length_turn {w : List (List α)} (h : w ≠ []) : (turn w).length = w.length := by
  have := List.length_pos_iff.2 h
  rw [turn, List.length_append, List.length_tail, List.length_singleton]
  omega

theorem left_put_self {a : α} {w : List (List α)} (h : w ≠ []) : left a (put a w) = w.length := by
  induction w with
  | nil => exact absurd rfl h
  | cons bucket w ih =>
    cases w with
    | nil => simp [put, left]
    | cons bucket' w =>
      rw [put, left, ih (List.cons_ne_nil _ _)]
      · simp
      · simp

theorem left_put_of_ne {a b : α} (h : a ≠ b) (w : List (List α)) : left a (put b w) = left a w := by
  induction w with
  | nil => rfl
  | cons bucket w ih =>
    cases w with
    | nil => simp [put, left, h]
    | cons bucket' w =>
      rw [put, left, ih]
      · rfl
      · simp

theorem left_append_nil (a : α) (w : List (List α)) : left a (w ++ [[]]) = left a w := by
  induction w with
  | nil => simp [left]
  | cons bucket w ih => rw [List.cons_append, left, left, ih]

theorem left_turn (a : α) (w : List (List α)) : left a (turn w) = left a w - 1 := by
  rw [turn, left_append_nil]
  cases w with
  | nil => rfl
  | cons bucket w =>
    rw [List.tail_cons, left]
    split_ifs with h hmem
    · rw [h]
    · rw [h]
    · omega

/-- What expires is what has one turn left. -/
theorem mem_expired {a : α} {w : List (List α)} : a ∈ expired w ↔ left a w = 1 := by
  cases w with
  | nil => simp [expired, left]
  | cons bucket w =>
    have hzero := @left_eq_zero α _ a w
    rw [expired, List.mem_filter, List.headD_cons, List.tail_cons, List.mem_dedup, decide_eq_true_eq, ← hzero, left]
    split_ifs with h hmem <;> simp [h] <;> simp [hmem]

theorem nodup_expired (w : List (List α)) : (expired w).Nodup := (List.nodup_dedup _).filter _

end Wheel
