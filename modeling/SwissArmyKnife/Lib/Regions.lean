import Mathlib.Algebra.BigOperators.Group.Finset.Basic
import Mathlib.Algebra.Ring.Nat
import Mathlib.Order.Interval.Finset.Nat
import Mathlib.Tactic.Common

/-!
# Regions of memory

A region is given by its first address and its size.  Regions are apart when one of them ends before the other begins.
The sizes of regions that are apart add up to no more than the space they lie in.
-/

structure Region where
  base : ℕ
  size : ℕ
deriving DecidableEq, Repr

namespace Region

variable {r s t : Region}

/-- The address after the last one. -/
def stop (r : Region) : ℕ := r.base + r.size

def cells (r : Region) : Finset ℕ := Finset.Ico r.base r.stop

def Apart (r s : Region) : Prop := r.stop ≤ s.base ∨ s.stop ≤ r.base

def Within (r s : Region) : Prop := s.base ≤ r.base ∧ r.stop ≤ s.stop

instance : Decidable (Apart r s) := inferInstanceAs (Decidable (_ ∨ _))

theorem Within.refl (r : Region) : r.Within r := ⟨le_rfl, le_rfl⟩

theorem Apart.symm (h : r.Apart s) : s.Apart r := Or.symm h

theorem Apart.mono (h : r.Apart s) (hwithin : t.Within s) : r.Apart t := by
  obtain ⟨hbase, hstop⟩ := hwithin
  unfold Apart at *
  omega

/-- A region that is not empty is not apart from itself. -/
theorem Apart.ne (h : r.Apart s) (hsize : 0 < r.size) : r ≠ s := by
  rintro rfl
  unfold Apart stop at h
  omega

theorem Apart.disjoint (h : r.Apart s) : Disjoint r.cells s.cells := by
  rw [Finset.disjoint_left]
  intro x hr hs
  rw [cells, Finset.mem_Ico] at hr hs
  unfold Apart at h
  omega

/-- The addresses of all the regions. -/
def cover (l : List Region) : Finset ℕ := l.foldr (fun r acc => r.cells ∪ acc) ∅

theorem mem_cover {l : List Region} {x : ℕ} : x ∈ cover l ↔ ∃ r ∈ l, x ∈ r.cells := by
  induction l with
  | nil => simp [cover]
  | cons r l ih =>
    have hcover : cover (r :: l) = r.cells ∪ cover l := rfl
    rw [hcover, Finset.mem_union, ih]
    simp

theorem card_cover {l : List Region} (h : l.Pairwise Apart) : (cover l).card = (l.map size).sum := by
  induction l with
  | nil => rfl
  | cons r l ih =>
    obtain ⟨hr, hl⟩ := List.pairwise_cons.1 h
    have hdisjoint : Disjoint r.cells (cover l) := by
      rw [Finset.disjoint_left]
      intro x hx hmem
      obtain ⟨s, hs, hxs⟩ := mem_cover.1 hmem
      exact Finset.disjoint_left.1 (hr s hs).disjoint hx hxs
    have hcover : cover (r :: l) = r.cells ∪ cover l := rfl
    rw [hcover, Finset.card_union_of_disjoint hdisjoint, ih hl, List.map_cons, List.sum_cons]
    simp [cells, stop]

theorem sum_size_le {l : List Region} (h : l.Pairwise Apart) {space : ℕ} (hspace : ∀ r ∈ l, r.stop ≤ space) :
    (l.map size).sum ≤ space := by
  rw [← card_cover h, ← Finset.card_range space]
  apply Finset.card_le_card
  intro x hx
  obtain ⟨r, hr, hxr⟩ := mem_cover.1 hx
  rw [cells, Finset.mem_Ico] at hxr
  have := hspace r hr
  exact Finset.mem_range.2 (by omega)

end Region
