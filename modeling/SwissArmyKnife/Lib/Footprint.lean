import Mathlib.Data.Set.Lattice
import Mathlib.Order.CompletePartialOrder
import SwissArmyKnife.Lib.SortedMap

/-!
# Footprints

An operation on a sorted map is local to a set of keys when it writes under keys of the set only, and what it writes
and returns depends on the entries under them only.  Operations that are local to disjoint sets do not notice each
other, however they are interleaved (`second_eq`).
-/

namespace Footprint

variable {κ ν ρ : Type*} [LinearOrder κ]

def AgreeOn (F : Set κ) (m m' : SortedMap κ ν) : Prop := ∀ k ∈ F, m.get k = m'.get k

def Local (F : Set κ) (op : SortedMap κ ν → SortedMap κ ν × ρ) : Prop :=
  ∀ m, ∃ (batch : List (SortedMap.Op κ ν)) (r : ρ), (∀ o ∈ batch, o.key ∈ F) ∧
    ∀ m', AgreeOn F m m' → op m' = (m'.write batch, r)

variable {F G : Set κ} {m m' m'' : SortedMap κ ν}

theorem AgreeOn.refl (F : Set κ) (m : SortedMap κ ν) : AgreeOn F m m := fun _ _ => rfl

theorem AgreeOn.symm (h : AgreeOn F m m') : AgreeOn F m' m := fun k hk => (h k hk).symm

theorem AgreeOn.trans (h : AgreeOn F m m') (h' : AgreeOn F m' m'') : AgreeOn F m m'' :=
  fun k hk => (h k hk).trans (h' k hk)

/-- The same batch keeps maps in agreement. -/
theorem AgreeOn.write (h : AgreeOn F m m') (batch : List (SortedMap.Op κ ν)) :
    AgreeOn F (m.write batch) (m'.write batch) := by
  induction batch generalizing m m' with
  | nil => exact h
  | cons o batch ih =>
    apply ih
    intro k hk
    rw [SortedMap.get_apply, SortedMap.get_apply, h k hk]

/-- A batch for other keys is not noticed. -/
theorem agreeOn_write {batch : List (SortedMap.Op κ ν)} (h : ∀ o ∈ batch, o.key ∈ F) (hdisjoint : Disjoint F G) :
    AgreeOn G m (m.write batch) := by
  intro k hk
  rw [SortedMap.get_write_of_forall_ne]
  intro o ho heq
  exact Set.disjoint_left.1 hdisjoint (h o ho) (heq ▸ hk)

/-- A scan finds the same entries in maps that agree on the keys it goes through. -/
theorem scan_congr {lo : κ} {p : κ → Bool} (hlo : ∀ k, p k = true → lo ≤ k)
    (hgap : ∀ a b, lo ≤ a → a ≤ b → p b = true → p a = true) (hF : ∀ k, p k = true → k ∈ F) (h : AgreeOn F m m') :
    ((m.seek lo).takeWhile fun e => p e.1) = (m'.seek lo).takeWhile fun e => p e.1 := by
  rw [m.scan_eq_filter hlo hgap, m'.scan_eq_filter hlo hgap]
  apply SortedMap.eq_of_mem_iff (m.sorted.filter _) (m'.sorted.filter _)
  rintro ⟨k, v⟩
  rw [List.mem_filter, List.mem_filter]
  constructor
  · rintro ⟨hmem, hp⟩
    refine ⟨SortedMap.get_eq_some_iff.1 ?_, hp⟩
    rw [← h k (hF k hp), SortedMap.get_eq_some_iff.2 hmem]
  · rintro ⟨hmem, hp⟩
    refine ⟨SortedMap.get_eq_some_iff.1 ?_, hp⟩
    rw [h k (hF k hp), SortedMap.get_eq_some_iff.2 hmem]

namespace Local

variable {op : SortedMap κ ν → SortedMap κ ν × ρ}

theorem reply_eq (h : Local F op) (hagree : AgreeOn F m m') : (op m).2 = (op m').2 := by
  obtain ⟨batch, r, -, hop⟩ := h m
  rw [hop m (.refl F m), hop m' hagree]

theorem agreeOn (h : Local F op) (hagree : AgreeOn F m m') : AgreeOn F (op m).1 (op m').1 := by
  obtain ⟨batch, r, -, hop⟩ := h m
  rw [hop m (.refl F m), hop m' hagree]
  exact hagree.write batch

theorem frame (h : Local F op) (hdisjoint : Disjoint F G) (m : SortedMap κ ν) : AgreeOn G m (op m).1 := by
  obtain ⟨batch, r, hmem, hop⟩ := h m
  rw [hop m (.refl F m)]
  exact agreeOn_write hmem hdisjoint

end Local

/-! ### Interleaved operations -/

section Interleaved

variable {τ α β ρ' : Type*} (tick₁ : τ → α → τ) (tick₂ : τ → β → τ)
  (op₁ : τ → α → SortedMap κ ν → SortedMap κ ν × ρ) (op₂ : τ → β → SortedMap κ ν → SortedMap κ ν × ρ')

/-- What the operations of the second kind return.  Those of the first kind take their time; with `issue` they are
executed, too. -/
def second (issue : Bool) : τ → SortedMap κ ν → List (α ⊕ β) → List ρ'
  | _, _, [] => []
  | t, m, .inl a :: as => second issue (tick₁ t a) (if issue then (op₁ t a m).1 else m) as
  | t, m, .inr b :: as => (op₂ t b m).2 :: second issue (tick₂ t b) (op₂ t b m).1 as

variable {tick₁ tick₂ op₁ op₂}

theorem second_eq (h₁ : ∀ t a, Local F (op₁ t a)) (h₂ : ∀ t b, Local G (op₂ t b)) (hdisjoint : Disjoint F G)
    (t : τ) (as : List (α ⊕ β)) {m m' : SortedMap κ ν} (h : AgreeOn G m m') :
    second tick₁ tick₂ op₁ op₂ true t m as = second tick₁ tick₂ op₁ op₂ false t m' as := by
  induction as generalizing t m m' with
  | nil => rfl
  | cons x as ih =>
    cases x with
    | inl a => exact ih (tick₁ t a) (((h₁ t a).frame hdisjoint m).symm.trans h)
    | inr b =>
      rw [second, second, (h₂ t b).reply_eq h, ih (tick₂ t b) ((h₂ t b).agreeOn h)]

end Interleaved

end Footprint
