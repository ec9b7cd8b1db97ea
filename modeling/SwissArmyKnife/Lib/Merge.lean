import Mathlib.Data.List.Basic
import Mathlib.Data.List.Perm.Basic
import Mathlib.Data.List.TakeWhile
import Mathlib.Order.Lattice
import Mathlib.Tactic.Common

/-!
# Merging sorted runs

A merge of any number of runs that always takes the smallest head, the first among equal ones (`mergeRuns`), and the
merge of a sorted list into another one at the upper bounds of its elements (`splice`).  Both return a permutation of
what they are given, sorted by the keys when the runs are.
-/

namespace Merge

variable {α κ : Type*} [LinearOrder κ] (key : α → κ)

/-- Sorted by the keys. -/
def Sorted (l : List α) : Prop := l.Pairwise fun a b => key a ≤ key b

/-- Takes the smallest head. -/
def popSmallest : List (List α) → Option (α × List (List α))
  | [] => none
  | [] :: runs => (popSmallest runs).map fun (b, rest) => (b, [] :: rest)
  | (a :: l) :: runs =>
    match popSmallest runs with
    | none => some (a, l :: runs)
    | some (b, rest) => if key b < key a then some (b, (a :: l) :: rest) else some (a, l :: runs)

theorem popSmallest_none {runs : List (List α)} (h : popSmallest key runs = none) : runs.flatten = [] := by
  induction runs with
  | nil => rfl
  | cons run runs ih =>
    cases run with
    | nil => simpa using ih (by simpa [popSmallest] using h)
    | cons a l =>
      simp only [popSmallest] at h
      split at h
      · simp at h
      · split at h <;> simp at h

theorem popSmallest_perm {runs rest : List (List α)} {a : α} (h : popSmallest key runs = some (a, rest)) :
    runs.flatten.Perm (a :: rest.flatten) := by
  induction runs generalizing a rest with
  | nil => simp [popSmallest] at h
  | cons run runs ih =>
    cases run with
    | nil =>
      simp only [popSmallest, Option.map_eq_some_iff, Prod.mk.injEq, Prod.exists] at h
      obtain ⟨b, rest', hpop, rfl, rfl⟩ := h
      simpa using ih hpop
    | cons c l =>
      simp only [popSmallest] at h
      split at h
      · simp only [Option.some.injEq, Prod.mk.injEq] at h
        obtain ⟨rfl, rfl⟩ := h
        simp
      · rename_i b rest' hpop
        split at h
        · simp only [Option.some.injEq, Prod.mk.injEq] at h
          obtain ⟨rfl, rfl⟩ := h
          exact ((ih hpop).append_left (c :: l)).trans List.perm_middle
        · simp only [Option.some.injEq, Prod.mk.injEq] at h
          obtain ⟨rfl, rfl⟩ := h
          simp

theorem popSmallest_sorted {runs rest : List (List α)} {a : α} (h : popSmallest key runs = some (a, rest))
    (hsorted : ∀ run ∈ runs, Sorted key run) :
    (∀ run ∈ rest, Sorted key run) ∧ ∀ b ∈ runs.flatten, key a ≤ key b := by
  induction runs generalizing a rest with
  | nil => simp [popSmallest] at h
  | cons run runs ih =>
    have hruns : ∀ r ∈ runs, Sorted key r := fun r hr => hsorted r (List.mem_cons_of_mem _ hr)
    cases run with
    | nil =>
      simp only [popSmallest, Option.map_eq_some_iff, Prod.mk.injEq, Prod.exists] at h
      obtain ⟨b, rest', hpop, rfl, rfl⟩ := h
      obtain ⟨hrest, hle⟩ := ih hpop hruns
      refine ⟨fun r hr => ?_, by simpa using hle⟩
      rcases List.mem_cons.1 hr with rfl | hr
      · exact List.Pairwise.nil
      · exact hrest r hr
    | cons c l =>
      have hcl : Sorted key (c :: l) := hsorted _ (List.mem_cons_self ..)
      have hhead : ∀ b ∈ c :: l, key c ≤ key b := by
        intro b hb
        rcases List.mem_cons.1 hb with rfl | hb
        · exact le_rfl
        · exact (List.pairwise_cons.1 hcl).1 b hb
      have htail : ∀ r ∈ l :: runs, Sorted key r := by
        intro r hr
        rcases List.mem_cons.1 hr with rfl | hr
        · exact (List.pairwise_cons.1 hcl).2
        · exact hruns r hr
      simp only [popSmallest] at h
      split at h
      · rename_i hpop
        simp only [Option.some.injEq, Prod.mk.injEq] at h
        obtain ⟨rfl, rfl⟩ := h
        refine ⟨htail, fun b hb => hhead b ?_⟩
        simpa [popSmallest_none key hpop] using hb
      · rename_i b rest' hpop
        obtain ⟨hrest, hle⟩ := ih hpop hruns
        have hmem : b ∈ runs.flatten := (popSmallest_perm key hpop).mem_iff.2 (List.mem_cons_self ..)
        split at h
        · rename_i hlt
          simp only [Option.some.injEq, Prod.mk.injEq] at h
          obtain ⟨rfl, rfl⟩ := h
          refine ⟨fun r hr => ?_, fun x hx => ?_⟩
          · rcases List.mem_cons.1 hr with rfl | hr
            · exact hcl
            · exact hrest r hr
          · rw [List.flatten_cons, List.mem_append] at hx
            rcases hx with hx | hx
            · exact hlt.le.trans (hhead x hx)
            · exact hle x hx
        · rename_i hnot
          simp only [Option.some.injEq, Prod.mk.injEq] at h
          obtain ⟨rfl, rfl⟩ := h
          refine ⟨htail, fun x hx => ?_⟩
          rw [List.flatten_cons, List.mem_append] at hx
          rcases hx with hx | hx
          · exact hhead x hx
          · exact (not_lt.1 hnot).trans (hle x hx)

/-- Merges the runs. -/
def mergeRuns (runs : List (List α)) : List α :=
  match _h : popSmallest key runs with
  | none => []
  | some (a, rest) => a :: mergeRuns rest
termination_by runs.flatten.length
decreasing_by
  have := (popSmallest_perm key _h).length_eq
  simp only [List.length_cons] at this
  omega

theorem mergeRuns_perm (runs : List (List α)) : (mergeRuns key runs).Perm runs.flatten := by
  fun_induction mergeRuns key runs with
  | case1 runs hpop => rw [popSmallest_none key hpop]
  | case2 runs a rest hpop ih => exact (ih.cons a).trans (popSmallest_perm key hpop).symm

theorem mergeRuns_sorted (runs : List (List α)) (hsorted : ∀ run ∈ runs, Sorted key run) :
    Sorted key (mergeRuns key runs) := by
  fun_induction mergeRuns key runs with
  | case1 runs hpop => exact List.Pairwise.nil
  | case2 runs a rest hpop ih =>
    obtain ⟨hrest, hle⟩ := popSmallest_sorted key hpop hsorted
    refine List.pairwise_cons.2 ⟨fun b hb => hle b ?_, ih hrest⟩
    exact (popSmallest_perm key hpop).mem_iff.2 (List.mem_cons_of_mem _ ((mergeRuns_perm key rest).mem_iff.1 hb))

/-- Puts each element of the second list behind the elements of the first that it is not before. -/
def splice (before : α → α → Bool) : List α → List α → List α
  | base, [] => base
  | base, a :: added =>
    base.takeWhile (fun b => !before a b) ++ a :: splice before (base.dropWhile fun b => !before a b) added

theorem splice_nil (before : α → α → Bool) (added : List α) : splice before [] added = added := by
  induction added with
  | nil => rfl
  | cons a added ih => rw [splice, List.takeWhile_nil, List.dropWhile_nil, ih, List.nil_append]

theorem splice_perm (before : α → α → Bool) (base added : List α) :
    (splice before base added).Perm (base ++ added) := by
  fun_induction splice before base added with
  | case1 base => simp
  | case2 base a added ih =>
    refine ((ih.cons a).append_left _).trans ?_
    rw [← List.cons_append, ← List.append_assoc]
    refine (List.Perm.append_right added List.perm_middle).trans ?_
    rw [List.takeWhile_append_dropWhile]
    exact List.perm_middle.symm

/-- A merge of two sorted lists is sorted, when `before` follows the keys. -/
theorem splice_sorted {before : α → α → Bool} (hbefore : ∀ a b, before a b = true → key a ≤ key b)
    (hnot : ∀ a b, before a b = false → key b ≤ key a) {base added : List α} (hbase : Sorted key base)
    (hadded : Sorted key added) : Sorted key (splice before base added) := by
  fun_induction splice before base added with
  | case1 base => exact hbase
  | case2 base a added ih =>
    have hdrop : Sorted key (base.dropWhile fun b => !before a b) := hbase.sublist (List.dropWhile_sublist _)
    have htake : ∀ b ∈ base.takeWhile (fun b => !before a b), key b ≤ key a := fun b hb =>
      hnot a b (by simpa using List.mem_takeWhile_imp hb)
    have hkeep : ∀ b ∈ base.dropWhile (fun b => !before a b), key a ≤ key b := by
      intro b hb
      cases hd : base.dropWhile (fun b => !before a b) with
      | nil => rw [hd] at hb; simp at hb
      | cons c l =>
        have hc : before a c = true := by
          have := List.head_dropWhile_not (fun b => !before a b) (l := base) (by rw [hd]; simp)
          simpa [hd] using this
        rw [hd] at hb hdrop
        rcases List.mem_cons.1 hb with rfl | hb
        · exact hbefore a b hc
        · exact (hbefore a c hc).trans ((List.pairwise_cons.1 hdrop).1 b hb)
    have hrest : ∀ b ∈ splice before (base.dropWhile fun b => !before a b) added, key a ≤ key b := by
      intro b hb
      rcases List.mem_append.1 ((splice_perm before _ added).mem_iff.1 hb) with hb | hb
      · exact hkeep b hb
      · exact (List.pairwise_cons.1 hadded).1 b hb
    refine List.pairwise_append.2 ⟨hbase.sublist (List.takeWhile_sublist _), ?_, ?_⟩
    · exact List.pairwise_cons.2 ⟨hrest, ih hdrop (List.pairwise_cons.1 hadded).2⟩
    · intro x hx y hy
      rcases List.mem_cons.1 hy with rfl | hy
      · exact htake x hx
      · exact (htake x hx).trans (hrest y hy)

end Merge
