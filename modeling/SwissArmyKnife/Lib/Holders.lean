import Mathlib.Data.Finset.Max
import Mathlib.Data.List.Nodup
import Mathlib.Logic.Function.Basic
import SwissArmyKnife.Lib.Transition

/-!
# Holders of locks

Each of a number of holders takes locks in a fixed order, one at a time and waiting where a lock is taken, and then
gives locks back.  A deadlock is a set of holders of which each waits for a member of the set.  When every holder
gives back what it took, one can be reached exactly when the holders are `Entangled`, which is about the orders alone
(`safe_iff`).
-/

namespace Holders

open Transition

structure Holder (ℓ : Type*) where
  acquire : List ℓ
  release : List ℓ

/-- `pos` is the number of steps that a holder has made. -/
structure State (ℓ : Type*) where
  owner : ℓ → Option ℕ
  pos : ℕ → ℕ

variable {ℓ : Type*} [DecidableEq ℓ]

def init : State ℓ := ⟨fun _ => none, fun _ => 0⟩

/-- A holder goes on.  It cannot while another one, or itself, has the lock that it needs; giving back a lock that it
does not have is an error. -/
def step (holders : List (Holder ℓ)) (s : State ℓ) (i : ℕ) : Outcome (State ℓ) :=
  match holders[i]? with
  | none => .disabled
  | some h =>
    match h.acquire[s.pos i]? with
    | some l =>
      if s.owner l = none then .next ⟨Function.update s.owner l (some i), Function.update s.pos i (s.pos i + 1)⟩
      else .disabled
    | none =>
      match h.release[s.pos i - h.acquire.length]? with
      | some l =>
        if s.owner l = some i then .next ⟨Function.update s.owner l none, Function.update s.pos i (s.pos i + 1)⟩
        else .aborted
      | none => .disabled

/-- The locks that a holder takes. -/
def acquireOf (holders : List (Holder ℓ)) (i : ℕ) : List ℓ := (holders[i]?.map Holder.acquire).getD []

/-- The holder `i` needs a lock that `j` has. -/
def Waits (holders : List (Holder ℓ)) (s : State ℓ) (i j : ℕ) : Prop :=
  ∃ l, (acquireOf holders i)[s.pos i]? = some l ∧ s.owner l = some j

def Deadlock (holders : List (Holder ℓ)) (s : State ℓ) : Prop :=
  ∃ S : Finset ℕ, S.Nonempty ∧ ∀ i ∈ S, ∃ j ∈ S, Waits holders s i j

/-- No run ends in an error or in a deadlock. -/
def Safe (holders : List (Holder ℓ)) : Prop :=
  ∀ as, run (step holders) init as ≠ .aborted ∧
    ∀ s, run (step holders) init as = .next s → ¬ Deadlock holders s

/-- Some holders can take a part of their locks each, all of them different, such that the next lock of each is one
that a member of the group then has. -/
def Entangled (holders : List (Holder ℓ)) : Prop :=
  ∃ (S : Finset ℕ) (p : ℕ → ℕ), S.Nonempty ∧
    (∀ i ∈ S, ((acquireOf holders i).take (p i)).Nodup) ∧
    (∀ i ∈ S, ∀ j ∈ S, i ≠ j → ∀ l ∈ (acquireOf holders i).take (p i), l ∉ (acquireOf holders j).take (p j)) ∧
    ∀ i ∈ S, ∃ l, (acquireOf holders i)[p i]? = some l ∧ ∃ j ∈ S, l ∈ (acquireOf holders j).take (p j)

variable {holders : List (Holder ℓ)} {s : State ℓ}

/-! ### What a step does -/

theorem step_eq_next {s' : State ℓ} {i : ℕ} (h : step holders s i = .next s') : ∃ a, holders[i]? = some a ∧
    ((∃ l, a.acquire[s.pos i]? = some l ∧ s.owner l = none ∧
      s' = ⟨Function.update s.owner l (some i), Function.update s.pos i (s.pos i + 1)⟩) ∨
    ∃ l, a.acquire.length ≤ s.pos i ∧ a.release[s.pos i - a.acquire.length]? = some l ∧ s.owner l = some i ∧
      s' = ⟨Function.update s.owner l none, Function.update s.pos i (s.pos i + 1)⟩) := by
  unfold step at h
  cases ha : holders[i]? with
  | none => simp [ha] at h
  | some a =>
    refine ⟨a, rfl, ?_⟩
    simp only [ha] at h
    cases hl : a.acquire[s.pos i]? with
    | some l =>
      simp only [hl] at h
      split at h
      · rename_i hfree
        exact Or.inl ⟨l, rfl, hfree, (Outcome.next.inj h).symm⟩
      · cases h
    | none =>
      simp only [hl] at h
      cases hr : a.release[s.pos i - a.acquire.length]? with
      | none => simp [hr] at h
      | some l =>
        simp only [hr] at h
        split at h
        · rename_i howner
          exact Or.inr ⟨l, List.getElem?_eq_none_iff.1 hl, rfl, howner, (Outcome.next.inj h).symm⟩
        · cases h

theorem step_eq_aborted {i : ℕ} (h : step holders s i = .aborted) : ∃ a l, holders[i]? = some a ∧
    a.acquire.length ≤ s.pos i ∧ a.release[s.pos i - a.acquire.length]? = some l ∧ s.owner l ≠ some i := by
  unfold step at h
  cases ha : holders[i]? with
  | none => simp [ha] at h
  | some a =>
    simp only [ha] at h
    cases hl : a.acquire[s.pos i]? with
    | some l =>
      simp only [hl] at h
      split at h <;> cases h
    | none =>
      simp only [hl] at h
      cases hr : a.release[s.pos i - a.acquire.length]? with
      | none => simp [hr] at h
      | some l =>
        simp only [hr] at h
        split at h
        · cases h
        · rename_i howner
          exact ⟨a, l, rfl, List.getElem?_eq_none_iff.1 hl, hr, howner⟩

/-! ### What each holder has -/

/-- The locks that a holder has after a number of steps. -/
def held (a : Holder ℓ) (n : ℕ) : List ℓ :=
  if n ≤ a.acquire.length then a.acquire.take n else a.release.drop (n - a.acquire.length)

/-- A holder that takes different locks and gives back the same ones. -/
structure Balanced (a : Holder ℓ) : Prop where
  nodup : a.acquire.Nodup
  perm : a.release.Perm a.acquire

omit [DecidableEq ℓ] in
theorem Balanced.mem_drop {a : Holder ℓ} (ha : Balanced a) {n : ℕ} (h : a.acquire.length ≤ n) {l : ℓ} :
    l ∈ held a n ↔ l ∈ a.release.drop (n - a.acquire.length) := by
  unfold held
  split
  · have heq : n = a.acquire.length := by omega
    rw [heq, List.take_length, Nat.sub_self, List.drop_zero, ha.perm.mem_iff]
  · rfl

omit [DecidableEq ℓ] in
theorem held_of_acquire {a : Holder ℓ} {n : ℕ} {l : ℓ} (h : a.acquire[n]? = some l) :
    held a n = a.acquire.take n ∧ held a (n + 1) = a.acquire.take n ++ [l] := by
  obtain ⟨hn, hl⟩ := List.getElem?_eq_some_iff.1 h
  constructor
  · rw [held, if_pos (by omega)]
  · rw [held, if_pos (by omega), List.take_add_one, h]
    rfl

/-- A lock has an owner exactly when it is among what that holder has. -/
def Consistent (holders : List (Holder ℓ)) (s : State ℓ) : Prop :=
  ∀ l i, s.owner l = some i ↔ ∃ a, holders[i]? = some a ∧ l ∈ held a (s.pos i)

omit [DecidableEq ℓ] in
theorem consistent_init (holders : List (Holder ℓ)) : Consistent holders init := by
  intro l i
  simp [init, held]

theorem Consistent.step (hbalanced : ∀ a ∈ holders, Balanced a) (hs : Consistent holders s) {i : ℕ} {s' : State ℓ}
    (h : Holders.step holders s i = .next s') : Consistent holders s' := by
  obtain ⟨a, ha, ⟨l, hl, hfree, rfl⟩ | ⟨l, hlen, hl, howner, rfl⟩⟩ := step_eq_next h
  · obtain ⟨hheld, hheld'⟩ := held_of_acquire hl
    intro k j
    dsimp only
    by_cases hk : k = l
    · subst hk
      simp only [Function.update_self, Option.some.injEq]
      constructor
      · rintro rfl
        exact ⟨a, ha, by rw [Function.update_self, hheld']; simp⟩
      · rintro ⟨b, hb, hmem⟩
        by_contra hij
        rw [Function.update_of_ne (Ne.symm hij)] at hmem
        have := (hs k j).2 ⟨b, hb, hmem⟩
        rw [hfree] at this
        cases this
    · rw [Function.update_of_ne hk, hs k j]
      by_cases hij : j = i
      · subst hij
        rw [Function.update_self]
        simp only [ha, Option.some.injEq, exists_eq_left', hheld, hheld']
        simp [hk]
      · rw [Function.update_of_ne hij]
  · have hbal := hbalanced a (List.mem_of_getElem? ha)
    have hdrop : a.release.drop (s.pos i - a.acquire.length) =
        l :: a.release.drop (s.pos i + 1 - a.acquire.length) := by
      obtain ⟨hlt, hget⟩ := List.getElem?_eq_some_iff.1 hl
      rw [List.drop_eq_getElem_cons hlt, hget, show s.pos i + 1 - a.acquire.length =
        s.pos i - a.acquire.length + 1 by omega]
    have hnodup : (l :: a.release.drop (s.pos i + 1 - a.acquire.length)).Nodup :=
      hdrop ▸ (hbal.perm.nodup_iff.2 hbal.nodup).sublist (List.drop_sublist ..)
    intro k j
    dsimp only
    by_cases hij : j = i
    · subst hij
      simp only [Function.update_self, ha, Option.some.injEq, exists_eq_left',
        hbal.mem_drop (show a.acquire.length ≤ s.pos j + 1 by omega)]
      by_cases hk : k = l
      · subst hk
        simpa using (List.nodup_cons.1 hnodup).1
      · rw [Function.update_of_ne hk, hs k j]
        simp only [ha, Option.some.injEq, exists_eq_left', hbal.mem_drop hlen, hdrop, List.mem_cons, hk, false_or]
    · rw [Function.update_of_ne hij, ← hs k j]
      by_cases hk : k = l
      · subst hk
        simp [howner, Ne.symm hij]
      · rw [Function.update_of_ne hk]

theorem Consistent.not_aborted (hbalanced : ∀ a ∈ holders, Balanced a) (hs : Consistent holders s) (i : ℕ) :
    Holders.step holders s i ≠ .aborted := by
  intro h
  obtain ⟨a, l, ha, hlen, hl, howner⟩ := step_eq_aborted h
  apply howner
  rw [hs l i]
  refine ⟨a, ha, ((hbalanced a (List.mem_of_getElem? ha)).mem_drop hlen).2 ?_⟩
  obtain ⟨hlt, hget⟩ := List.getElem?_eq_some_iff.1 hl
  rw [List.drop_eq_getElem_cons hlt, hget]
  exact List.mem_cons_self ..

/-! ### Deadlocks -/

omit [DecidableEq ℓ] in
theorem acquireOf_of_getElem? {i : ℕ} {a : Holder ℓ} (h : holders[i]? = some a) :
    acquireOf holders i = a.acquire := by
  simp [acquireOf, h]

omit [DecidableEq ℓ] in
theorem exists_of_acquireOf {i n : ℕ} {l : ℓ} (h : (acquireOf holders i)[n]? = some l) :
    ∃ a, holders[i]? = some a ∧ a.acquire[n]? = some l := by
  cases ha : holders[i]? with
  | none => simp [acquireOf, ha] at h
  | some a => exact ⟨a, rfl, by rwa [acquireOf_of_getElem? ha] at h⟩

omit [DecidableEq ℓ] in
theorem Consistent.entangled (hbalanced : ∀ a ∈ holders, Balanced a) (hs : Consistent holders s)
    (hdead : Deadlock holders s) : Entangled holders := by
  obtain ⟨S, hne, hwait⟩ := hdead
  -- A holder that waits has not given anything back, so it has just what it took.
  have hheld : ∀ i ∈ S, ∀ l, l ∈ (acquireOf holders i).take (s.pos i) ↔ s.owner l = some i := by
    intro i hi l
    obtain ⟨j, -, k, hk, -⟩ := hwait i hi
    obtain ⟨a, ha, hget⟩ := exists_of_acquireOf hk
    rw [hs l i, acquireOf_of_getElem? ha]
    simp [ha, (held_of_acquire hget).1]
  refine ⟨S, s.pos, hne, ?_, ?_, ?_⟩
  · intro i hi
    obtain ⟨j, -, k, hk, -⟩ := hwait i hi
    obtain ⟨a, ha, -⟩ := exists_of_acquireOf hk
    rw [acquireOf_of_getElem? ha]
    exact (hbalanced a (List.mem_of_getElem? ha)).nodup.sublist (List.take_sublist ..)
  · intro i hi j hj hij l hli hlj
    have howner := (hheld i hi l).1 hli
    rw [(hheld j hj l).1 hlj, Option.some_inj] at howner
    exact hij howner.symm
  · intro i hi
    obtain ⟨j, hj, l, hl, howner⟩ := hwait i hi
    exact ⟨l, hl, j, hj, (hheld j hj l).2 howner⟩

/-- A holder that takes the first locks of its list, which are free. -/
theorem run_acquire {i : ℕ} (n : ℕ) (hn : n ≤ (acquireOf holders i).length)
    (hnodup : ((acquireOf holders i).take n).Nodup)
    (hpos : s.pos i = 0) (hfree : ∀ l ∈ (acquireOf holders i).take n, s.owner l = none) :
    ∃ s', run (step holders) s (List.replicate n i) = .next s' ∧
      s'.pos = Function.update s.pos i n ∧
      ∀ l, s'.owner l = if l ∈ (acquireOf holders i).take n then some i else s.owner l := by
  induction n with
  | zero => exact ⟨s, rfl, by rw [← hpos, Function.update_eq_self], by simp⟩
  | succ n ih =>
    have hget : (acquireOf holders i)[n]? = some (acquireOf holders i)[n] := List.getElem?_eq_getElem hn
    generalize (acquireOf holders i)[n] = k at hget
    have htake : (acquireOf holders i).take (n + 1) = (acquireOf holders i).take n ++ [k] := by
      rw [List.take_add_one, hget]
      rfl
    rw [htake] at hnodup hfree ⊢
    obtain ⟨hnodup, -, hnew⟩ := List.nodup_append.1 hnodup
    obtain ⟨s', hrun, hpos', howner⟩ := ih (by omega) hnodup fun l hl => hfree l (List.mem_append_left _ hl)
    obtain ⟨a, ha, hacq⟩ := exists_of_acquireOf hget
    have hlast : s'.owner k = none := by
      rw [howner, if_neg fun hmem => hnew _ hmem _ (List.mem_singleton_self _) rfl]
      exact hfree _ (List.mem_append_right _ (List.mem_singleton_self _))
    refine ⟨⟨Function.update s'.owner k (some i), Function.update s'.pos i (n + 1)⟩, ?_, ?_, ?_⟩
    · have hi : s'.pos i = n := by rw [hpos', Function.update_self]
      rw [List.replicate_succ', run_append, hrun]
      simp only [Outcome.bind, run, step, ha, hi, hacq, hlast, if_true]
    · simp only [hpos', Function.update_idem]
    · intro l
      by_cases hl : l = k
      · simp [hl]
      · simp only [Function.update_of_ne hl, howner, List.mem_append, List.mem_singleton, hl, or_false]

/-- Holders that are entangled can come to a deadlock: each takes its part of the locks in turn. -/
theorem exists_deadlock (h : Entangled holders) :
    ∃ as s, run (step holders) init as = .next s ∧ Deadlock holders s := by
  obtain ⟨S, p, hne, hnodup, hdisjoint, hnext⟩ := h
  have hlen : ∀ i ∈ S, p i ≤ (acquireOf holders i).length := by
    intro i hi
    obtain ⟨l, hl, -⟩ := hnext i hi
    exact (List.getElem?_eq_some_iff.1 hl).1.le
  have hreach : ∀ T ⊆ S, ∃ as s, run (step holders) init as = .next s ∧ (∀ i ∉ T, s.pos i = 0) ∧
      (∀ i ∈ T, s.pos i = p i) ∧
      (∀ i ∈ T, ∀ l ∈ (acquireOf holders i).take (p i), s.owner l = some i) ∧
      ∀ l, (∀ i ∈ T, l ∉ (acquireOf holders i).take (p i)) → s.owner l = none := by
    intro T
    induction T using Finset.induction_on with
    | empty => exact fun _ => ⟨[], init, rfl, by simp [init], by simp, by simp, by simp [init]⟩
    | insert i T hi ih =>
      intro hT
      rw [Finset.insert_subset_iff] at hT
      obtain ⟨as, s, hrun, hzero, hpos, howner, hfree⟩ := ih hT.2
      have hnot : ∀ l ∈ (acquireOf holders i).take (p i), ∀ j ∈ T, l ∉ (acquireOf holders j).take (p j) := by
        intro l hl j hj
        have hij : i ≠ j := fun heq => hi (heq ▸ hj)
        exact hdisjoint i hT.1 j (hT.2 hj) hij l hl
      obtain ⟨s', hrun', hpos', howner'⟩ := run_acquire (p i) (hlen i hT.1) (hnodup i hT.1) (hzero i hi)
        fun l hl => hfree l (hnot l hl)
      refine ⟨as ++ List.replicate (p i) i, s', ?_, ?_, ?_, ?_, ?_⟩
      · rw [run_append, hrun]
        exact hrun'
      · intro j hj
        rw [Finset.mem_insert, not_or] at hj
        rw [hpos', Function.update_of_ne hj.1]
        exact hzero j hj.2
      · intro j hj
        rcases Finset.mem_insert.1 hj with rfl | hj
        · rw [hpos', Function.update_self]
        · have hji : j ≠ i := fun heq => hi (heq ▸ hj)
          rw [hpos', Function.update_of_ne hji]
          exact hpos j hj
      · intro j hj l hl
        rcases Finset.mem_insert.1 hj with rfl | hj
        · rw [howner', if_pos hl]
        · rw [howner', if_neg fun hmem => hnot l hmem j hj hl]
          exact howner j hj l hl
      · intro l hl
        rw [howner', if_neg (hl i (Finset.mem_insert_self i T))]
        exact hfree l fun j hj => hl j (Finset.mem_insert_of_mem hj)
  obtain ⟨as, s, hrun, -, hpos, howner, -⟩ := hreach S (Finset.Subset.refl S)
  refine ⟨as, s, hrun, S, hne, ?_⟩
  intro i hi
  obtain ⟨l, hl, j, hj, hmem⟩ := hnext i hi
  exact ⟨j, hj, l, by rw [hpos i hi, hl], howner j hj l hmem⟩

omit [DecidableEq ℓ] in
/-- A holder that takes a lock twice is entangled with itself. -/
theorem nodup_of_not_entangled (h : ¬ Entangled holders) : ∀ a ∈ holders, a.acquire.Nodup := by
  intro a ha
  obtain ⟨i, hi⟩ := List.mem_iff_getElem?.1 ha
  have hacq := acquireOf_of_getElem? hi
  have hprefix : ∀ n ≤ a.acquire.length, (a.acquire.take n).Nodup := by
    intro n
    induction n with
    | zero => simp
    | succ n ih =>
      intro hn
      have hget : a.acquire[n]? = some a.acquire[n] := List.getElem?_eq_getElem hn
      have hnodup := ih (by omega)
      rw [List.take_add_one, hget, Option.toList_some, List.nodup_append]
      refine ⟨hnodup, List.nodup_singleton _, ?_⟩
      rintro l hl k hk rfl
      rw [List.mem_singleton] at hk
      subst hk
      refine h ⟨{i}, fun _ => n, Finset.singleton_nonempty i, ?_, ?_, ?_⟩
      · intro j hj
        rw [Finset.mem_singleton.1 hj, hacq]
        exact hnodup
      · intro j hj k hk hjk
        exact absurd ((Finset.mem_singleton.1 hj).trans (Finset.mem_singleton.1 hk).symm) hjk
      · intro j hj
        rw [Finset.mem_singleton.1 hj, hacq]
        exact ⟨_, hget, i, Finset.mem_singleton_self i, by rw [hacq]; exact hl⟩
  simpa using hprefix a.acquire.length le_rfl

theorem safe_iff (hperm : ∀ a ∈ holders, a.release.Perm a.acquire) : Safe holders ↔ ¬ Entangled holders := by
  constructor
  · intro hsafe hentangled
    obtain ⟨as, s, hrun, hdead⟩ := exists_deadlock hentangled
    exact (hsafe as).2 s hrun hdead
  · intro hnot as
    have hbalanced : ∀ a ∈ holders, Balanced a := fun a ha => ⟨nodup_of_not_entangled hnot a ha, hperm a ha⟩
    let Inv (_ : List ℕ) (s : State ℓ) : Prop := Consistent holders s
    have hinit : Inv [] init := consistent_init holders
    have hstep : ∀ as s i s', Inv as s → True → step holders s i = .next s' → Inv (as ++ [i]) s' :=
      fun _ s i s' hs _ h => Consistent.step hbalanced hs h
    constructor
    · exact run_safe hinit hstep (fun _ s i hs _ => Consistent.not_aborted hbalanced hs i) (meets_true _ _)
    · intro s hrun hdead
      have hs : Inv as s := run_invariant hinit hstep (meets_true _ _) hrun
      exact hnot (Consistent.entangled hbalanced hs hdead)

end Holders
