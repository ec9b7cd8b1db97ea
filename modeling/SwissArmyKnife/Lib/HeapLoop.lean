import Mathlib.Data.List.MinMax
import Mathlib.Data.List.Pairwise
import Mathlib.Data.List.Perm.Basic
import Mathlib.Logic.Relation
import Mathlib.Order.Basic
import Mathlib.Tactic.Common

/-!
# A loop over a heap of sources

Sources that each give one element after another are kept in a heap.  A round takes a source that is not less than
another one, does something with it, and puts it back if it has a next element.  The rounds come to an end, and they
have then gone through everything that could be read (`popped_of_opened`), in order if each source was in order.
-/

/-- A kind of sources: what they are compared by, and the source after the next element has been read, which then has
less to read. -/
structure Sources (σ κ : Type*) where
  key : σ → κ
  next : σ → Option σ
  size : σ → ℕ
  size_next : ∀ {source source'}, next source = some source' → size source' < size source

namespace Sources

open Relation

variable {σ κ β : Type*} (S : Sources σ κ)

/-- The source after each element that it can still read. -/
def reads (source : σ) : List σ :=
  match _h : S.next source with
  | none => []
  | some source' => source' :: reads source'
termination_by S.size source
decreasing_by exact S.size_next _h

/-- The source now, and after each element that it can still read. -/
def states (source : σ) : List σ := source :: S.reads source

/-- All that is to be taken from the heap. -/
def left (keys : List σ) : List σ := keys.flatMap S.states

variable {S} {source source' : σ} {keys : List σ}

theorem reads_of_none (h : S.next source = none) : S.reads source = [] := by
  rw [reads]
  split
  · rfl
  · rename_i heq
    rw [h] at heq
    cases heq

theorem reads_of_some (h : S.next source = some source') : S.reads source = S.states source' := by
  rw [reads]
  split
  · rename_i heq
    rw [h] at heq
    cases heq
  · rename_i heq
    rw [h] at heq
    cases heq
    rfl

variable (S) in
/-- The sources that have a first element, once it has been read. -/
def opened (sources : List σ) : List σ := sources.filterMap S.next

theorem left_opened (sources : List σ) : S.left (S.opened sources) = sources.flatMap S.reads := by
  induction sources with
  | nil => rfl
  | cons source sources ih =>
    rw [left, opened] at ih
    rw [left, opened, List.filterMap_cons, List.flatMap_cons]
    cases hnext : S.next source with
    | none => rw [reads_of_none hnext, List.nil_append, ih]
    | some source' => rw [reads_of_some hnext, List.flatMap_cons, ih]

theorem states_eq_of_mem_opened {sources : List σ} (h : source' ∈ S.opened sources) :
    ∃ source ∈ sources, S.states source' = S.reads source := by
  obtain ⟨source, hsource, hnext⟩ := List.mem_filterMap.1 h
  exact ⟨source, hsource, (reads_of_some hnext).symm⟩

/-! ### Rounds -/

variable [LinearOrder κ]

variable (S) in
/-- One round, from and to the heap and what the body has made so far. -/
inductive Round (step : β → σ → β) : List σ × β → List σ × β → Prop where
  | next {keys rest : List σ} {back back' : σ} {b : β} (hpop : keys.Perm (back :: rest))
      (hmax : ∀ source ∈ rest, ¬S.key back < S.key source) (hnext : S.next back = some back') :
      Round step (keys, b) (back' :: rest, step b back)
  | last {keys rest : List σ} {back : σ} {b : β} (hpop : keys.Perm (back :: rest))
      (hmax : ∀ source ∈ rest, ¬S.key back < S.key source) (hnext : S.next back = none) :
      Round step (keys, b) (rest, step b back)

section Rounds

variable {step : β → σ → β}

/-- What was left is the source that the round takes and what is left then. -/
theorem Round.takes {s s' : List σ × β} (h : S.Round step s s') :
    ∃ back, (S.left s.1).Perm (back :: S.left s'.1) ∧ (∀ source ∈ s.1, S.key source ≤ S.key back) ∧
      back ∈ s.1 ∧ s'.2 = step s.2 back := by
  have htop {keys rest : List σ} {back : σ} (hpop : keys.Perm (back :: rest))
      (hmax : ∀ source ∈ rest, ¬S.key back < S.key source) : ∀ source ∈ keys, S.key source ≤ S.key back := by
    intro source hsource
    rcases List.mem_cons.1 (hpop.subset hsource) with rfl | hrest
    · exact le_rfl
    · exact not_lt.1 (hmax source hrest)
  cases h with
  | @next keys rest back back' b hpop hmax hnext =>
    refine ⟨back, ?_, htop hpop hmax, hpop.symm.subset (List.mem_cons_self ..), rfl⟩
    have hleft : S.left (back :: rest) = back :: S.left (back' :: rest) := by
      rw [left, List.flatMap_cons, states, reads_of_some hnext]
      rfl
    rw [← hleft]
    exact hpop.flatMap_right _
  | @last keys rest back b hpop hmax hnext =>
    refine ⟨back, ?_, htop hpop hmax, hpop.symm.subset (List.mem_cons_self ..), rfl⟩
    have hleft : S.left (back :: rest) = back :: S.left rest := by
      rw [left, List.flatMap_cons, states, reads_of_none hnext]
      rfl
    rw [← hleft]
    exact hpop.flatMap_right _

variable (S step) in
/-- The rounds come to an end. -/
theorem acc_round (s : List σ × β) : Acc (fun s' s => S.Round step s s') s := by
  have hless {s s' : List σ × β} (h : S.Round step s s') : (S.left s'.1).length < (S.left s.1).length := by
    obtain ⟨back, hperm, -⟩ := h.takes
    rw [hperm.length_eq]
    exact Nat.lt_succ_self _
  exact Subrelation.accessible hless ((measure fun s : List σ × β => (S.left s.1).length).wf.apply s)

variable (S) in
/-- There is a source that is not less than another one. -/
theorem exists_top (hkeys : keys ≠ []) :
    ∃ back rest, keys.Perm (back :: rest) ∧ ∀ source ∈ rest, ¬S.key back < S.key source := by
  cases hargmax : keys.argmax S.key with
  | none => exact absurd (List.argmax_eq_none.1 hargmax) hkeys
  | some back =>
    obtain ⟨before, after, rfl⟩ := List.append_of_mem (List.argmax_mem hargmax)
    refine ⟨back, before ++ after, List.perm_middle, ?_⟩
    intro source hsource
    have hmem : source ∈ before ++ back :: after := List.perm_middle.symm.subset (List.mem_cons_of_mem _ hsource)
    exact not_lt.2 (List.le_of_mem_argmax hmem hargmax)

variable (S step) in
theorem exists_round (hkeys : keys ≠ []) (b : β) : ∃ s', S.Round step (keys, b) s' := by
  obtain ⟨back, rest, hpop, hmax⟩ := exists_top S hkeys
  cases hnext : S.next back with
  | none => exact ⟨_, .last hpop hmax hnext⟩
  | some back' => exact ⟨_, .next hpop hmax hnext⟩

variable (S) in
/-- The rounds come to an end, and only when the heap is empty. -/
def Terminates (step : β → σ → β) : Prop :=
  (∀ s, Acc (fun s' s => S.Round step s s') s) ∧ ∀ keys b, keys ≠ [] → ∃ s', S.Round step (keys, b) s'

variable (S step) in
theorem terminates : S.Terminates step := ⟨acc_round S step, fun _ b hkeys => exists_round S step hkeys b⟩

variable (S) in
/-- A run until the heap is empty. -/
def Run (step : β → σ → β) (keys : List σ) (b b' : β) : Prop := ReflTransGen (S.Round step) (keys, b) ([], b')

variable (S step) in
theorem exists_run (keys : List σ) (b : β) : ∃ b', S.Run step keys b b' := by
  have hends : ∀ s : List σ × β, ∃ b', ReflTransGen (S.Round step) s ([], b') := by
    intro s
    induction acc_round S step s with
    | intro s _ ih =>
      obtain ⟨keys, b⟩ := s
      by_cases hkeys : keys = []
      · exact ⟨b, by rw [hkeys]⟩
      · obtain ⟨s', hround⟩ := exists_round S step hkeys b
        obtain ⟨b', hrest⟩ := ih s' hround
        exact ⟨b', .head hround hrest⟩
  exact hends (keys, b)

variable (S) in
/-- What a source gives comes in descending order. -/
def Descending (l : List σ) : Prop := l.Pairwise fun source source' => S.key source' ≤ S.key source

theorem descending_states_of_next (h : S.Descending (S.states source)) (hnext : S.next source = some source') :
    S.Descending (S.states source') := by
  rw [states, reads_of_some hnext] at h
  exact (List.pairwise_cons.1 h).2

/-- The sources stay in order, and all that comes is not greater than what is taken. -/
theorem Round.descending {s s' : List σ × β} (h : S.Round step s s')
    (hkeys : ∀ source ∈ s.1, S.Descending (S.states source)) : ∀ source ∈ s'.1, S.Descending (S.states source) := by
  cases h with
  | @next keys rest back back' b hpop hmax hnext =>
    intro source hsource
    rcases List.mem_cons.1 hsource with rfl | hrest
    · exact descending_states_of_next (hkeys back (hpop.symm.subset (List.mem_cons_self ..))) hnext
    · exact hkeys source (hpop.symm.subset (List.mem_cons_of_mem _ hrest))
  | @last keys rest back b hpop hmax hnext =>
    intro source hsource
    exact hkeys source (hpop.symm.subset (List.mem_cons_of_mem _ hsource))

theorem le_of_mem_left {k : κ} (hkeys : ∀ source ∈ keys, S.Descending (S.states source))
    (hk : ∀ source ∈ keys, S.key source ≤ k) : ∀ source ∈ S.left keys, S.key source ≤ k := by
  intro source hsource
  obtain ⟨first, hfirst, hmem⟩ := List.mem_flatMap.1 hsource
  rcases List.mem_cons.1 hmem with rfl | hreads
  · exact hk source hfirst
  · exact ((List.pairwise_cons.1 (hkeys first hfirst)).1 source hreads).trans (hk first hfirst)

/-- The body is done once for all that there was to take. -/
theorem popped_of_run {b b' : β} (h : S.Run step keys b b') :
    ∃ popped, popped.Perm (S.left keys) ∧ b' = popped.foldl step b ∧
      ((∀ source ∈ keys, S.Descending (S.states source)) → S.Descending popped) := by
  have hrun : ∀ s : List σ × β, ReflTransGen (S.Round step) s ([], b') → ∃ popped, popped.Perm (S.left s.1) ∧
      b' = popped.foldl step s.2 ∧ ((∀ source ∈ s.1, S.Descending (S.states source)) → S.Descending popped) := by
    intro s h
    induction h using ReflTransGen.head_induction_on with
    | refl => exact ⟨[], .refl _, rfl, fun _ => .nil⟩
    | @head s s' hround _ ih =>
      obtain ⟨popped, hperm, hb', hsorted⟩ := ih
      obtain ⟨back, htakes, htop, hback, hstep⟩ := hround.takes
      refine ⟨back :: popped, (hperm.cons back).trans htakes.symm, ?_, ?_⟩
      · rw [List.foldl_cons, ← hstep, hb']
      · intro hkeys
        refine List.pairwise_cons.2 ⟨?_, hsorted (hround.descending hkeys)⟩
        intro source hsource
        have hmem : source ∈ S.left s.1 := htakes.symm.subset (List.mem_cons_of_mem _ (hperm.subset hsource))
        exact le_of_mem_left hkeys htop source hmem
  exact hrun (keys, b) h

/-- The same for sources that have been opened, by what is read from them. -/
theorem popped_of_opened {ι α : Type*} {inputs : List ι} {new : ι → σ} {element : σ → α} {contents : ι → List α}
    (hreads : ∀ i ∈ inputs, (S.reads (new i)).map element = contents i) {b b' : β}
    (h : S.Run step (S.opened (inputs.map new)) b b') :
    ∃ popped, (popped.map element).Perm (inputs.flatMap contents) ∧ b' = popped.foldl step b ∧
      ((∀ i ∈ inputs, S.Descending (S.reads (new i))) → S.Descending popped) := by
  obtain ⟨popped, hperm, hb', hsorted⟩ := popped_of_run h
  refine ⟨popped, ?_, hb', ?_⟩
  · rw [left_opened, List.flatMap_map] at hperm
    have hall := hperm.map element
    rwa [List.map_flatMap, List.flatMap_congr hreads] at hall
  · intro hinputs
    refine hsorted fun source' hsource' => ?_
    obtain ⟨source, hsource, hstates⟩ := states_eq_of_mem_opened hsource'
    obtain ⟨i, hi, rfl⟩ := List.mem_map.1 hsource
    rw [hstates]
    exact hinputs i hi

end Rounds

end Sources
