import Mathlib.Data.List.Induction
import Mathlib.Tactic.Common

/-!
# Runs of a transition system

A system is given by a function that takes an action in a state.  An action may not be possible (`disabled`), or it
may end the program because an assertion fails (`aborted`).  A run is a list of actions.  `Meets` says that each of
its steps meets a condition on the state before it, and `run_invariant` and `run_safe` carry an invariant, which may
speak of the actions taken so far, from each step to the whole run.
-/

namespace Transition

variable {σ α : Type*}

inductive Outcome (σ : Type*) where
  | disabled
  | aborted
  | next (s : σ)
deriving DecidableEq, Repr

namespace Outcome

def bind {τ : Type*} (o : Outcome σ) (f : σ → Outcome τ) : Outcome τ :=
  match o with
  | disabled => disabled
  | aborted => aborted
  | next s => f s

/-- The outcome is a state when there is one, and a failed assertion otherwise. -/
def ofOption : Option σ → Outcome σ
  | some s => next s
  | none => aborted

@[simp] theorem ofOption_eq_next {o : Option σ} {s : σ} : ofOption o = next s ↔ o = some s := by
  cases o <;> simp [ofOption]

instance {p : σ → Prop} [DecidablePred p] : (o : Outcome σ) → Decidable (∃ s, o = .next s ∧ p s)
  | disabled => isFalse nofun
  | aborted => isFalse nofun
  | next s => decidable_of_iff (p s) (by simp)

end Outcome

variable (step : σ → α → Outcome σ)

/-- The outcome of a list of actions. -/
def run (s : σ) : List α → Outcome σ
  | [] => .next s
  | a :: as => (step s a).bind fun s' => run s' as

/-- The condition holds before every step of the run. -/
def Meets (P : σ → α → Prop) (s : σ) : List α → Prop
  | [] => True
  | a :: as => P s a ∧ ∀ s', step s a = .next s' → Meets P s' as

/-- A condition that can be decided is decided along a run. -/
instance decidableMeets (P : σ → α → Prop) [∀ s a, Decidable (P s a)] :
    (s : σ) → (as : List α) → Decidable (Meets step P s as)
  | _, [] => isTrue trivial
  | s, a :: as =>
    match h : step s a with
    | .disabled => decidable_of_iff (P s a) (by simp [Meets, h])
    | .aborted => decidable_of_iff (P s a) (by simp [Meets, h])
    | .next s' =>
      have := decidableMeets P s' as
      decidable_of_iff (P s a ∧ Meets step P s' as) (by simp [Meets, h])

variable {step} {P : σ → α → Prop}

theorem run_append (s : σ) (as bs : List α) :
    run step s (as ++ bs) = (run step s as).bind fun s' => run step s' bs := by
  induction as generalizing s with
  | nil => rfl
  | cons a as ih =>
    rw [List.cons_append, run, run]
    cases step s a with
    | disabled => rfl
    | aborted => rfl
    | next s' => exact ih s'

/-- The states around an action of a run that has come to its end. -/
theorem exists_of_run_append {s s' : σ} {before after : List α} {a : α}
    (h : run step s (before ++ a :: after) = .next s') :
    ∃ t u, run step s before = .next t ∧ step t a = .next u ∧ run step u after = .next s' := by
  rw [run_append] at h
  cases hbefore : run step s before with
  | disabled => simp [hbefore, Outcome.bind] at h
  | aborted => simp [hbefore, Outcome.bind] at h
  | next t =>
    simp only [hbefore, Outcome.bind, run] at h
    cases ha : step t a with
    | disabled => simp [ha] at h
    | aborted => simp [ha] at h
    | next u => exact ⟨t, u, rfl, ha, by simpa [ha] using h⟩

/-- A run that meets a condition does so in each of its parts. -/
theorem Meets.append {s : σ} {as bs : List α} (h : Meets step P s (as ++ bs)) :
    Meets step P s as ∧ ∀ s', run step s as = .next s' → Meets step P s' bs := by
  induction as generalizing s with
  | nil =>
    refine ⟨trivial, ?_⟩
    intro s' hs'
    cases hs'
    exact h
  | cons a as ih =>
    refine ⟨⟨h.1, fun s' hs' => (ih (h.2 s' hs')).1⟩, ?_⟩
    intro s' hs'
    rw [run] at hs'
    cases hstep : step s a with
    | disabled => simp [hstep, Outcome.bind] at hs'
    | aborted => simp [hstep, Outcome.bind] at hs'
    | next t =>
      rw [hstep] at hs'
      exact (ih (h.2 t hstep)).2 s' hs'

/-- A condition that holds of every action taken is met by the run. -/
theorem meets_of_forall {s : σ} {as : List α}
    (h : ∀ before a after, as = before ++ a :: after → ∀ s', run step s before = .next s' → P s' a) :
    Meets step P s as := by
  induction as generalizing s with
  | nil => trivial
  | cons a as ih =>
    refine ⟨h [] a as rfl s rfl, ?_⟩
    intro s' hs'
    refine ih ?_
    rintro before b after rfl t ht
    refine h (a :: before) b after rfl t ?_
    rw [run, hs']
    exact ht

theorem Meets.mono {Q : σ → α → Prop} (himp : ∀ s a, P s a → Q s a) {s : σ} {as : List α}
    (h : Meets step P s as) : Meets step Q s as := by
  induction as generalizing s with
  | nil => trivial
  | cons a as ih => exact ⟨himp s a h.1, fun s' hs' => ih (h.2 s' hs')⟩

/-- A condition that gives another one in the states of an invariant, which the other condition keeps. -/
theorem Meets.of_invariant {Q : σ → α → Prop} {Inv : σ → Prop} (himp : ∀ s a, Inv s → P s a → Q s a)
    (hstep : ∀ s a s', Inv s → Q s a → step s a = .next s' → Inv s') {s : σ} {as : List α} (hinit : Inv s)
    (h : Meets step P s as) : Meets step Q s as := by
  induction as generalizing s with
  | nil => trivial
  | cons a as ih =>
    have hq := himp s a hinit h.1
    exact ⟨hq, fun s' hs' => ih (hstep s a s' hinit hq hs') (h.2 s' hs')⟩

/-- A run whose steps have no condition to meet. -/
theorem meets_true (s : σ) (as : List α) : Meets step (fun _ _ => True) s as := by
  induction as generalizing s with
  | nil => trivial
  | cons a as ih => exact ⟨trivial, fun s' _ => ih s'⟩

/-- What holds in the beginning and is kept by every step that meets the condition holds in every state reached. -/
theorem run_invariant {Inv : List α → σ → Prop} {s₀ : σ} (hinit : Inv [] s₀)
    (hstep : ∀ as s a s', Inv as s → P s a → step s a = .next s' → Inv (as ++ [a]) s') {as : List α}
    (hmeets : Meets step P s₀ as) {s : σ} (hrun : run step s₀ as = .next s) : Inv as s := by
  suffices hgen : ∀ (before as : List α) (s₀ : σ), Inv before s₀ → Meets step P s₀ as →
      run step s₀ as = .next s → Inv (before ++ as) s from hgen [] as s₀ hinit hmeets hrun
  intro before as
  induction as generalizing before with
  | nil =>
    intro s₀ hinv _ hrun
    cases hrun
    simpa using hinv
  | cons a as ih =>
    intro s₀ hinv hmeets hrun
    rw [run] at hrun
    cases hs : step s₀ a with
    | disabled => simp [hs, Outcome.bind] at hrun
    | aborted => simp [hs, Outcome.bind] at hrun
    | next t =>
      rw [hs] at hrun
      have := ih (before ++ [a]) t (hstep before s₀ a t hinv hmeets.1 hs) (hmeets.2 t hs) hrun
      simpa using this

/-- The condition, which may speak of the actions taken before, holds before every step of the run. -/
def MeetsAfter (step : σ → α → Outcome σ) (P : List α → σ → α → Prop) (s₀ : σ) (as : List α) : Prop :=
  ∀ before a after, as = before ++ a :: after → ∀ s, run step s₀ before = .next s → P before s a

theorem meetsAfter_nil {P : List α → σ → α → Prop} (s₀ : σ) : MeetsAfter step P s₀ [] := by
  intro before a after heq
  simp at heq

theorem meetsAfter_cons {P : List α → σ → α → Prop} {s₀ : σ} {a : α} {as : List α} (ha : P [] s₀ a) {s : σ}
    (hs : step s₀ a = .next s) (has : MeetsAfter step (fun before => P (a :: before)) s as) :
    MeetsAfter step P s₀ (a :: as) := by
  intro before b after heq t ht
  cases before with
  | nil =>
    obtain ⟨rfl, rfl⟩ := List.cons.inj heq
    cases ht
    exact ha
  | cons c before =>
    obtain ⟨rfl, rfl⟩ := List.cons.inj heq
    rw [run, hs] at ht
    exact has before b after rfl t ht

theorem meetsAfter_append {P : List α → σ → α → Prop} {s₀ : σ} {as : List α} {a : α} :
    MeetsAfter step P s₀ (as ++ [a]) ↔
      MeetsAfter step P s₀ as ∧ ∀ s, run step s₀ as = .next s → P as s a := by
  constructor
  · intro h
    exact ⟨fun before b after heq => h before b (after ++ [a]) (by simp [heq]), h as a [] rfl⟩
  · rintro ⟨has, ha⟩ before b after heq
    rcases List.eq_nil_or_concat after with rfl | ⟨after', c, rfl⟩
    · obtain ⟨rfl, hb⟩ := List.append_inj' heq rfl
      cases hb
      exact ha
    · rw [List.concat_eq_append, ← List.cons_append, ← List.append_assoc] at heq
      obtain ⟨rfl, _⟩ := List.append_inj' heq rfl
      exact has before b after' rfl

theorem run_invariant_after {P : List α → σ → α → Prop} (Inv : List α → σ → Prop) {s₀ : σ} (hinit : Inv [] s₀)
    (hstep : ∀ as s a s', Inv as s → P as s a → step s a = .next s' → Inv (as ++ [a]) s') {as : List α}
    (hmeets : MeetsAfter step P s₀ as) {s : σ} (hrun : run step s₀ as = .next s) : Inv as s := by
  induction as using List.reverseRecOn generalizing s with
  | nil =>
    cases hrun
    exact hinit
  | append_singleton as a ih =>
    obtain ⟨hbefore, hlast⟩ := meetsAfter_append.1 hmeets
    rw [run_append] at hrun
    cases hs : run step s₀ as with
    | disabled => simp [hs, Outcome.bind] at hrun
    | aborted => simp [hs, Outcome.bind] at hrun
    | next t =>
      have ha : step t a = .next s := by
        rw [hs] at hrun
        simp only [Outcome.bind, run] at hrun
        cases hstep' : step t a with
        | disabled => simp [hstep'] at hrun
        | aborted => simp [hstep'] at hrun
        | next t' => simpa [hstep'] using hrun
      exact hstep as t a s (ih hbefore hs) (hlast t hs) ha

/-- If moreover no such step aborts, no run does. -/
theorem run_safe {Inv : List α → σ → Prop} {s₀ : σ} (hinit : Inv [] s₀)
    (hstep : ∀ as s a s', Inv as s → P s a → step s a = .next s' → Inv (as ++ [a]) s')
    (hsafe : ∀ as s a, Inv as s → P s a → step s a ≠ .aborted) {as : List α} (hmeets : Meets step P s₀ as) :
    run step s₀ as ≠ .aborted := by
  induction as using List.reverseRecOn with
  | nil => exact fun h => by simp [run] at h
  | append_singleton as a ih =>
    obtain ⟨hbefore, hlast⟩ := hmeets.append
    intro habort
    rw [run_append] at habort
    cases hs : run step s₀ as with
    | disabled => simp [hs, Outcome.bind] at habort
    | aborted => exact ih hbefore hs
    | next s =>
      have hinv := run_invariant hinit hstep hbefore hs
      rw [hs] at habort
      simp only [Outcome.bind, run] at habort
      have hnot := hsafe as s a hinv (hlast s hs).1
      cases ha : step s a with
      | disabled => simp [ha] at habort
      | aborted => exact hnot ha
      | next t => simp [ha] at habort

/-- A step aborts exactly if the condition fails, and leads to what is wanted of its state otherwise. -/
def Outcome.Decides (o : Outcome σ) (ok : Prop) (post : σ → Prop) : Prop :=
  match o with
  | disabled => True
  | aborted => ¬ok
  | next s => ok ∧ post s

theorem Outcome.Decides.mono {o : Outcome σ} {ok : Prop} {post post' : σ → Prop} (h : o.Decides ok post)
    (himp : ∀ s, post s → post' s) : o.Decides ok post' := by
  cases o with
  | disabled => exact h
  | aborted => exact h
  | next s => exact ⟨h.1, himp s h.2⟩

theorem Outcome.Decides.congr {o : Outcome σ} {ok ok' : Prop} {post : σ → Prop} (h : o.Decides ok post)
    (hiff : ok ↔ ok') : o.Decides ok' post := by
  cases o with
  | disabled => exact h
  | aborted => exact fun hok => h (hiff.2 hok)
  | next s => exact ⟨hiff.1 h.1, h.2⟩

section Decides

variable {P : List α → σ → α → Prop} (Inv : List α → σ → Prop) {s₀ : σ} (hinit : Inv [] s₀)
  (hstep : ∀ before s a, Inv before s → (step s a).Decides (P before s a) (Inv (before ++ [a])))
include hinit hstep

theorem run_decides_invariant {as : List α} {s : σ} (hrun : run step s₀ as = .next s) : Inv as s := by
  refine run_invariant hinit ?_ (meets_true s₀ as) hrun
  intro before t a t' ht _ hs
  have h := hstep before t a ht
  rw [hs] at h
  exact h.2

/-- If each step aborts exactly when its condition fails, so does the run. -/
theorem run_ne_aborted_iff {as : List α} (hable : run step s₀ as ≠ .disabled) :
    run step s₀ as ≠ .aborted ↔ MeetsAfter step P s₀ as := by
  induction as using List.reverseRecOn with
  | nil => simp [run, meetsAfter_nil]
  | append_singleton as a ih =>
    rw [run_append] at hable ⊢
    rw [meetsAfter_append]
    cases hs : run step s₀ as with
    | disabled => simp [hs, Outcome.bind] at hable
    | aborted =>
      have hnot := mt (ih (by simp [hs])).2 (by simp [hs])
      simp [Outcome.bind, hnot]
    | next s =>
      have hmeets := (ih (by simp [hs])).1 (by simp [hs])
      have hlast := hstep as s a (run_decides_invariant Inv hinit hstep hs)
      simp only [hs, Outcome.bind, run] at hable ⊢
      cases ha : step s a with
      | disabled => simp [ha] at hable
      | aborted =>
        rw [ha] at hlast
        have hnot : ¬P as s a := hlast
        simpa [hmeets] using hnot
      | next t =>
        rw [ha] at hlast
        simpa [hmeets] using hlast.1

end Decides

/-- The same for the runs with actions of a kind, given by a condition on the list of actions. -/
theorem run_decides_of {H : List α → Prop} (hH : ∀ as a, H (as ++ [a]) → H as) {P : List α → σ → α → Prop}
    (Inv : List α → σ → Prop) {s₀ : σ} (hinit : Inv [] s₀)
    (hstep : ∀ as s a, H (as ++ [a]) → Inv as s → (step s a).Decides (P as s a) (Inv (as ++ [a]))) {as : List α}
    (has : H as) (hable : run step s₀ as ≠ .disabled) :
    (run step s₀ as ≠ .aborted ↔ MeetsAfter step P s₀ as) ∧ ∀ s, run step s₀ as = .next s → Inv as s := by
  induction as using List.reverseRecOn with
  | nil => exact ⟨by simp [run, meetsAfter_nil], fun s hs => by cases hs; exact hinit⟩
  | append_singleton as a ih =>
    have ih := ih (hH as a has)
    rw [run_append] at hable ⊢
    rw [meetsAfter_append]
    cases hs : run step s₀ as with
    | disabled => simp [hs, Outcome.bind] at hable
    | aborted =>
      have hnot := mt (ih (by simp [hs])).1.2 (by simp [hs])
      simp [Outcome.bind, hnot]
    | next s =>
      obtain ⟨hiff, hinv⟩ := ih (by simp [hs])
      have hmeets := hiff.1 (by simp [hs])
      have hlast := hstep as s a has (hinv s hs)
      simp only [hs, Outcome.bind, run] at hable ⊢
      cases ha : step s a with
      | disabled => simp [ha] at hable
      | aborted =>
        rw [ha] at hlast
        have hnot : ¬P as s a := hlast
        simpa [hmeets] using hnot
      | next t =>
        rw [ha] at hlast
        have hnext : P as s a ∧ Inv (as ++ [a]) t := hlast
        simpa [hmeets] using hnext

end Transition
