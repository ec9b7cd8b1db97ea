import Mathlib.Tactic.Common

/-!
# Machines with replies

A machine takes an action in a state and gives a new state and a reply.  Two machines that are related by a forward
simulation, on the actions that meet a condition, give the same replies (`replies_eq`).
-/

namespace Replies

variable {σ τ α ρ : Type*}

/-- The state after a list of actions. -/
def final (step : σ → α → σ × ρ) (s : σ) (as : List α) : σ := as.foldl (fun s a => (step s a).1) s

def replies (step : σ → α → σ × ρ) : σ → List α → List ρ
  | _, [] => []
  | s, a :: as => (step s a).2 :: replies step (step s a).1 as

/-- Each action of the run meets the condition in the state in which it is taken. -/
def Meets (step : σ → α → σ × ρ) (P : σ → α → Prop) : σ → List α → Prop
  | _, [] => True
  | s, a :: as => P s a ∧ Meets step P (step s a).1 as

instance Meets.decidable (step : σ → α → σ × ρ) (P : σ → α → Prop) [∀ s a, Decidable (P s a)] :
    ∀ (s : σ) (as : List α), Decidable (Meets step P s as)
  | _, [] => isTrue trivial
  | s, a :: as =>
    have := decidable step P (step s a).1 as
    inferInstanceAs (Decidable (P s a ∧ Meets step P (step s a).1 as))

variable {step : σ → α → σ × ρ} {spec : τ → α → τ × ρ} {P : σ → α → Prop}

/-- What holds of the actions of a machine, when it follows from a relation to another one that is kept. -/
theorem Meets.of_related {step₂ : τ → α → τ × ρ} {Q : τ → α → Prop} {R : σ → τ → Prop}
    (hstep : ∀ s t a, R s t → P s a → Q t a ∧ R (step s a).1 (step₂ t a).1) {s : σ} {t : τ} {as : List α}
    (hinit : R s t) (hmeets : Meets step P s as) : Meets step₂ Q t as := by
  induction as generalizing s t with
  | nil => trivial
  | cons a as ih =>
    obtain ⟨hq, hrel⟩ := hstep s t a hinit hmeets.1
    exact ⟨hq, ih hrel hmeets.2⟩

/-- Machines that stay related and reply the same in each step reply the same in a run. -/
theorem replies_eq {R : σ → τ → Prop} (hstep : ∀ s t a, R s t → P s a →
      R (step s a).1 (spec t a).1 ∧ (step s a).2 = (spec t a).2) {s : σ} {t : τ} {as : List α} (hinit : R s t)
    (hmeets : Meets step P s as) : replies step s as = replies spec t as := by
  induction as generalizing s t with
  | nil => rfl
  | cons a as ih =>
    obtain ⟨hrel, hreply⟩ := hstep s t a hinit hmeets.1
    rw [replies, replies, hreply, ih hrel hmeets.2]

end Replies
