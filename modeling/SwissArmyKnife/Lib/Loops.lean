import Mathlib.Tactic.Common

/-!
# Loops that may not end

A turn of a loop goes around again or ends it.  `Ends` says that the loop ends from a state, and with what.  It does
when a measure gets smaller with every turn, and it does not when a turn changes nothing.
-/

namespace Loop

variable {σ ρ : Type*}

inductive Turn (σ ρ : Type*) where
  | again (s : σ)
  | done (r : ρ)
deriving DecidableEq, Repr

variable (turn : σ → Turn σ ρ)

/-- At most so many turns. -/
def run : ℕ → σ → Option ρ
  | 0, _ => none
  | fuel + 1, s =>
    match turn s with
    | .again s' => run fuel s'
    | .done r => some r

def Ends (s : σ) (r : ρ) : Prop := ∃ fuel, run turn fuel s = some r

variable {turn} {s s' : σ} {r r' : ρ}

theorem ends_of_done (h : turn s = .done r) : Ends turn s r := ⟨1, by rw [run, h]⟩

theorem ends_iff_of_again (h : turn s = .again s') : Ends turn s r ↔ Ends turn s' r := by
  constructor
  · rintro ⟨fuel, hfuel⟩
    cases fuel with
    | zero => cases hfuel
    | succ fuel =>
      rw [run, h] at hfuel
      exact ⟨fuel, hfuel⟩
  · rintro ⟨fuel, hfuel⟩
    refine ⟨fuel + 1, ?_⟩
    rw [run, h]
    exact hfuel

theorem run_mono {fuel fuel' : ℕ} (hle : fuel ≤ fuel') (h : run turn fuel s = some r) :
    run turn fuel' s = some r := by
  induction fuel generalizing fuel' s with
  | zero => cases h
  | succ fuel ih =>
    obtain ⟨fuel', rfl⟩ := Nat.exists_eq_add_of_le' (Nat.lt_of_lt_of_le (Nat.succ_pos fuel) hle)
    rw [run] at h ⊢
    cases hturn : turn s with
    | again s' =>
      rw [hturn] at h
      exact ih (Nat.le_of_succ_le_succ hle) h
    | done r' =>
      rw [hturn] at h
      exact h

theorem Ends.unique (h : Ends turn s r) (h' : Ends turn s r') : r = r' := by
  obtain ⟨fuel, hfuel⟩ := h
  obtain ⟨fuel', hfuel'⟩ := h'
  have := run_mono (Nat.le_max_left fuel fuel') hfuel
  rw [run_mono (Nat.le_max_right fuel fuel') hfuel'] at this
  exact (Option.some.inj this).symm

/-- A measure that gets smaller in the states of an invariant. -/
theorem exists_ends {Inv : σ → Prop} (measure : σ → ℕ)
    (hstep : ∀ s s', Inv s → turn s = .again s' → Inv s' ∧ measure s' < measure s) (hs : Inv s) :
    ∃ r, Ends turn s r := by
  induction hn : measure s using Nat.strongRecOn generalizing s with
  | _ n ih =>
    subst hn
    cases hturn : turn s with
    | done r => exact ⟨r, ends_of_done hturn⟩
    | again s' =>
      obtain ⟨hs', hlt⟩ := hstep s s' hs hturn
      obtain ⟨r, hr⟩ := ih _ hlt hs' rfl
      exact ⟨r, (ends_iff_of_again hturn).2 hr⟩

/-- A turn that changes nothing is taken for ever. -/
theorem not_ends_of_fixed (h : turn s = .again s) (r : ρ) : ¬Ends turn s r := by
  rintro ⟨fuel, hfuel⟩
  induction fuel with
  | zero => cases hfuel
  | succ fuel ih =>
    rw [run, h] at hfuel
    exact ih hfuel

/-- The states that a loop comes to. -/
inductive Visits (turn : σ → Turn σ ρ) (s : σ) : σ → Prop where
  | start : Visits turn s s
  | again {t t' : σ} (h : Visits turn s t) (hturn : turn t = .again t') : Visits turn s t'

/-- A loop ends from where it starts as it ends from where it comes to. -/
theorem Visits.ends_iff {t : σ} (h : Visits turn s t) : Ends turn s r ↔ Ends turn t r := by
  induction h with
  | start => exact Iff.rfl
  | again _ hturn ih => exact ih.trans (ends_iff_of_again hturn)

theorem Visits.head {t : σ} (hturn : turn s = .again s') (h : Visits turn s' t) : Visits turn s t := by
  induction h with
  | start => exact .again .start hturn
  | again _ hturn' ih => exact .again ih hturn'

theorem ends_iff_visits : Ends turn s r ↔ ∃ t, Visits turn s t ∧ turn t = .done r := by
  constructor
  · rintro ⟨fuel, hfuel⟩
    induction fuel generalizing s with
    | zero => cases hfuel
    | succ fuel ih =>
      rw [run] at hfuel
      cases hturn : turn s with
      | again s' =>
        rw [hturn] at hfuel
        obtain ⟨t, hvisits, hdone⟩ := ih hfuel
        exact ⟨t, hvisits.head hturn, hdone⟩
      | done r' =>
        rw [hturn] at hfuel
        cases hfuel
        exact ⟨s, .start, hturn⟩
  · rintro ⟨t, hvisits, hdone⟩
    exact hvisits.ends_iff.2 (ends_of_done hdone)

theorem Visits.cases_head {t : σ} (h : Visits turn s t) : t = s ∨ ∃ s', turn s = .again s' ∧ Visits turn s' t := by
  induction h with
  | start => exact .inl rfl
  | @again t t' _ hturn ih =>
    rcases ih with rfl | ⟨s', hs', hvisits⟩
    · exact .inr ⟨t', hturn, .start⟩
    · exact .inr ⟨s', hs', hvisits.again hturn⟩

/-- Every state on the way leads to where the loop ends. -/
theorem Visits.to_end {t t' : σ} (h : Visits turn s t) (hdone : turn t = .done r) (h' : Visits turn s t') :
    Visits turn t' t := by
  induction h' with
  | start => exact h
  | again _ hturn ih =>
    rcases ih.cases_head with rfl | ⟨u, hu, hvisits⟩
    · rw [hdone] at hturn
      cases hturn
    · rw [hturn] at hu
      cases hu
      exact hvisits

theorem Visits.unique {t t' : σ} (h : Visits turn s t) (hdone : turn t = .done r) (h' : Visits turn s t')
    (hdone' : turn t' = .done r') : t = t' := by
  rcases (h.to_end hdone h').cases_head with heq | ⟨u, hu, -⟩
  · exact heq
  · rw [hdone'] at hu
    cases hu

/-- What the turns keep holds in every state that the loop comes to. -/
theorem Visits.invariant {Inv : σ → Prop} (hstep : ∀ s s', Inv s → turn s = .again s' → Inv s') {t : σ}
    (h : Visits turn s t) (hs : Inv s) : Inv t := by
  induction h with
  | start => exact hs
  | again _ hturn ih => exact hstep _ _ ih hturn

end Loop
