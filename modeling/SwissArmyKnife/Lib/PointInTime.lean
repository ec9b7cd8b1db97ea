import SwissArmyKnife.Lib.Transition

/-!
# Reads in two phases

A call reads a part of a store, from which it plans what to read next, and then reads that, part by part.  In the
beginning it takes a snapshot, and each phase reads the snapshot or the latest store.  Writes of others come between
the reads, and so do collections of old entries, after which the snapshot may show less than the store that it was
taken of.

The reply is still that of one store that the call has seen, as long as no collection changes what the snapshot shows
of what the call has yet to read, and, when the second phase reads the latest store, no write changes both what is yet
to be read and what the call goes by, its plan and what it has read (`run_pointInTime`).
-/

namespace PointInTime

open Transition

variable {σ μ π τ ρ ω : Type*}

inductive Source where
  | snapshot
  | latest
deriving DecidableEq

def Source.of (source : Source) (snapshot latest : σ) : σ :=
  match source with
  | .snapshot => snapshot
  | .latest => latest

/-- `plan` may answer at once.  Else the parts are read, and what was found in them makes the reply. -/
structure Call (σ μ π τ ρ : Type*) where
  plan : σ → Except ρ μ
  parts : μ → List π
  read : π → σ → τ
  collect : μ → List τ → ρ
  planFrom : Source
  scanFrom : Source

/-- The reply of a call during which nothing is written. -/
def Call.alone (c : Call σ μ π τ ρ) (s : σ) : ρ :=
  match c.plan s with
  | .error r => r
  | .ok m => c.collect m ((c.parts m).map fun p => c.read p s)

inductive Phase (σ μ τ ρ : Type*) where
  | start
  | snapshot (t : σ)
  | planned (t : σ) (m : μ) (found : List τ)
  | done (r : ρ)

/-- `passed` are the stores from the start of the call to its end. -/
structure State (σ μ τ ρ : Type*) where
  store : σ
  passed : List σ
  phase : Phase σ μ τ ρ

inductive Action (σ ω : Type*) where
  | write (w : ω)
  /-- The snapshot shows `t` from now on. -/
  | drop (t : σ)
  | step

def init (s₀ : σ) : State σ μ τ ρ := ⟨s₀, [s₀], .start⟩

def Phase.finished : Phase σ μ τ ρ → Bool
  | .done _ => true
  | _ => false

def Phase.drop (t : σ) : Phase σ μ τ ρ → Phase σ μ τ ρ
  | .snapshot _ => .snapshot t
  | .planned _ m found => .planned t m found
  | phase => phase

variable (apply : ω → σ → σ) (c : Call σ μ π τ ρ)

/-- The parts that are yet to be read. -/
def rest (m : μ) (found : List τ) : List π := (c.parts m).drop found.length

def step (s : State σ μ τ ρ) : Action σ ω → Outcome (State σ μ τ ρ)
  | .write w =>
    let t := apply w s.store
    .next { s with store := t, passed := if s.phase.finished then s.passed else s.passed ++ [t] }
  | .drop t => .next { s with phase := s.phase.drop t }
  | .step =>
    match s.phase with
    | .start => .next { s with phase := .snapshot s.store }
    | .snapshot t =>
      match c.plan (c.planFrom.of t s.store) with
      | .error r => .next { s with phase := .done r }
      | .ok m => .next { s with phase := .planned t m [] }
    | .planned t m found =>
      match rest c m found with
      | p :: _ => .next { s with phase := .planned t m (found ++ [c.read p (c.scanFrom.of t s.store)]) }
      | [] => .next { s with phase := .done (c.collect m found) }
    | .done _ => .disabled

/-- The parts look the same in both stores. -/
def Same (parts : List π) (s s' : σ) : Prop := ∀ p ∈ parts, c.read p s' = c.read p s

/-- The store has the plan, and what was found is in it. -/
def Fits (m : μ) (found : List τ) (s : σ) : Prop :=
  c.plan s = .ok m ∧ ((c.parts m).take found.length).map (fun p => c.read p s) = found

/-- What a call has yet to read is left as it is, or what it goes by fits the new store as well. -/
def Leaves (m : μ) (found : List τ) (s s' : σ) : Prop := Same c (rest c m found) s s' ∨ Fits c m found s'

/-- A write matters to a call that will read the latest store, and a collection to one that will read the snapshot. -/
def Kept (s : State σ μ τ ρ) : Action σ ω → Prop
  | .write w =>
    match s.phase with
    | .snapshot t => c.planFrom = .snapshot → c.scanFrom = .latest → ∀ m, c.plan t = .ok m →
        Leaves c m [] s.store (apply w s.store)
    | .planned _ m found => c.scanFrom = .latest → Leaves c m found s.store (apply w s.store)
    | _ => True
  | .drop t' =>
    match s.phase with
    | .snapshot t => c.planFrom = .snapshot → c.plan t' = c.plan t ∧
        (c.scanFrom = .snapshot → ∀ m, c.plan t = .ok m → Same c (c.parts m) t t')
    | .planned t m found => c.scanFrom = .snapshot → Same c (rest c m found) t t'
    | _ => True
  | .step => True

variable {apply c}

/-- What the call goes by fits one of the stores, and it will find there what it will find in the source. -/
def Agrees (c : Call σ μ π τ ρ) (passed : List σ) (source : σ) (m : μ) (found : List τ) : Prop :=
  ∃ u ∈ passed, Fits c m found u ∧ Same c (rest c m found) source u

/-- What is known in each phase. -/
def Known (c : Call σ μ π τ ρ) (s : State σ μ τ ρ) : Phase σ μ τ ρ → Prop
  | .start => True
  | .snapshot t => c.planFrom = .snapshot →
    match c.plan t with
    | .ok m => Agrees c s.passed (c.scanFrom.of t s.store) m []
    | .error r => ∃ u ∈ s.passed, c.alone u = r
  | .planned t m found => Agrees c s.passed (c.scanFrom.of t s.store) m found
  | .done r => ∃ u ∈ s.passed, c.alone u = r

structure Inv (c : Call σ μ π τ ρ) (s : State σ μ τ ρ) : Prop where
  latest : s.phase.finished = false → s.store ∈ s.passed
  known : Known c s s.phase

theorem inv_init (s₀ : σ) : Inv c (init s₀) where
  latest _ := List.mem_singleton.2 rfl
  known := trivial

private theorem Call.alone_error {u : σ} {r : ρ} (h : c.plan u = .error r) : c.alone u = r := by
  rw [Call.alone, h]

private theorem fits_nil {u : σ} {m : μ} (h : c.plan u = .ok m) : Fits c m [] u := ⟨h, rfl⟩

theorem Agrees.mono {passed passed' : List σ} {source : σ} {m : μ} {found : List τ}
    (h : Agrees c passed source m found) (hsub : ∀ u ∈ passed, u ∈ passed') : Agrees c passed' source m found := by
  obtain ⟨u, hu, hfits⟩ := h
  exact ⟨u, hsub u hu, hfits⟩

/-- The source changes to a store that is seen. -/
private theorem Agrees.write {passed : List σ} {source source' : σ} {m : μ} {found : List τ}
    (h : Agrees c passed source m found) (hleaves : Leaves c m found source source') (hmem : source' ∈ passed) :
    Agrees c passed source' m found := by
  rcases hleaves with hsame | hfits
  · obtain ⟨u, hu, hfits, hu'⟩ := h
    exact ⟨u, hu, hfits, fun p hp => (hu' p hp).trans (hsame p hp).symm⟩
  · exact ⟨source', hmem, hfits, fun _ _ => rfl⟩

private theorem Agrees.drop {passed : List σ} {source source' : σ} {m : μ} {found : List τ}
    (h : Agrees c passed source m found) (hsame : Same c (rest c m found) source source') :
    Agrees c passed source' m found := by
  obtain ⟨u, hu, hfits, hu'⟩ := h
  exact ⟨u, hu, hfits, fun p hp => (hu' p hp).trans (hsame p hp).symm⟩

private theorem Agrees.read {passed : List σ} {source : σ} {m : μ} {found : List τ} {p : π} {ps : List π}
    (h : Agrees c passed source m found) (hrest : rest c m found = p :: ps) :
    Agrees c passed source m (found ++ [c.read p source]) := by
  obtain ⟨u, hu, ⟨hplan, hfound⟩, hsame⟩ := h
  have hget : (c.parts m)[found.length]? = some p := by
    rw [← List.head?_drop]
    exact congrArg List.head? hrest
  have hdrop : (c.parts m).drop (found.length + 1) = ps := by
    rw [← List.tail_drop]
    exact congrArg List.tail hrest
  refine ⟨u, hu, ⟨hplan, ?_⟩, ?_⟩
  · rw [List.length_append, List.length_singleton, List.take_add_one, hget, List.map_append, hfound]
    exact congrArg (fun x => found ++ [x]) (hsame p (by rw [hrest]; exact List.mem_cons_self ..))
  · intro q hq
    rw [rest, List.length_append, List.length_singleton, hdrop] at hq
    exact hsame q (by rw [hrest]; exact List.mem_cons_of_mem _ hq)

/-- When all parts are read, the reply is that of the store. -/
private theorem Agrees.alone {passed : List σ} {source : σ} {m : μ} {found : List τ}
    (h : Agrees c passed source m found) (hrest : rest c m found = []) :
    ∃ u ∈ passed, c.alone u = c.collect m found := by
  obtain ⟨u, hu, ⟨hplan, hfound⟩, -⟩ := h
  refine ⟨u, hu, ?_⟩
  rw [List.take_of_length_le (List.drop_eq_nil_iff.1 hrest)] at hfound
  rw [Call.alone, hplan]
  exact congrArg (c.collect m) hfound

namespace Inv

variable {s s' : State σ μ τ ρ}

private theorem write (h : Inv c s) {w : ω} (hkept : Kept apply c s (.write w))
    (hstep : step apply c s (.write w) = .next s') : Inv c s' := by
  cases hstep
  obtain ⟨store, passed, phase⟩ := s
  have hmem : ∀ u ∈ passed, u ∈ passed ++ [apply w store] := fun u hu => List.mem_append_left _ hu
  have hlast : apply w store ∈ passed ++ [apply w store] := List.mem_append_right _ (List.mem_singleton.2 rfl)
  cases phase with
  | start => exact ⟨fun _ => hlast, trivial⟩
  | snapshot t =>
    refine ⟨fun _ => hlast, fun hplan => ?_⟩
    have hknown := h.known hplan
    cases hm : c.plan t with
    | error r =>
      simp only [hm] at hknown ⊢
      obtain ⟨u, hu, halone⟩ := hknown
      exact ⟨u, hmem u hu, halone⟩
    | ok m =>
      simp only [hm] at hknown ⊢
      have hagrees := hknown.mono hmem
      cases hsource : c.scanFrom with
      | snapshot =>
        rw [hsource] at hagrees
        exact hagrees
      | latest =>
        rw [hsource] at hagrees
        exact hagrees.write (hkept hplan hsource m hm) hlast
  | planned t m found =>
    refine ⟨fun _ => hlast, ?_⟩
    have hagrees := Agrees.mono h.known hmem
    cases hsource : c.scanFrom with
    | snapshot =>
      rw [hsource] at hagrees
      rw [Known, hsource]
      exact hagrees
    | latest =>
      rw [hsource] at hagrees
      rw [Known, hsource]
      exact hagrees.write (hkept hsource) hlast
  | done r => exact ⟨fun hnot => (nomatch hnot), h.known⟩

private theorem drop (h : Inv c s) {t' : σ} (hkept : Kept apply c s (.drop t'))
    (hstep : step apply c s (.drop t') = .next s') : Inv c s' := by
  cases hstep
  obtain ⟨store, passed, phase⟩ := s
  cases phase with
  | start => exact ⟨fun hnot => h.latest hnot, trivial⟩
  | snapshot t =>
    refine ⟨fun hnot => h.latest hnot, fun hplan => ?_⟩
    have hknown := h.known hplan
    obtain ⟨hsame, hparts⟩ := hkept hplan
    rw [hsame]
    cases hm : c.plan t with
    | error r =>
      simp only [hm] at hknown ⊢
      exact hknown
    | ok m =>
      simp only [hm] at hknown ⊢
      cases hsource : c.scanFrom with
      | latest =>
        rw [hsource] at hknown
        exact hknown
      | snapshot =>
        rw [hsource] at hknown
        exact hknown.drop (hparts hsource m hm)
  | planned t m found =>
    refine ⟨fun hnot => h.latest hnot, ?_⟩
    have hknown : Agrees c passed (c.scanFrom.of t store) m found := h.known
    cases hsource : c.scanFrom with
    | latest =>
      rw [hsource] at hknown
      rw [Phase.drop, Known, hsource]
      exact hknown
    | snapshot =>
      rw [hsource] at hknown
      rw [Phase.drop, Known, hsource]
      exact hknown.drop (hkept hsource)
  | done r => exact ⟨fun hnot => h.latest hnot, h.known⟩

private theorem advance (hsource : c.scanFrom = .snapshot → c.planFrom = .snapshot) (h : Inv c s)
    (hstep : step apply c s .step = .next s') : Inv c s' := by
  obtain ⟨store, passed, phase⟩ := s
  rw [step] at hstep
  cases phase with
  | start =>
    cases hstep
    have hstore : store ∈ passed := h.latest rfl
    refine ⟨fun _ => hstore, fun _ => ?_⟩
    cases hm : c.plan store with
    | error r => exact ⟨store, hstore, Call.alone_error hm⟩
    | ok m =>
      have hof : c.scanFrom.of store store = store := by cases c.scanFrom <;> rfl
      exact ⟨store, hstore, fits_nil hm, fun p _ => by rw [hof]⟩
  | snapshot t =>
    have hstore : store ∈ passed := h.latest rfl
    have hknown := h.known
    dsimp only at hstep
    cases hm : c.plan (c.planFrom.of t store) with
    | error r =>
      simp only [hm] at hstep
      cases hstep
      refine ⟨fun hnot => (nomatch hnot), ?_⟩
      cases hfrom : c.planFrom with
      | snapshot =>
        rw [hfrom] at hm
        have herror := hknown hfrom
        simp only [show c.plan t = .error r from hm] at herror
        exact herror
      | latest =>
        rw [hfrom] at hm
        exact ⟨store, hstore, Call.alone_error hm⟩
    | ok m =>
      simp only [hm] at hstep
      cases hstep
      refine ⟨fun _ => hstore, ?_⟩
      cases hfrom : c.planFrom with
      | snapshot =>
        rw [hfrom] at hm
        have hagrees := hknown hfrom
        simp only [show c.plan t = .ok m from hm] at hagrees
        exact hagrees
      | latest =>
        rw [hfrom] at hm
        have hscan : c.scanFrom = .latest := by
          cases hscan : c.scanFrom with
          | latest => rfl
          | snapshot => exact absurd (hfrom.symm.trans (hsource hscan)) (by decide)
        rw [Known, hscan]
        exact ⟨store, hstore, fits_nil hm, fun _ _ => rfl⟩
  | planned t m found =>
    have hstore : store ∈ passed := h.latest rfl
    have hknown : Agrees c passed (c.scanFrom.of t store) m found := h.known
    dsimp only at hstep
    cases hrest : rest c m found with
    | cons p ps =>
      simp only [hrest] at hstep
      cases hstep
      exact ⟨fun _ => hstore, hknown.read hrest⟩
    | nil =>
      simp only [hrest] at hstep
      cases hstep
      exact ⟨fun hnot => (nomatch hnot), hknown.alone hrest⟩
  | done r => cases hstep

end Inv

/-- The reply is the one that the call gives alone in one of the stores from its start to its end. -/
theorem run_pointInTime (hsource : c.scanFrom = .snapshot → c.planFrom = .snapshot) {s₀ : σ} {as : List (Action σ ω)}
    (hmeets : Meets (step apply c) (Kept apply c) (init s₀) as) {s : State σ μ τ ρ}
    (hrun : run (step apply c) (init s₀) as = .next s) {r : ρ} (hdone : s.phase = .done r) :
    ∃ u ∈ s.passed, c.alone u = r := by
  have hinv : Inv c s := by
    refine @run_invariant _ _ _ _ (fun _ s => Inv c s) (init s₀) (inv_init s₀) ?_ _ hmeets _ hrun
    intro _ s a s' hs hkept hstep
    cases a with
    | write w => exact hs.write hkept hstep
    | drop t => exact hs.drop hkept hstep
    | step => exact hs.advance hsource hstep
  have hknown := hinv.known
  rw [hdone] at hknown
  exact hknown

end PointInTime
