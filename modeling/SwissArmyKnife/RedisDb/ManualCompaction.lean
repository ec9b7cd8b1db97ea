import SwissArmyKnife.RedisDb.EnvSchedule

/-!
# Manual compaction

`TESTCompactRange` registers a request, which is a local variable of its own, and waits.  `BackgroundCompaction` reads
the request, does its work with the mutex free, and then writes to the request that is registered by then.  A caller
that wakes up after a background error or in a shutdown takes its request away.  When it does so during the work,
there is no request left to write to (`accesses_iff`, `Lost.finish`).

The steps below are the parts of the code between two points where the mutex is free.
-/

namespace RedisDb.ManualCompaction

open Transition

variable {K : Type*}

/-- The local variable `manual`; `tmpStorage` is what `begin` points to after a part of the range is done. -/
structure Request (K : Type*) where
  level : ℕ
  done : Bool
  begin : Option K
  «end» : Option K
deriving DecidableEq, Repr

/-- Where a call of `TESTCompactRange` is; its request is there while it waits. -/
inductive Call (K : Type*) where
  | idle
  | waiting (manual : Request K)
  | returned
deriving DecidableEq, Repr

/-- Where the background thread is.  In `work` it is inside `DoCompactionWork` or `LogAndApply`, for a manual
compaction with the key where the work will stop. -/
inductive Background (K : Type*) where
  | idle
  | memtable
  | work (manualend : Option K)
deriving DecidableEq, Repr

/-- `manualcompaction` points to the request of a call.  `bgerror` says whether the status is an error, and `imm`
whether the pointer is set. -/
structure State (K : Type*) where
  manualcompaction : Option ℕ
  calls : ℕ → Call K
  shuttingdown : Bool
  bgerror : Bool
  imm : Bool
  bgcompactionscheduled : Bool
  background : Background K

def init : State K := ⟨none, fun _ => .idle, false, false, false, false, .idle⟩

/-- What `NeedsCompaction` says is part of the action where it is called, and so is what the compaction is: `none`
when there is nothing to compact, and otherwise the largest key of its last input. -/
inductive Action (K : Type*) where
  | call (i level : ℕ) («begin» «end» : Option K) (needs : Bool)
  /-- A call that waits goes on, when it is notified or for no reason. -/
  | wake (i : ℕ) (needs : Bool)
  /-- `BackgroundCallback` begins. -/
  | start (c : Option K) (needs : Bool)
  /-- `CompactMemTable` ends, and `BackgroundCompaction` with it. -/
  | memtable (ok needs : Bool)
  /-- `DoCompactionWork` calls `CompactMemTable`. -/
  | workMemtable (ok : Bool)
  /-- The work ends with a status, and `BackgroundCompaction` goes on to its end. -/
  | finish (ok needs : Bool)
  /-- The sync of a `Write` fails. -/
  | writeError
  /-- `MakeRoomForWrite` switches to a new memtable. -/
  | makeRoom (needs : Bool)
  | maybeSchedule (needs : Bool)
  | shutdown
deriving DecidableEq, Repr

def setCall (s : State K) (i : ℕ) (c : Call K) : State K := { s with calls := Function.update s.calls i c }

def MaybeScheduleCompaction (s : State K) (needs : Bool) : State K :=
  if EnvSchedule.MaybeScheduleCompaction s.bgcompactionscheduled
      ⟨s.shuttingdown, s.bgerror, s.imm, s.manualcompaction.isSome, needs⟩ then
    { s with bgcompactionscheduled := true }
  else s

/-- `status` is an error, or not. -/
def RecordBackgroundError (s : State K) (ok : Bool) : State K := { s with bgerror := s.bgerror || !ok }

/-- The loop of `TESTCompactRange` until it waits or returns.  A call that registers its request finds it registered
when it tests again, and waits. -/
def TESTCompactRange (s : State K) (i : ℕ) (manual : Request K) (needs : Bool) : State K :=
  if !manual.done && !s.shuttingdown && !s.bgerror then
    if s.manualcompaction = none then
      setCall (MaybeScheduleCompaction { s with manualcompaction := some i } needs) i (.waiting manual)
    else setCall s i (.waiting manual)
  else
    -- Cancel the request, if it is the one that is registered.
    setCall { s with manualcompaction := if s.manualcompaction = some i then none else
      s.manualcompaction } i .returned

/-- The end of `BackgroundCallback`. -/
def afterCompaction (s : State K) (needs : Bool) : State K :=
  MaybeScheduleCompaction { s with background := .idle, bgcompactionscheduled := false } needs

/-- `BackgroundCompaction` up to the work; it is an error when the request read is not there. -/
def BackgroundCompaction (s : State K) (c : Option K) (needs : Bool) : Outcome (State K) :=
  if s.imm then .next { s with background := .memtable }
  else
    match s.manualcompaction with
    | none =>
      match c with
      | none => .next (afterCompaction s needs)
      | some _ => .next { s with background := .work none }
    | some i =>
      match s.calls i with
      | .waiting manual =>
        let manual := { manual with done := c.isNone }
        match c with
        | none => .next (afterCompaction { setCall s i (.waiting manual) with manualcompaction := none } needs)
        | some manualend => .next { setCall s i (.waiting manual) with background := .work (some manualend) }
      | _ => .aborted

/-- What is written to the request after the work. -/
def Request.update (manual : Request K) (ok : Bool) (manualend : K) : Request K :=
  let manual := if ok then manual else { manual with done := true }
  if manual.done then manual else { manual with begin := some manualend }

/-- `BackgroundCompaction` from the end of the work; it is an error when it is for a manual compaction and the request
that is registered is not there. -/
def finish (s : State K) (manualend : Option K) (ok needs : Bool) : Outcome (State K) :=
  let s := RecordBackgroundError s ok
  match manualend with
  | none => .next (afterCompaction s needs)
  | some manualend =>
    match s.manualcompaction with
    | none => .aborted
    | some i =>
      match s.calls i with
      | .waiting manual =>
        .next (afterCompaction
          { setCall s i (.waiting (manual.update ok manualend)) with manualcompaction := none } needs)
      | _ => .aborted

def step (s : State K) : Action K → Outcome (State K)
  | .call i level «begin» «end» needs =>
    match s.calls i with
    | .idle => .next (TESTCompactRange s i ⟨level, false, «begin», «end»⟩ needs)
    | _ => .disabled
  | .wake i needs =>
    match s.calls i with
    | .waiting manual => .next (TESTCompactRange s i manual needs)
    | _ => .disabled
  | .start c needs =>
    match s.background with
    | .idle =>
      if s.bgcompactionscheduled then
        if s.shuttingdown || s.bgerror then .next (afterCompaction s needs) else BackgroundCompaction s c needs
      else .disabled
    | _ => .disabled
  | .memtable ok needs =>
    match s.background with
    | .memtable =>
        .next (afterCompaction (if ok then { s with imm := false } else RecordBackgroundError s false) needs)
    | _ => .disabled
  | .workMemtable ok =>
    match s.background with
    | .work _ =>
      if s.imm then .next (if ok then { s with imm := false } else RecordBackgroundError s false) else .disabled
    | _ => .disabled
  | .finish ok needs =>
    match s.background with
    | .work manualend => finish s manualend ok needs
    | _ => .disabled
  | .writeError => .next (RecordBackgroundError s false)
  | .makeRoom needs =>
    if s.bgerror || s.imm then .disabled else .next (MaybeScheduleCompaction { s with imm := true } needs)
  | .maybeSchedule needs => .next (MaybeScheduleCompaction s needs)
  | .shutdown => .next { s with shuttingdown := true }

/-! ### What a step does -/

variable {s s' : State K}

@[simp] theorem maybeSchedule_manualcompaction (needs : Bool) :
    (MaybeScheduleCompaction s needs).manualcompaction = s.manualcompaction := by
  unfold MaybeScheduleCompaction
  split <;> rfl

@[simp] theorem maybeSchedule_calls (needs : Bool) : (MaybeScheduleCompaction s needs).calls = s.calls := by
  unfold MaybeScheduleCompaction
  split <;> rfl

@[simp] theorem maybeSchedule_background (needs : Bool) :
    (MaybeScheduleCompaction s needs).background = s.background := by
  unfold MaybeScheduleCompaction
  split <;> rfl

@[simp] theorem maybeSchedule_shuttingdown (needs : Bool) :
    (MaybeScheduleCompaction s needs).shuttingdown = s.shuttingdown := by
  unfold MaybeScheduleCompaction
  split <;> rfl

@[simp] theorem maybeSchedule_bgerror (needs : Bool) : (MaybeScheduleCompaction s needs).bgerror = s.bgerror := by
  unfold MaybeScheduleCompaction
  split <;> rfl

@[simp] theorem afterCompaction_manualcompaction (needs : Bool) :
    (afterCompaction s needs).manualcompaction = s.manualcompaction := by
  simp [afterCompaction]

@[simp] theorem afterCompaction_calls (needs : Bool) : (afterCompaction s needs).calls = s.calls := by
  simp [afterCompaction]

@[simp] theorem afterCompaction_background (needs : Bool) : (afterCompaction s needs).background = .idle := by
  simp [afterCompaction]

@[simp] theorem afterCompaction_shuttingdown (needs : Bool) :
    (afterCompaction s needs).shuttingdown = s.shuttingdown := by
  simp [afterCompaction]

@[simp] theorem afterCompaction_bgerror (needs : Bool) : (afterCompaction s needs).bgerror = s.bgerror := by
  simp [afterCompaction]

/-- No compaction runs any more for a request. -/
def Stops (s : State K) : Prop := s.shuttingdown = true ∨ s.bgerror = true

/-- The request `i` is there, and it is not done. -/
def Pending (s : State K) (i : ℕ) : Prop := ∃ manual, s.calls i = .waiting manual ∧ manual.done = false

/-- The registered request is that of a call that waits. -/
def Inv (s : State K) : Prop := ∀ i, s.manualcompaction = some i → Pending s i

theorem inv_init : Inv (init : State K) := nofun

/-- What the loop does with the registered request: it leaves it alone, it registers its own where there is none, or
it takes its own away. -/
theorem testCompactRange_cases (s : State K) (i : ℕ) (manual : Request K) (needs : Bool) :
    (TESTCompactRange s i manual needs).background = s.background ∧
    (Stops (TESTCompactRange s i manual needs) ↔ Stops s) ∧
    (((TESTCompactRange s i manual needs).manualcompaction = s.manualcompaction ∧
        ∀ j, s.manualcompaction = some j → Pending s j → Pending (TESTCompactRange s i manual needs) j) ∨
      (s.manualcompaction = none ∧ (TESTCompactRange s i manual needs).manualcompaction = some i ∧
        Pending (TESTCompactRange s i manual needs) i ∧ ¬ Stops s) ∨
      (s.manualcompaction = some i ∧ (TESTCompactRange s i manual needs).manualcompaction = none ∧
        (Stops s ∨ manual.done = true))) := by
  unfold TESTCompactRange
  split
  · rename_i hgo
    simp only [Bool.and_eq_true, Bool.not_eq_true'] at hgo
    obtain ⟨⟨hdone, hshut⟩, herr⟩ := hgo
    split
    · rename_i hnone
      refine ⟨by simp [setCall], by simp [Stops, setCall], Or.inr (Or.inl ⟨hnone, by simp [setCall], ?_, ?_⟩)⟩
      · exact ⟨manual, by simp [setCall], hdone⟩
      · simp [Stops, hshut, herr]
    · refine ⟨rfl, Iff.rfl, Or.inl ⟨rfl, ?_⟩⟩
      rintro j - ⟨manual', hj, hdone'⟩
      by_cases hji : j = i
      · subst hji
        exact ⟨manual, by simp [setCall], hdone⟩
      · exact ⟨manual', by simpa [setCall, hji] using hj, hdone'⟩
  · rename_i hstop
    refine ⟨rfl, Iff.rfl, ?_⟩
    by_cases hi : s.manualcompaction = some i
    · refine Or.inr (Or.inr ⟨hi, by simp [setCall, hi], ?_⟩)
      unfold Stops
      cases hd : manual.done <;> cases hshut : s.shuttingdown <;> cases herr : s.bgerror <;> simp_all
    · refine Or.inl ⟨by simp [setCall, hi], ?_⟩
      rintro j hj ⟨manual', hmanual, hdone⟩
      have hji : j ≠ i := by
        rintro rfl
        exact hi hj
      exact ⟨manual', by simpa [setCall, hji] using hmanual, hdone⟩

/-- `BackgroundCompaction` begins to work on the registered request, or has nothing to do with it any more. -/
theorem backgroundCompaction_cases (h : Inv s) (c : Option K) (needs : Bool) :
    ∃ s', BackgroundCompaction s c needs = .next s' ∧ (Stops s → Stops s') ∧
      ((∃ i manualend, s'.background = .work (some manualend) ∧ s'.manualcompaction = some i ∧ Pending s' i) ∨
        (∀ manualend, s'.background ≠ .work (some manualend)) ∧
        ∀ i, s'.manualcompaction = some i → Pending s' i) := by
  unfold BackgroundCompaction
  split
  · exact ⟨_, rfl, id, Or.inr ⟨nofun, fun i hi => h i hi⟩⟩
  · cases hm : s.manualcompaction with
    | none =>
      cases c with
      | none => exact ⟨_, rfl, by simp [Stops], Or.inr ⟨by simp, by simp [hm]⟩⟩
      | some manualend => exact ⟨_, rfl, id, Or.inr ⟨nofun, by simp⟩⟩
    | some i =>
      obtain ⟨manual, hmanual, -⟩ := h i hm
      simp only [hmanual]
      cases c with
      | none => exact ⟨_, rfl, by simp [Stops, setCall], Or.inr ⟨by simp, by simp⟩⟩
      | some manualend =>
        refine ⟨_, rfl, id, Or.inl ⟨i, manualend, rfl, hm, ?_⟩⟩
        exact ⟨{ manual with done := false }, by simp [setCall], rfl⟩

/-- After the work no request is registered when it was a manual one, and nothing changes about the requests when it
was not. -/
theorem finish_cases (h : Inv s) {manualend : Option K} {ok needs : Bool}
    (hs : finish s manualend ok needs = .next s') : (Stops s → Stops s') ∧ s'.background = .idle ∧
      ∀ i, s'.manualcompaction = some i → Pending s' i := by
  unfold finish at hs
  dsimp only at hs
  split at hs
  · cases hs
    refine ⟨?_, by simp, fun i hi => ?_⟩
    · rintro (hstop | hstop)
      · exact Or.inl (by simpa [RecordBackgroundError] using hstop)
      · exact Or.inr (by simp [RecordBackgroundError, hstop])
    · obtain ⟨manual, hmanual, hdone⟩ := h i (by simpa [RecordBackgroundError] using hi)
      exact ⟨manual, by simpa [RecordBackgroundError] using hmanual, hdone⟩
  · split at hs
    · cases hs
    · split at hs
      · cases hs
        refine ⟨?_, by simp, by simp⟩
        rintro (hstop | hstop)
        · exact Or.inl (by simpa [RecordBackgroundError, setCall] using hstop)
        · exact Or.inr (by simp [RecordBackgroundError, setCall, hstop])
      · cases hs

/-- A step leaves the registered request and the work alone, registers a request where there is none, takes the one
that is registered away, begins to work on it, or is one of the background thread that has nothing to do with it or
ends that work. -/
theorem step_cases (h : Inv s) {a : Action K} (hs : step s a = .next s') : (Stops s → Stops s') ∧
    ((s'.manualcompaction = s.manualcompaction ∧ s'.background = s.background ∧
        ∀ i, s.manualcompaction = some i → Pending s' i) ∨
      (∃ i, s.manualcompaction = none ∧ s'.manualcompaction = some i ∧ Pending s' i ∧
        s'.background = s.background ∧ ¬ Stops s) ∨
      (∃ i needs, a = .wake i needs ∧ (∃ manual, s.calls i = .waiting manual) ∧ s.manualcompaction = some i ∧
        s'.manualcompaction = none ∧ s'.background = s.background ∧ Stops s) ∨
      (∃ i manualend, s.background = .idle ∧ s'.background = .work (some manualend) ∧ s'.manualcompaction = some i ∧
        Pending s' i) ∨
      ((∀ manualend, s'.background ≠ .work (some manualend)) ∧
        ((∀ manualend, s.background ≠ .work (some manualend)) ∨ ∃ ok needs, a = .finish ok needs) ∧
        ∀ i, s'.manualcompaction = some i → Pending s' i)) := by
  cases a with
  | call i level «begin» «end» needs =>
    simp only [step] at hs
    split at hs
    · rename_i hi
      cases hs
      obtain ⟨hb, hstops, hcases⟩ := testCompactRange_cases s i ⟨level, false, «begin», «end»⟩ needs
      refine ⟨hstops.2, ?_⟩
      rcases hcases with ⟨hm, hpending⟩ | ⟨hnone, hm, hpending, hgo⟩ | ⟨hm, -, -⟩
      · exact Or.inl ⟨hm, hb, fun j hj => hpending j hj (h j hj)⟩
      · exact Or.inr (Or.inl ⟨i, hnone, hm, hpending, hb, hgo⟩)
      · -- The request of a call that has not begun is not registered.
        obtain ⟨manual, hmanual, -⟩ := h i hm
        rw [hi] at hmanual
        cases hmanual
    · cases hs
  | wake i needs =>
    simp only [step] at hs
    split at hs
    · rename_i manual hi
      cases hs
      obtain ⟨hb, hstops, hcases⟩ := testCompactRange_cases s i manual needs
      refine ⟨hstops.2, ?_⟩
      rcases hcases with ⟨hm, hpending⟩ | ⟨hnone, hm, hpending, hgo⟩ | ⟨hm, hnone, hwhy⟩
      · exact Or.inl ⟨hm, hb, fun j hj => hpending j hj (h j hj)⟩
      · exact Or.inr (Or.inl ⟨i, hnone, hm, hpending, hb, hgo⟩)
      · refine Or.inr (Or.inr (Or.inl ⟨i, needs, rfl, ⟨manual, hi⟩, hm, hnone, hb, ?_⟩))
        obtain ⟨manual', hmanual, hdone⟩ := h i hm
        rw [hi] at hmanual
        cases hmanual
        rcases hwhy with hstop | hdone'
        · exact hstop
        · rw [hdone] at hdone'
          cases hdone'
    · cases hs
  | start c needs =>
    simp only [step] at hs
    split at hs
    · rename_i hb
      split at hs
      · split at hs
        · cases hs
          refine ⟨by simp [Stops], Or.inr (Or.inr (Or.inr (Or.inr ⟨by simp, Or.inl (by simp [hb]), ?_⟩)))⟩
          intro i hi
          simpa [Pending] using h i (by simpa using hi)
        · obtain ⟨t, ht, hstops, hcases⟩ := backgroundCompaction_cases h c needs
          rw [ht] at hs
          cases hs
          refine ⟨hstops, ?_⟩
          rcases hcases with ⟨i, manualend, hwork, hm, hpending⟩ | ⟨hwork, hpending⟩
          · exact Or.inr (Or.inr (Or.inr (Or.inl ⟨i, manualend, hb, hwork, hm, hpending⟩)))
          · exact Or.inr (Or.inr (Or.inr (Or.inr ⟨hwork, Or.inl (by simp [hb]), hpending⟩)))
      · cases hs
    · cases hs
  | memtable ok needs =>
    simp only [step] at hs
    split at hs
    · rename_i hb
      cases hs
      refine ⟨?_, Or.inr (Or.inr (Or.inr (Or.inr ⟨by simp, Or.inl (by simp [hb]), ?_⟩)))⟩
      · cases ok <;> simp [Stops, RecordBackgroundError]
      · intro i hi
        cases ok
        · simpa [Pending, RecordBackgroundError] using h i (by simpa [RecordBackgroundError] using hi)
        · simpa [Pending] using h i (by simpa using hi)
    · cases hs
  | workMemtable ok =>
    simp only [step] at hs
    split at hs
    · split at hs
      · cases hs
        cases ok
        · exact ⟨fun _ => Or.inr (by simp [RecordBackgroundError]), Or.inl ⟨rfl, rfl, fun i hi => h i hi⟩⟩
        · exact ⟨id, Or.inl ⟨rfl, rfl, fun i hi => h i hi⟩⟩
      · cases hs
    · cases hs
  | finish ok needs =>
    simp only [step] at hs
    split at hs
    · obtain ⟨hstops, hidle, hpending⟩ := finish_cases h hs
      exact ⟨hstops, Or.inr (Or.inr (Or.inr (Or.inr ⟨by simp [hidle], Or.inr ⟨ok, needs, rfl⟩, hpending⟩)))⟩
    · cases hs
  | writeError =>
    cases hs
    exact ⟨fun _ => Or.inr (by simp [RecordBackgroundError]), Or.inl ⟨rfl, rfl, fun i hi => h i hi⟩⟩
  | makeRoom needs =>
    simp only [step] at hs
    split at hs
    · cases hs
    · cases hs
      exact ⟨by simp [Stops], Or.inl ⟨by simp, by simp, fun i hi => by simpa [Pending] using h i hi⟩⟩
  | maybeSchedule needs =>
    cases hs
    exact ⟨by simp [Stops], Or.inl ⟨by simp, by simp, fun i hi => by simpa [Pending] using h i hi⟩⟩
  | shutdown =>
    cases hs
    exact ⟨fun _ => Or.inl rfl, Or.inl ⟨rfl, rfl, fun i hi => h i hi⟩⟩

/-- A caller takes its request away while the background thread works on it. -/
def Cancels (s : State K) : Action K → Prop
  | .wake i _ =>
    (∃ manual, s.calls i = .waiting manual) ∧ s.manualcompaction = some i ∧
      (∃ manualend, s.background = .work (some manualend)) ∧ Stops s
  | _ => False

theorem Inv.step (h : Inv s) {a : Action K} (hs : ManualCompaction.step s a = .next s') : Inv s' := by
  intro i hi
  rcases (step_cases h hs).2 with ⟨hm, -, hpending⟩ | ⟨j, -, hm, hpending, -⟩ | ⟨j, needs, -, -, -, hm, -⟩ |
    ⟨j, manualend, -, -, hm, hpending⟩ | ⟨-, -, hpending⟩
  · exact hpending i (hm ▸ hi)
  · rw [hm] at hi
    cases hi
    exact hpending
  · rw [hm] at hi
    cases hi
  · rw [hm] at hi
    cases hi
    exact hpending
  · exact hpending i hi

/-! ### The request after the work -/

/-- While the background thread works on a manual compaction, a request is registered. -/
def Registered (s : State K) : Prop :=
  ∀ manualend, s.background = .work (some manualend) → ∃ i, s.manualcompaction = some i

theorem Registered.step (hr : Registered s) (h : Inv s) {a : Action K} (ha : ¬ Cancels s a)
    (hs : ManualCompaction.step s a = .next s') : Registered s' := by
  intro manualend hwork
  rcases (step_cases h hs).2 with ⟨hm, hb, -⟩ | ⟨j, -, hm, -⟩ | ⟨j, needs, rfl, hj, hm, -, hb, hstop⟩ |
    ⟨j, _, -, -, hm, -⟩ | ⟨hother, -⟩
  · rw [hm]
    exact hr manualend (hb ▸ hwork)
  · exact ⟨j, hm⟩
  · exact absurd ⟨hj, hm, ⟨manualend, hb ▸ hwork⟩, hstop⟩ ha
  · exact ⟨j, hm⟩
  · exact absurd hwork (hother manualend)

/-- The thread has a request to write to, or the step is not the end of its work. -/
theorem Registered.not_aborted (hr : Registered s) (h : Inv s) (a : Action K) :
    ManualCompaction.step s a ≠ .aborted := by
  intro hs
  cases a with
  | call i level «begin» «end» needs =>
    simp only [ManualCompaction.step] at hs
    split at hs <;> cases hs
  | wake i needs =>
    simp only [ManualCompaction.step] at hs
    split at hs <;> cases hs
  | start c needs =>
    simp only [ManualCompaction.step] at hs
    split at hs
    · split at hs
      · split at hs
        · cases hs
        · obtain ⟨t, ht, -⟩ := backgroundCompaction_cases h c needs
          rw [ht] at hs
          cases hs
      · cases hs
    · cases hs
  | finish ok needs =>
    simp only [ManualCompaction.step] at hs
    split at hs
    · rename_i manualend hb
      cases manualend with
      | none => cases hs
      | some manualend =>
        obtain ⟨i, hi⟩ := hr manualend hb
        obtain ⟨manual, hmanual, -⟩ := h i hi
        simp [ManualCompaction.finish, RecordBackgroundError, hi, hmanual] at hs
    · cases hs
  | memtable ok needs =>
    simp only [ManualCompaction.step] at hs
    split at hs <;> cases hs
  | workMemtable ok =>
    simp only [ManualCompaction.step] at hs
    split at hs
    · split at hs <;> cases hs
    · cases hs
  | makeRoom needs =>
    simp only [ManualCompaction.step] at hs
    split at hs <;> cases hs
  | writeError => cases hs
  | maybeSchedule needs => cases hs
  | shutdown => cases hs

/-- The request that the thread works on was taken away: there is none, and no other one will be registered. -/
structure Lost (s : State K) : Prop where
  working : ∃ manualend, s.background = .work (some manualend)
  none : s.manualcompaction = none
  stops : Stops s

/-- A caller that takes its request away in the middle of the work leaves the thread without one. -/
theorem Cancels.lost {a : Action K} (ha : Cancels s a) :
    ∃ s', ManualCompaction.step s a = .next s' ∧ Lost s' := by
  cases a with
  | wake i needs =>
    obtain ⟨⟨manual, hi⟩, hm, ⟨manualend, hb⟩, hstop⟩ := ha
    have hleave : (!manual.done && !s.shuttingdown && !s.bgerror) = false := by
      rcases hstop with hstop | hstop <;> simp [hstop]
    refine ⟨TESTCompactRange s i manual needs, by simp [ManualCompaction.step, hi], ?_⟩
    unfold TESTCompactRange
    rw [hleave]
    exact ⟨⟨manualend, hb⟩, by simp [setCall, hm], hstop⟩
  | _ => exact absurd ha id

/-- Whenever the work of a manual compaction may end, the request that is registered is that of a caller that waits,
and the run does not end in a null pointer. -/
structure RequestsValid (as : List (Action K)) : Prop where
  accesses : ∀ before s manualend, before <+: as → run step init before = .next s →
    s.background = .work (some manualend) → ∃ i manual, s.manualcompaction = some i ∧ s.calls i = .waiting manual
  noError : run step init as ≠ .aborted

/-- That is so exactly when no caller takes its request away while the thread works on it. -/
theorem accesses_iff (as : List (Action K)) : RequestsValid as ↔ Meets step (fun s a => ¬ Cancels s a) init as := by
  constructor
  · intro h
    refine meets_of_forall ?_
    rintro before a after rfl s hrun ha
    obtain ⟨s', hs, hlost⟩ := ha.lost
    obtain ⟨manualend, hb⟩ := hlost.working
    have hnext : run step init (before ++ [a]) = .next s' := by
      rw [run_append, hrun]
      simp [Outcome.bind, run, hs]
    obtain ⟨i, manual, hi, -⟩ := h.accesses (before ++ [a]) s' manualend ⟨after, by simp⟩ hnext hb
    rw [hlost.none] at hi
    cases hi
  · intro h
    have hinit : Inv (init : State K) ∧ Registered (init : State K) := ⟨inv_init, fun _ hb => by cases hb⟩
    have hstep : ∀ (_ : List (Action K)) (s : State K) (a : Action K) (s' : State K), Inv s ∧ Registered s →
        ¬ Cancels s a → step s a = .next s' → Inv s' ∧ Registered s' := by
      rintro - s a s' ⟨hinv, hr⟩ ha hs
      exact ⟨hinv.step hs, hr.step hinv ha hs⟩
    refine ⟨?_, ?_⟩
    · rintro before s manualend ⟨after, rfl⟩ hrun hb
      obtain ⟨hinv, hr⟩ := run_invariant hinit hstep h.append.1 hrun
      obtain ⟨i, hi⟩ := hr manualend hb
      obtain ⟨manual, hmanual, -⟩ := hinv i hi
      exact ⟨i, manual, hi, hmanual⟩
    · exact run_safe hinit hstep (fun _ s a hs _ => hs.2.not_aborted hs.1 a) h

/-- The sync of a write fails while the request of a caller is worked on; the caller wakes up and leaves. -/
def syncFails : List (Action ℕ) :=
  [.call 0 1 none none false, .start (some 7) false, .writeError, .wake 0 false, .finish true false]

/-- The background thread writes through the null pointer. -/
theorem manualCompaction_cancelled : ¬ ∀ as : List (Action ℕ), RequestsValid as := by
  intro h
  exact (h syncFails).noError rfl

end RedisDb.ManualCompaction
