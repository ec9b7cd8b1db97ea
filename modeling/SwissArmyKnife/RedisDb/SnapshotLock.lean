import Mathlib.Logic.Function.Basic
import SwissArmyKnife.Lib.Transition

/-!
# Snapshots of reads

A read of several steps takes a snapshot through a `SnapshotLock`, whose destructor is to release it.  The constructor
assigns the snapshot to the caller's pointer; the member of the same name was copied from that pointer before, when it
was null.  The list of the database does not record snapshots.  `recording` says whether a list that does is put in
its place.
-/

namespace RedisDb

open Transition

structure Snapshot where
  sequencenumber : ℕ
deriving DecidableEq

/-- A `std::shared_ptr<Snapshot>`. -/
abbrev SnapshotPtr := Option Snapshot

namespace SnapshotList

/-- The snapshot is created; it is not appended to the list. -/
def NewSnapshot (lists : List Snapshot) (sequencenumber : ℕ) : Option (List Snapshot × Snapshot) :=
  if lists.isEmpty || lists.getLast?.any fun s => s.sequencenumber ≤ sequencenumber then
    some (lists, ⟨sequencenumber⟩)
  else none

/-- A list that does what the comment on `NewSnapshot` says: it appends the snapshot. -/
def recordSnapshot (lists : List Snapshot) (sequencenumber : ℕ) : Option (List Snapshot × Snapshot) :=
  (NewSnapshot lists sequencenumber).map fun r => (r.1 ++ [r.2], r.2)

/-- The loop of `DeleteSnapshot`; it is an error when the pointer is null and there is a snapshot to compare with. -/
def DeleteSnapshot : List Snapshot → SnapshotPtr → Option (List Snapshot)
  | [], _ => some []
  | _ :: _, none => none
  | s :: lists, some snapshot =>
    if s.sequencenumber = snapshot.sequencenumber then some lists
    else (DeleteSnapshot lists (some snapshot)).map fun lists => s :: lists

end SnapshotList

/-- The members of `DB` that snapshots are about. -/
structure SnapshotDb where
  lastsequence : ℕ
  snapshots : List Snapshot

namespace SnapshotDb

def GetSnapshot (recording : Bool) (db : SnapshotDb) : Option (SnapshotDb × Snapshot) :=
  (if recording then SnapshotList.recordSnapshot db.snapshots db.lastsequence
    else SnapshotList.NewSnapshot db.snapshots db.lastsequence).map fun r => ({ db with snapshots := r.1 }, r.2)

def ReleaseSnapshot (db : SnapshotDb) (snapshot : SnapshotPtr) : Option SnapshotDb :=
  (SnapshotList.DeleteSnapshot db.snapshots snapshot).map fun snapshots => { db with snapshots := snapshots }

/-- What `DoCompactionWork` starts with. -/
def smallestsnapshot (db : SnapshotDb) : ℕ :=
  match db.snapshots with
  | [] => db.lastsequence
  | oldest :: _ => oldest.sequencenumber

end SnapshotDb

/-- The member `snapshot`. -/
structure SnapshotLock where
  snapshot : SnapshotPtr

namespace SnapshotLock

/-- The constructor, with the pointer of the caller before and after it. -/
def new (recording : Bool) (db : SnapshotDb) (snapshot : SnapshotPtr) :
    Option (SnapshotDb × SnapshotLock × SnapshotPtr) :=
  let lock : SnapshotLock := ⟨snapshot⟩
  (db.GetSnapshot recording).map fun r => (r.1, lock, some r.2)

def destroy (lock : SnapshotLock) (db : SnapshotDb) : Option SnapshotDb := db.ReleaseSnapshot lock.snapshot

end SnapshotLock

/-! ### Runs -/

namespace SnapshotReads

/-- A read in progress: its lock and its local variable `snapshot`. -/
structure Read where
  lock : SnapshotLock
  snapshot : SnapshotPtr

structure State where
  db : SnapshotDb
  reads : ℕ → Option Read

inductive Action where
  /-- A write of `n` entries. -/
  | write (n : ℕ)
  /-- A read declares its pointer, which is null, and its lock. -/
  | start (i : ℕ)
  /-- A read returns, which destroys its lock. -/
  | finish (i : ℕ)

def init : State := ⟨⟨0, []⟩, fun _ => none⟩

def step (recording : Bool) (s : State) : Action → Outcome State
  | .write n => .next { s with db := { s.db with lastsequence := s.db.lastsequence + n } }
  | .start i =>
    match s.reads i with
    | some _ => .disabled
    | none =>
      (Outcome.ofOption (SnapshotLock.new recording s.db none)).bind fun r =>
        .next ⟨r.1, Function.update s.reads i (some ⟨r.2.1, r.2.2⟩)⟩
  | .finish i =>
    match s.reads i with
    | none => .disabled
    | some read =>
      (Outcome.ofOption (read.lock.destroy s.db)).bind fun db => .next ⟨db, Function.update s.reads i none⟩

/-- A read that finishes releases the snapshot that it got. -/
def ReleasesItsOwn (s : State) (a : Action) : Prop :=
  ∀ i read, a = .finish i → s.reads i = some read → read.snapshot.isSome ∧ read.lock.snapshot = read.snapshot

/-- Each read releases the snapshot that it got, and when no read is left nothing holds the old entries. -/
structure Released (recording : Bool) (as : List Action) : Prop where
  own : Meets (step recording) ReleasesItsOwn init as
  noError : run (step recording) init as ≠ .aborted
  restored : ∀ s, run (step recording) init as = .next s → (∀ i, s.reads i = none) →
    s.db.snapshots = [] ∧ s.db.smallestsnapshot = s.db.lastsequence

/-- A read is finished. -/
def Finishes (s : State) (a : Action) : Prop := ∃ i read, a = .finish i ∧ s.reads i = some read

/-! ### The invariant -/

/-- The lock of each read holds the null pointer and not the snapshot of the read, no recorded snapshot is newer than
the last sequence number, and there are none before there was a read. -/
structure Inv (s : State) : Prop where
  null : ∀ i read, s.reads i = some read → read.lock.snapshot = none ∧ read.snapshot.isSome
  le : ∀ x ∈ s.db.snapshots, x.sequencenumber ≤ s.db.lastsequence
  empty : (∀ i, s.reads i = none) → s.db.snapshots = []

variable {recording : Bool} {s s' : State} {i : ℕ}

theorem inv_init : Inv init := ⟨by simp [init], by simp [init], fun _ => rfl⟩

private theorem newSnapshot_eq {lists : List Snapshot} {n : ℕ} (h : ∀ x ∈ lists, x.sequencenumber ≤ n) :
    SnapshotList.NewSnapshot lists n = some (lists, ⟨n⟩) := by
  unfold SnapshotList.NewSnapshot
  rw [if_pos]
  cases hl : lists.getLast? with
  | none => simp [List.getLast?_eq_none_iff.1 hl]
  | some x => simp [h x (List.mem_of_getLast? hl)]

/-- A read starts with a new snapshot in its own variable and the null pointer in its lock. -/
theorem step_start (recording : Bool) (h : Inv s) (hi : s.reads i = none) : ∃ snapshots,
    step recording s (.start i) = .next ⟨{ s.db with snapshots := snapshots },
      Function.update s.reads i (some ⟨⟨none⟩, some ⟨s.db.lastsequence⟩⟩)⟩ ∧
      ∀ x ∈ snapshots, x ∈ s.db.snapshots ∨ x = ⟨s.db.lastsequence⟩ := by
  have hnew := newSnapshot_eq h.le
  cases recording with
  | false =>
    refine ⟨s.db.snapshots, ?_, fun x hx => Or.inl hx⟩
    simp [step, hi, SnapshotLock.new, SnapshotDb.GetSnapshot, hnew, Outcome.ofOption, Outcome.bind]
  | true =>
    refine ⟨s.db.snapshots ++ [⟨s.db.lastsequence⟩], ?_, fun x hx => by simpa using hx⟩
    simp [step, hi, SnapshotLock.new, SnapshotDb.GetSnapshot, SnapshotList.recordSnapshot, hnew, Outcome.ofOption,
      Outcome.bind]

theorem step_finish_of_none (hi : s.reads i = none) : step recording s (.finish i) = .disabled := by
  simp [step, hi]

theorem Inv.step (h : Inv s) {a : Action} (ha : ¬ Finishes s a) (hs : SnapshotReads.step recording s a = .next s') :
    Inv s' := by
  cases a with
  | write n =>
    cases hs
    exact ⟨h.null, fun x hx => Nat.le_trans (h.le x hx) (Nat.le_add_right ..), h.empty⟩
  | start i =>
    cases hi : s.reads i with
    | some read => simp [SnapshotReads.step, hi] at hs
    | none =>
      obtain ⟨snapshots, hstep, hmem⟩ := step_start recording h hi
      rw [hstep] at hs
      cases hs
      refine ⟨?_, ?_, ?_⟩
      · intro j read hj
        dsimp only at hj
        by_cases hji : j = i
        · subst hji
          rw [Function.update_self, Option.some_inj] at hj
          subst hj
          exact ⟨rfl, rfl⟩
        · rw [Function.update_of_ne hji] at hj
          exact h.null j read hj
      · intro x hx
        rcases hmem x hx with hx | rfl
        · exact h.le x hx
        · exact Nat.le_refl _
      · intro hnone
        simpa using hnone i
  | finish i =>
    cases hi : s.reads i with
    | none =>
      rw [step_finish_of_none hi] at hs
      cases hs
    | some read => exact absurd ⟨i, read, rfl, hi⟩ ha

theorem Inv.not_aborted (h : Inv s) {a : Action} (ha : ¬ Finishes s a) :
    SnapshotReads.step recording s a ≠ .aborted := by
  cases a with
  | write n => exact nofun
  | start i =>
    cases hi : s.reads i with
    | some read => simp [SnapshotReads.step, hi]
    | none =>
      obtain ⟨snapshots, hstep, -⟩ := step_start recording h hi
      rw [hstep]
      exact nofun
  | finish i =>
    cases hi : s.reads i with
    | none =>
      rw [step_finish_of_none hi]
      exact nofun
    | some read => exact absurd ⟨i, read, rfl, hi⟩ ha

/-- Every read that finishes has the null pointer released for it.  So the snapshots are released exactly when no read
finishes, whether or not the list records them. -/
theorem released_iff (recording : Bool) (as : List Action) :
    Released recording as ↔ Meets (SnapshotReads.step recording) (fun s a => ¬ Finishes s a) init as := by
  constructor
  · intro h
    refine h.own.of_invariant ?_ (fun s a s' hs ha => hs.step ha) inv_init
    rintro s a hs hown ⟨i, read, ha, hi⟩
    obtain ⟨hsome, heq⟩ := hown i read ha hi
    rw [← heq, (hs.null i read hi).1] at hsome
    cases hsome
  · intro h
    let P (_ : List Action) (s : State) : Prop := Inv s
    have hinit : P [] init := inv_init
    have hstep : ∀ as s a s', P as s → ¬ Finishes s a → SnapshotReads.step recording s a = .next s' →
        P (as ++ [a]) s' := fun _ s a s' hs ha => Inv.step hs ha
    refine ⟨h.mono ?_, run_safe hinit hstep (fun _ s a hs ha => Inv.not_aborted hs ha) h, ?_⟩
    · intro s a ha i read haction hi
      exact absurd ⟨i, read, haction, hi⟩ ha
    · intro s hrun hnone
      have hs : Inv s := run_invariant hinit hstep h hrun
      have hnil := hs.empty hnone
      exact ⟨hnil, by rw [SnapshotDb.smallestsnapshot, hnil]⟩

/-- One read, with a list that records its snapshot: the destructor hands the null pointer to `DeleteSnapshot`, which
compares with it. -/
theorem not_released_read : ¬ ∀ as, Released true as := by
  intro h
  exact (h [.start 0, .finish 0]).noError rfl

end SnapshotReads

end RedisDb
