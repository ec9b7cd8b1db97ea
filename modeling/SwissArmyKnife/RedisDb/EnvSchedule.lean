import Mathlib.Algebra.Ring.Nat
import Mathlib.Logic.Function.Basic
import SwissArmyKnife.Lib.Transition

/-!
# The background thread of `Env`

`Schedule` takes `bgmutex`, starts the background thread when there is none, and puts a functor into the queue.  The
thread takes the mutex, waits for a functor, and calls it with the mutex still taken.  A functor that calls
`Schedule`, as `BackgroundCallback` does when there is more work, so makes the thread wait for itself.
-/

namespace RedisDb.EnvSchedule

open Transition

variable {τ : Type*}

/-- A `std::function<void()>`: the empty one, a callback of one of the databases, or another task. -/
inductive Functor (τ : Type*) where
  | empty
  | BackgroundCallback (db : ℕ)
  | task (t : τ)
deriving DecidableEq, Repr

inductive Thread where
  | client (i : ℕ)
  | background
deriving DecidableEq, Repr

/-- Where a client is.  In `Schedule` it is before the lock or has it; `exiting` when `ExitSchedule` made the call. -/
inductive Client (τ : Type*) where
  | idle
  | schedule (func : Functor τ) (exiting : Bool)
  | locked (func : Functor τ) (exiting : Bool)
  | join
deriving DecidableEq, Repr

/-- Where `BackgroundThreadMain` is.  A functor `func` that runs may itself be in a call of `Schedule`. -/
inductive Background (τ : Type*) where
  | none
  | loop
  | lock
  | test
  | wait
  | body (func : Functor τ)
  | schedule (func called : Functor τ)
  | locked (func called : Functor τ)
  | done
  | exited
deriving DecidableEq, Repr

/-- The members of `Env` that its scheduler uses, its threads, and the flag of each database. -/
structure State (τ : Type*) where
  shuttingdown : Bool
  startbgthread : Bool
  bgmutex : Option Thread
  bgqueue : List (Functor τ)
  clients : ℕ → Client τ
  background : Background τ
  bgcompactionscheduled : ℕ → Bool

/-- What `MaybeScheduleCompaction` reads of a database besides its flag; `imm` and `manualcompaction` say whether the
pointer is set, and `bgerror` whether the status is an error. -/
structure Members where
  shuttingdown : Bool
  bgerror : Bool
  imm : Bool
  manualcompaction : Bool
  NeedsCompaction : Bool
deriving DecidableEq, Repr

/-- Whether the function sets the flag and calls `Schedule`. -/
def MaybeScheduleCompaction (bgcompactionscheduled : Bool) (db : Members) : Bool :=
  if bgcompactionscheduled then false
  else if db.shuttingdown then false
  else if db.bgerror then false
  else if !db.imm && !db.manualcompaction && !db.NeedsCompaction then false
  else true

inductive Action (τ : Type*) where
  /-- A client calls `Schedule`. -/
  | schedule (i : ℕ) (t : τ)
  /-- A client calls `MaybeScheduleCompaction`. -/
  | maybeSchedule (i db : ℕ) (members : Members)
  | exitSchedule (i : ℕ)
  | join (i : ℕ)
  /-- A thread that needs `bgmutex` gets it. -/
  | acquire (t : Thread)
  /-- A thread goes through `Schedule` once it has the mutex. -/
  | push (t : Thread)
  /-- The background thread tests `shuttingdown`. -/
  | loop
  /-- The background thread tests the queue, and waits or takes the first functor. -/
  | test
  /-- The task that runs calls `Schedule`. -/
  | call (t : τ)
  /-- `BackgroundCallback` has done its work and goes on to its end. -/
  | callback (members : Members)
  /-- The task that runs returns. -/
  | finish
  /-- The background thread gives the mutex back at the end of its loop. -/
  | unlock
deriving DecidableEq, Repr

def init : State τ := ⟨false, false, none, [], fun _ => .idle, .none, fun _ => false⟩

/-- `Schedule` after its lock. -/
def Schedule (s : State τ) (func : Functor τ) : State τ :=
  { s with
    startbgthread := true
    background := if s.startbgthread then s.background else .loop
    bgqueue := s.bgqueue ++ [func]
    bgmutex := none }

/-- The call of `Schedule` in the body of a functor returns. -/
def Background.after : Functor τ → Background τ
  | .BackgroundCallback _ => .done
  | func => .body func

/-- A client goes on. -/
def setClient (s : State τ) (i : ℕ) (c : Client τ) : State τ := { s with clients := Function.update s.clients i c }

/-- A client or a callback sets the flag of a database. -/
def setScheduled (s : State τ) (db : ℕ) (b : Bool) : State τ :=
  { s with bgcompactionscheduled := Function.update s.bgcompactionscheduled db b }

/-- The lock of `Schedule` or of the loop, or the end of a wait, which may come at any time. -/
def acquire (s : State τ) : Thread → Outcome (State τ)
  | .client i =>
    match s.clients i with
    | .schedule func exiting =>
      .next { setClient s i (.locked func exiting) with bgmutex := some (.client i) }
    | _ => .disabled
  | .background =>
    match s.background with
    | .lock | .wait => .next { s with bgmutex := some .background, background := .test }
    | .schedule func called => .next { s with bgmutex := some .background, background := .locked func called }
    | _ => .disabled

def push (s : State τ) : Thread → Outcome (State τ)
  | .client i =>
    match s.clients i with
    | .locked func exiting => .next (Schedule (setClient s i (if exiting then .join else .idle)) func)
    | _ => .disabled
  | .background =>
    match s.background with
    | .locked func called => .next { Schedule s called with background := Background.after func }
    | _ => .disabled

def step (s : State τ) : Action τ → Outcome (State τ)
  | .schedule i t =>
    match s.clients i with
    | .idle => .next (setClient s i (.schedule (.task t) false))
    | _ => .disabled
  | .maybeSchedule i db members =>
    match s.clients i with
    | .idle =>
      if MaybeScheduleCompaction (s.bgcompactionscheduled db) members then
        .next (setScheduled (setClient s i (.schedule (.BackgroundCallback db) false)) db true)
      else .next s
    | _ => .disabled
  | .exitSchedule i =>
    match s.clients i with
    | .idle =>
      if s.startbgthread then .next { setClient s i (.schedule .empty true) with shuttingdown := true }
      else .next s
    | _ => .disabled
  | .join i =>
    match s.clients i, s.background with
    | .join, .exited => .next { setClient s i .idle with startbgthread := false }
    | _, _ => .disabled
  | .acquire t => if s.bgmutex = none then acquire s t else .disabled
  | .push t => push s t
  | .loop =>
    match s.background with
    | .loop => .next { s with background := if s.shuttingdown then .exited else .lock }
    | _ => .disabled
  | .test =>
    match s.background, s.bgqueue with
    | .test, [] => .next { s with bgmutex := none, background := .wait }
    | .test, .empty :: bgqueue => .next { s with bgqueue := bgqueue, background := .done }
    | .test, func :: bgqueue => .next { s with bgqueue := bgqueue, background := .body func }
    | _, _ => .disabled
  | .call t =>
    match s.background with
    | .body (.task u) => .next { s with background := .schedule (.task u) (.task t) }
    | _ => .disabled
  | .callback members =>
    match s.background with
    | .body (.BackgroundCallback db) =>
      -- `assert(bgcompactionscheduled)`; the flag is then cleared, and set again when there is more work.
      if s.bgcompactionscheduled db then
        if MaybeScheduleCompaction false members then
          .next { s with background := .schedule (.BackgroundCallback db) (.BackgroundCallback db) }
        else .next { setScheduled s db false with background := .done }
      else .aborted
    | _ => .disabled
  | .finish =>
    match s.background with
    | .body (.task _) => .next { s with background := .done }
    | _ => .disabled
  | .unlock =>
    match s.background with
    | .done => .next { s with bgmutex := none, background := .loop }
    | _ => .disabled

/-! ### The invariant -/

/-- The thread is at a statement that takes the mutex, or waits for the condition and will take it again. -/
def Acquires (s : State τ) : Thread → Prop
  | .client i => ∃ func exiting, s.clients i = .schedule func exiting
  | .background => s.background = .lock ∨ s.background = .wait ∨ ∃ func called, s.background = .schedule func called

/-- The client is between the lock and the end of `Schedule`. -/
def Client.holds : Client τ → Bool
  | .locked _ _ => true
  | _ => false

/-- The thread is between the lock and the end of its loop, and does not wait. -/
def Background.holds : Background τ → Bool
  | .none | .loop | .lock | .wait | .exited => false
  | _ => true

def Holds (s : State τ) : Thread → Bool
  | .client i => (s.clients i).holds
  | .background => s.background.holds

def Functor.callbacks (db : ℕ) : Functor τ → ℕ
  | .BackgroundCallback db' => if db' = db then 1 else 0
  | _ => 0

def Client.callbacks (db : ℕ) : Client τ → ℕ
  | .schedule func _ | .locked func _ => func.callbacks db
  | _ => 0

def Background.callbacks (db : ℕ) : Background τ → ℕ
  | .body func => func.callbacks db
  | .schedule _ called | .locked _ called => called.callbacks db
  | _ => 0

/-- Where a callback can be. -/
inductive Place where
  | client (i : ℕ)
  | queued
  | running
deriving DecidableEq

/-- The number of callbacks of a database at a place. -/
def callbacks (s : State τ) (db : ℕ) : Place → ℕ
  | .client i => (s.clients i).callbacks db
  | .queued => (s.bgqueue.map (Functor.callbacks db)).sum
  | .running => s.background.callbacks db

/-- There is one, at one place, when the flag is set, and there is none else. -/
def OneWhen (count : Place → ℕ) (flag : Bool) : Prop :=
  ∃ p, count p = flag.toNat ∧ ∀ q, q ≠ p → count q = 0

theorem OneWhen.congr {count count' : Place → ℕ} {flag : Bool} (h : OneWhen count flag)
    (heq : ∀ p, count' p = count p) : OneWhen count' flag := by
  obtain ⟨p, hp, hother⟩ := h
  exact ⟨p, by rw [heq, hp], fun q hq => by rw [heq, hother q hq]⟩

/-- A callback may go from one place to another. -/
theorem OneWhen.move {count count' : Place → ℕ} {flag : Bool} (h : OneWhen count flag) {p q : Place} (hpq : p ≠ q)
    (hsum : count' p + count' q = count p + count q) (hother : ∀ r, r ≠ p → r ≠ q → count' r = count r) :
    OneWhen count' flag := by
  obtain ⟨r, hr, hzero⟩ := h
  by_cases hrpq : r = p ∨ r = q
  · have hsum' : count' p + count' q = flag.toNat := by
      rcases hrpq with rfl | rfl
      · have := hzero q hpq.symm
        omega
      · have := hzero p hpq
        omega
    have hrest : ∀ r', r' ≠ p → r' ≠ q → count' r' = 0 := by
      intro r' hp hq
      rw [hother r' hp hq]
      refine hzero r' ?_
      rintro rfl
      exact hrpq.elim hp hq
    have hle : flag.toNat ≤ 1 := Bool.toNat_le flag
    by_cases hp : count' p = 0
    · refine ⟨q, by omega, ?_⟩
      intro r' hr'
      by_cases hr'p : r' = p
      · rw [hr'p, hp]
      · exact hrest r' hr'p hr'
    · refine ⟨p, by omega, ?_⟩
      intro r' hr'
      by_cases hr'q : r' = q
      · subst hr'q
        omega
      · exact hrest r' hr' hr'q
  · rw [not_or] at hrpq
    refine ⟨r, by rw [hother r hrpq.1 hrpq.2, hr], ?_⟩
    intro r' hr'
    have hp := hzero p (Ne.symm hrpq.1)
    have hq := hzero q (Ne.symm hrpq.2)
    by_cases hr'p : r' = p
    · subst hr'p
      omega
    · by_cases hr'q : r' = q
      · subst hr'q
        omega
      · rw [hother r' hr'p hr'q, hzero r' hr']

theorem OneWhen.eq_zero {count : Place → ℕ} (h : OneWhen count false) (p : Place) : count p = 0 := by
  obtain ⟨q, hq, hother⟩ := h
  by_cases hpq : p = q
  · rw [hpq, hq]
    rfl
  · exact hother p hpq

theorem OneWhen.flag {count : Place → ℕ} {flag : Bool} (h : OneWhen count flag) {p : Place} (hp : count p ≠ 0) :
    flag = true := by
  cases flag with
  | true => rfl
  | false => exact absurd (h.eq_zero p) hp

theorem OneWhen.spawn {count count' : Place → ℕ} (h : OneWhen count false) {p : Place} (hp : count' p = 1)
    (hother : ∀ q, q ≠ p → count' q = count q) : OneWhen count' true :=
  ⟨p, hp, fun q hq => by rw [hother q hq, h.eq_zero q]⟩

theorem OneWhen.drop {count count' : Place → ℕ} (h : OneWhen count true) {p : Place} (hcount : count p ≠ 0)
    (hp : count' p = 0) (hother : ∀ q, q ≠ p → count' q = count q) : OneWhen count' false := by
  obtain ⟨r, -, hzero⟩ := h
  have hrp : p = r := by
    by_contra hne
    exact hcount (hzero p hne)
  subst hrp
  exact ⟨p, hp, fun q hq => by rw [hother q hq, hzero q hq]⟩

/-- The mutex belongs to the thread that is in a part of the code where it has it, there is a thread for each functor
that is not done, and a database has one callback when its flag is set. -/
structure Inv (s : State τ) : Prop where
  owner : ∀ t, s.bgmutex = some t ↔ Holds s t = true
  started : s.startbgthread = false → s.background = .none ∨ s.background = .exited
  notLocked : ∀ func called, s.background ≠ .locked func called
  callback : ∀ db, OneWhen (callbacks s db) (s.bgcompactionscheduled db)

variable {s s' : State τ}

theorem inv_init : Inv (init : State τ) := by
  refine ⟨?_, fun _ => Or.inl rfl, by simp [init], fun db => ⟨.queued, rfl, ?_⟩⟩
  · rintro (i | _) <;> simp [init, Holds, Client.holds, Background.holds]
  · rintro (i | _ | _) - <;> rfl

@[simp] theorem callbacks_setClient (i : ℕ) (c : Client τ) (db : ℕ) (p : Place) :
    callbacks (setClient s i c) db p =
      Function.update (callbacks s db) (.client i) (c.callbacks db) p := by
  cases p with
  | client j =>
    by_cases hji : j = i
    · subst hji
      simp [callbacks, setClient]
    · simp [callbacks, setClient, hji]
  | queued => simp [callbacks, setClient]
  | running => simp [callbacks, setClient]

theorem holds_setClient (i : ℕ) (c : Client τ) (t : Thread) :
    Holds (setClient s i c) t = if t = .client i then c.holds else Holds s t := by
  cases t with
  | client j =>
    by_cases hji : j = i
    · subst hji
      simp [Holds, setClient]
    · simp [Holds, setClient, hji]
  | background => simp [Holds, setClient]

/-- A client that goes on, and neither takes the mutex nor gives it back, nor drops a callback. -/
theorem Inv.client (h : Inv s) {i : ℕ} {c : Client τ} (hholds : c.holds = (s.clients i).holds)
    (hcb : ∀ db, c.callbacks db = (s.clients i).callbacks db) : Inv (setClient s i c) := by
  refine ⟨?_, h.started, h.notLocked, ?_⟩
  · intro t
    rw [holds_setClient]
    split
    · rename_i ht
      subst ht
      rw [hholds]
      exact h.owner (.client i)
    · exact h.owner t
  · intro db
    refine (h.callback db).congr ?_
    intro p
    rw [callbacks_setClient, hcb]
    exact congrFun (Function.update_eq_self _ _) p

/-- The background thread goes on in the same way. -/
theorem Inv.background (h : Inv s) {b : Background τ} (hholds : b.holds = s.background.holds)
    (hcb : ∀ db, b.callbacks db = s.background.callbacks db) (hlocked : ∀ func called, b ≠ .locked func called)
    (hstarted : s.startbgthread = false → b = .none ∨ b = .exited) : Inv { s with background := b } := by
  refine ⟨?_, hstarted, hlocked, ?_⟩
  · intro t
    cases t with
    | client i => exact h.owner (.client i)
    | background =>
      show _ ↔ b.holds = true
      rw [hholds]
      exact h.owner .background
  · intro db
    refine (h.callback db).congr ?_
    intro p
    cases p with
    | client i => rfl
    | queued => rfl
    | running => exact hcb db

theorem Inv.holds_unique (h : Inv s) {t t' : Thread} (ht : Holds s t = true) (ht' : Holds s t' = true) : t = t' := by
  have heq := (h.owner t).2 ht
  rw [(h.owner t').2 ht'] at heq
  exact (Option.some.inj heq).symm

/-- Nobody is in the part of the code that has the mutex when it is free. -/
theorem Inv.free (h : Inv s) (hfree : s.bgmutex = none) (t : Thread) : Holds s t = false := by
  cases ht : Holds s t with
  | false => rfl
  | true => simp [(h.owner t).2 ht] at hfree

/-- The background thread is there when it is in its loop. -/
theorem Inv.there (h : Inv s) (hnone : s.background ≠ .none) (hexited : s.background ≠ .exited) :
    s.startbgthread = true := by
  cases hs : s.startbgthread with
  | true => rfl
  | false =>
    rcases h.started hs with hb | hb
    · exact absurd hb hnone
    · exact absurd hb hexited

/-- The thread is there, and goes on with what it had. -/
theorem Inv.goesOn (h : Inv s) (hnone : s.background ≠ .none) (hexited : s.background ≠ .exited) {b : Background τ}
    (hholds : b.holds = s.background.holds) (hcb : ∀ db, b.callbacks db = s.background.callbacks db)
    (hlocked : ∀ func called, b ≠ .locked func called) : Inv { s with background := b } := by
  refine h.background hholds hcb hlocked fun hstart => ?_
  rw [h.there hnone hexited] at hstart
  cases hstart

end RedisDb.EnvSchedule
