import SwissArmyKnife.Lib.Transition
import Mathlib.Data.Int.Log
import Mathlib.Data.Rat.Floor
import Mathlib.Algebra.Order.Field.Rat
import Mathlib.Data.List.FinRange
import Mathlib.Logic.Function.Basic

/-!
# Locks on several instances

`lock` sets a value on each of the instances and has the lock when a majority did so in time; otherwise it unlocks,
waits and tries again.  The number `n` of instances that did so is set to zero before the first attempt only, and the
value is freed after the first attempt although it is used in what follows.  A call is named by its value, and what a
read of the freed value gives is part of the action.  Each further attempt frees the value once more.  Where this ends
the program no lock is returned, and these are runs that end before it.
-/

namespace RedLock

open Transition (Outcome Meets run)

/-! ### The validity time -/

/-- The next integer, and the even one of two. -/
def roundEven (x : ℚ) : ℤ :=
  let fraction := x - ⌊x⌋
  if fraction < 1 / 2 then ⌊x⌋ else if 1 / 2 < fraction then ⌊x⌋ + 1 else if ⌊x⌋ % 2 = 0 then ⌊x⌋ else ⌊x⌋ + 1

/-- The next number with 24 binary digits. -/
def toFloat (x : ℚ) : ℚ :=
  if x = 0 then 0
  else
    let unit : ℚ := 2 ^ (Int.log 2 |x| - 23)
    roundEven (x / unit) * unit

/-- The `float` that is next to 0.01. -/
def clockDriftFactor : ℚ := toFloat (1 / 100)

/-- What an assignment to an integer keeps. -/
def truncate (x : ℚ) : ℤ := if 0 ≤ x then ⌊x⌋ else ⌈x⌉

def drift (ttl : Int32) : ℤ := truncate (toFloat (toFloat (toFloat ttl.toInt * clockDriftFactor) + 2))

/-- The validity time, before it is stored in 32 bits. -/
def validity (ttl : Int32) (elapsed : ℤ) : ℤ := ttl.toInt - elapsed - drift ttl

/-! ### Instances and calls -/

/-- What an instance holds for a resource, up to the time when it expires. -/
structure Entry (V : Type*) where
  value : V
  expires : ℤ
deriving DecidableEq, Repr

/-- Where a call is.  The instances that are still to be asked come with the phases that ask them. -/
inductive Phase (N : ℕ) where
  | locking (left : List (Fin N))
  | unlocking (left : List (Fin N))
  | held (expires : ℤ)
  | releasing (left : List (Fin N))
  | returned
deriving DecidableEq, Repr

/-- A call of `lock`.  The instances that have granted the value in the present attempt are noted in `granted`. -/
structure Call (N : ℕ) (R : Type*) where
  resource : R
  ttl : Int32
  freed : Bool
  count : ℤ
  n : ℕ
  startTime : ℤ
  phase : Phase N
  granted : List (Fin N)
deriving DecidableEq

structure State (N : ℕ) (R V : Type*) where
  now : ℤ
  store : Fin N → R → Option (Entry V)
  calls : V → Option (Call N R)

/-- The steps of time and of the calls.  A command is executed or not, and its reply may get lost. -/
inductive Action (N : ℕ) (R V : Type*) where
  | tick (ms : ℕ)
  | lock (resource : R) (ttl : Int32) (val : V)
  | lockInstance (val : V) (server : Fin N) (executed replied : Bool) (read : V)
  | returnLock (val : V)
  | unlockInstance (val : V) (server : Fin N) (executed : Bool) (read : V)
  | retry (val : V)
  | unlock (val : V)
deriving DecidableEq

variable {N : ℕ} {R V : Type*} [DecidableEq R] [DecidableEq V]

/-- The quorum is set when a server is added. -/
def quoRum : ℕ → ℕ
  | 0 => 0
  | N + 1 => (N + 1) / 2 + 1

def State.init : State N R V := ⟨0, fun _ _ => none, fun _ => none⟩

namespace State

variable (s : State N R V)

/-- What an instance has under a resource that has not expired. -/
def get (server : Fin N) (resource : R) : Option V :=
  match s.store server resource with
  | some e => if s.now < e.expires then some e.value else none
  | none => none

/-- `set resource value px ttl nx`, and whether it answers `OK`. -/
def setNX (server : Fin N) (resource : R) (value : V) (ttl : Int32) : State N R V × Bool :=
  if 0 < ttl.toInt ∧ s.get server resource = none then
    let store := Function.update (s.store server) resource (some ⟨value, s.now + ttl.toInt⟩)
    ({ s with store := Function.update s.store server store }, true)
  else (s, false)

/-- The script that deletes a value of its own. -/
def unlockScript (server : Fin N) (resource : R) (value : V) : State N R V :=
  if s.get server resource = some value then
    { s with store := Function.update s.store server (Function.update (s.store server) resource none) }
  else s

/-- A call goes on. -/
def put (val : V) (call : Call N R) : State N R V :=
  { s with calls := Function.update s.calls val (some call) }

end State

/-- The value that a command of a call sends. -/
def Call.value (call : Call N R) (val read : V) : V := if call.freed then read else val

/-- What is left to be asked, or the end of `unlock`. -/
def releasing (left : List (Fin N)) : Phase N := if left = [] then .returned else .releasing left

def step (retryCount : ℤ) (s : State N R V) : Action N R V → Outcome (State N R V)
  | .tick ms => .next { s with now := s.now + ms }
  | .lock resource ttl val =>
    -- no two calls have the same value
    match s.calls val with
    | some _ => .disabled
    | none => .next (s.put val ⟨resource, ttl, false, retryCount, 0, s.now, .locking (List.finRange N), []⟩)
  | .lockInstance val server executed replied read =>
    match s.calls val with
    | none => .disabled
    | some call =>
      match call.phase with
      | .locking left =>
        if server ∈ left then
          let r := if executed then s.setNX server call.resource (call.value val read) call.ttl else (s, false)
          let call := { call with phase := .locking (left.erase server) }
          if r.2 && replied then .next (r.1.put val { call with n := call.n + 1, granted := server :: call.granted })
          else .next (r.1.put val call)
        else .disabled
      | _ => .disabled
  | .returnLock val =>
    match s.calls val with
    | none => .disabled
    | some call =>
      match call.phase with
      | .locking [] =>
        let validityTime := Int32.ofInt (validity call.ttl (s.now - call.startTime))
        let call := { call with freed := true }
        if quoRum N ≤ call.n ∧ 0 < validityTime.toInt then
          .next (s.put val { call with phase := .held (s.now + validityTime.toInt) })
        else .next (s.put val { call with phase := .unlocking (List.finRange N) })
      | _ => .disabled
  | .unlockInstance val server executed read =>
    match s.calls val with
    | none => .disabled
    | some call =>
      let s' := if executed then s.unlockScript server call.resource (call.value val read) else s
      match call.phase with
      | .unlocking left =>
        if server ∈ left then .next (s'.put val { call with phase := .unlocking (left.erase server) })
        else .disabled
      | .releasing left =>
        if server ∈ left then .next (s'.put val { call with phase := releasing (left.erase server) })
        else .disabled
      | _ => .disabled
  | .retry val =>
    match s.calls val with
    | none => .disabled
    | some call =>
      match call.phase with
      | .unlocking [] =>
        let count := call.count - 1
        if 0 < count then
          .next (s.put val { call with
            count := count
            startTime := s.now
            phase := .locking (List.finRange N)
            granted := [] })
        else .next (s.put val { call with count := count, phase := .returned })
      | _ => .disabled
  | .unlock val =>
    match s.calls val with
    | none => .disabled
    | some call =>
      match call.phase with
      | .held _ => .next (s.put val { call with phase := releasing (List.finRange N) })
      | .returned => .next (s.put val { call with phase := releasing (List.finRange N) })
      | _ => .disabled

/-- The call has the lock, and its validity time is not over. -/
def State.Holds (s : State N R V) (resource : R) (val : V) : Prop :=
  ∃ call expires, s.calls val = some call ∧ call.resource = resource ∧ call.phase = .held expires ∧ s.now < expires

instance (s : State N R V) (resource : R) (val : V) : Decidable (s.Holds resource val) :=
  match h : s.calls val with
  | none => isFalse fun ⟨call, expires, hcall, _⟩ => by simp [h] at hcall
  | some call =>
    match h' : call.phase with
    | .held expires => decidable_of_iff (call.resource = resource ∧ s.now < expires) (by simp [State.Holds, h, h'])
    | .locking _ | .unlocking _ | .releasing _ | .returned => isFalse fun ⟨call, expires, hcall, _, hphase, _⟩ => by
      rw [h] at hcall
      cases hcall
      simp [h'] at hphase

/-- A call that has returned true was granted its value by a majority in the attempt that succeeded, and at most one
call has the lock on a resource. -/
structure State.Exclusive (s : State N R V) : Prop where
  majority : ∀ val call expires, s.calls val = some call → call.phase = .held expires →
    N / 2 + 1 ≤ call.granted.length ∧ call.granted.Nodup
  exclusive : ∀ resource val val', s.Holds resource val → s.Holds resource val' → val = val'

end RedLock
