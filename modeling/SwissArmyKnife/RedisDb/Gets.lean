import Mathlib.Data.List.Sort
import SwissArmyKnife.Lib.Transition
import SwissArmyKnife.RedisDb.VersionReads

/-!
# Reads in steps

`DB::Get` takes the sequence number and the current version under the mutex, and then, without it, asks the memtable
of that moment, the immutable memtable of that moment, and the version it took.  In between others write, switch
memtables, and install the results of flushes and compactions.  A memtable is the list of its entries in the order of
their keys.
-/

namespace RedisDb

open Transition

namespace Gets

variable {K V : Type*}

inductive Phase (V : Type*) where
  | mem
  | imm
  | version
  | done (result : Option V)

/-- A call of `Get`. -/
structure Getting (K V : Type*) where
  key : K
  snapshot : ℕ
  current : Version K V
  phase : Phase V

/-- `inserted` is the last sequence number in the memtable, and `lastsequence` that of the last group that is
finished. -/
structure State (K V : Type*) where
  mem : List (Entry K V)
  imm : Option (List (Entry K V))
  current : Version K V
  inserted : ℕ
  lastsequence : ℕ
  gets : List (Getting K V)

inductive Action (K V : Type*) where
  /-- The leader of a group inserts one of its operations. -/
  | insert (type : ValueType) (key : K) (value : V)
  | publish
  | switch
  /-- The version with the table of the immutable memtable is installed. -/
  | flush (v : Version K V)
  | compact (v : Version K V)
  | get (key : K) (snapshot : Option ℕ)
  /-- The next step of a call. -/
  | probe (call : ℕ)

def opened (v : Version K V) (lastsequence : ℕ) : State K V := ⟨[], none, v, lastsequence, lastsequence, []⟩

variable [LinearOrder K]

/-- What `MemTable::Get` returns, or nothing when it returns false. -/
def memGet (mem : List (Entry K V)) (ikey : InternalKey K) : Option (Option V) :=
  match mem.find? fun e => ikey ≤ e.key with
  | some e => if e.key.userkey = ikey.userkey then some e.result else none
  | none => none

def memAdd (mem : List (Entry K V)) (e : Entry K V) : List (Entry K V) :=
  mem.orderedInsert (fun a b => a.key ≤ b.key) e

/-- The next step of a call. -/
def Getting.next (g : Getting K V) (s : State K V) : Option (Getting K V) :=
  let ikey := LookupKey g.key g.snapshot
  match g.phase with
  | .mem => some { g with phase := match memGet s.mem ikey with | some r => .done r | none => .imm }
  | .imm =>
    some { g with phase := match s.imm.bind fun imm => memGet imm ikey with | some r => .done r | none => .version }
  | .version => some { g with phase := .done (g.current.Get ikey).1 }
  | .done _ => none

def step (s : State K V) : Action K V → Outcome (State K V)
  | .insert type key value =>
    .next { s with mem := memAdd s.mem ⟨⟨key, s.inserted + 1, type⟩, value⟩, inserted := s.inserted + 1 }
  | .publish => .next { s with lastsequence := s.inserted }
  | .switch =>
    match s.imm with
    | none => .next { s with mem := [], imm := some s.mem }
    | some _ => .disabled
  | .flush v =>
    match s.imm with
    | some _ => .next { s with imm := none, current := v }
    | none => .disabled
  | .compact v => .next { s with current := v }
  | .get key snapshot =>
    -- A snapshot has a sequence number that was once the last one.
    if snapshot.getD s.lastsequence ≤ s.lastsequence then
      .next { s with gets := s.gets ++ [⟨key, snapshot.getD s.lastsequence, s.current, .mem⟩] }
    else .disabled
  | .probe call =>
    match s.gets[call]?.bind fun g => g.next s with
    | some g => .next { s with gets := s.gets.set call g }
    | none => .disabled

end Gets

end RedisDb
