import SwissArmyKnife.Lib.Lists
import SwissArmyKnife.Lib.Replies
import SwissArmyKnife.RedisDb.Env
import SwissArmyKnife.RedisDb.RedisStore

/-!
# Sets

`RedisSet` keeps a set under one key: its meta value is stored under the key itself and each member under a data key
of the version in the meta value.  The store is a map from byte strings to byte strings in bytewise order, and the
calls are run on one key with a clock that does not go back.
-/

namespace RedisDb

open FirstOf (firstOf)

namespace RedisSet

/-- The members, each once, that are not stored under the version. -/
def newMembers (db : Db) (key : Slice) (version : Int32) (members : List Slice) : List Slice :=
  (firstOf id members).filter fun member => (db.get (BaseDataKey key version member)).isNone

def SAdd (db : Db) (key : Slice) (time : Int) (members : List Slice) : Db × Status × Int32 :=
  let filteredmembers := firstOf id members
  let size := Int32.ofNat filteredmembers.length
  match db.get key with
  | some metavalue =>
    let psetsvalue := ParsedBaseMetaValue.new metavalue
    if psetsvalue.IsStale time || psetsvalue.count == 0 then
      -- The version of the meta value is not read: the members are stored under version 0.
      let version := 0
      let batch := .Put key (psetsvalue.SetCount size).value ::
        filteredmembers.map fun member => .Put (BaseDataKey key version member) []
      (db.write batch, .OK, size)
    else
      let added := newMembers db key psetsvalue.version members
      let cnt := Int32.ofNat added.length
      if cnt == 0 then (db, .OK, cnt)
      else
        let batch := (added.map fun member => .Put (BaseDataKey key psetsvalue.version member) []) ++
          [.Put key (psetsvalue.ModifyCount cnt).value]
        (db.write batch, .OK, cnt)
  | none =>
    let setsmetavalue := (BaseMetaValue.new (EncodeFixed32 size.toUInt32)).UpdateVersion time
    let batch := .Put key setsmetavalue.Encode ::
      filteredmembers.map fun member => .Put (BaseDataKey key setsmetavalue.version member) []
    (db.write batch, .OK, size)

def SCard (db : Db) (key : Slice) (time : Int) : Status × Int32 :=
  match db.get key with
  | some metavalue =>
    let psetsvalue := ParsedBaseMetaValue.new metavalue
    if psetsvalue.IsStale time then (.NotFound "Stale", 0)
    else if psetsvalue.count == 0 then (.NotFound "Deleted", psetsvalue.count)
    else (.OK, psetsvalue.count)
  | none => (.NotFound "", 0)

def SMembers (db : Db) (key : Slice) (time : Int) : Status × List Slice :=
  match db.get key with
  | some metavalue =>
    let psetsvalue := ParsedBaseMetaValue.new metavalue
    if psetsvalue.IsStale time then (.NotFound "Stale", [])
    else if psetsvalue.count == 0 then (.NotFound "", [])
    else
      let found := scanPrefix db (BaseDataKey key psetsvalue.version [])
      (.OK, found.map fun e => ParsedDataKey.GetData e.1)
  | none => (.NotFound "", [])

/-- `Del`; the clock is read twice. -/
def Del (db : Db) (key : Slice) (time later : Int) : Db × Status :=
  match db.get key with
  | some metavalue =>
    let psetsmetavalue := ParsedBaseMetaValue.new metavalue
    if psetsmetavalue.IsStale time then (db, .NotFound "Stale")
    else if psetsmetavalue.count == 0 then (db, .NotFound "")
    else (db.put key (psetsmetavalue.InitialMetaValue later).value, .OK)
  | none => (db, .NotFound "")

/-- An expiry time that is set in the meta value of a set that has members. -/
def setExpiry (db : Db) (key : Slice) (time : Int) (timestamp : Int32) : Db :=
  match db.get key with
  | some metavalue =>
    let p := ParsedBaseMetaValue.new metavalue
    if p.IsStale time || p.count == 0 then db else db.put key (p.SetTimestamp timestamp).value
  | none => db

/-! ### Runs -/

inductive Action where
  | SAdd (members : List Slice)
  | SCard
  | SMembers
  /-- The clock goes on by `lag` during the call. -/
  | Del (lag : ℕ)
  | setExpiry (timestamp : Int32)
  | wait (duration : ℕ)

/-- What a call returns; the message of a status is left out. -/
inductive Reply where
  | count (found : Bool) (n : Int)
  | members (found : Bool) (l : List Slice)
  | deleted (found : Bool)
  | done
deriving DecidableEq

structure State where
  clock : Int
  db : Db

def step (key : Slice) (s : State) : Action → State × Reply
  | .SAdd members =>
    let r := SAdd s.db key s.clock members
    ({ s with db := r.1 }, .count r.2.1.ok r.2.2.toInt)
  | .SCard =>
    let r := SCard s.db key s.clock
    (s, .count r.1.ok r.2.toInt)
  | .SMembers =>
    let r := SMembers s.db key s.clock
    (s, .members r.1.ok r.2)
  | .Del lag =>
    let r := Del s.db key s.clock (s.clock + lag)
    (⟨s.clock + lag, r.1⟩, .deleted r.2.ok)
  | .setExpiry timestamp => ({ s with db := setExpiry s.db key s.clock timestamp }, .done)
  | .wait duration => ({ s with clock := s.clock + duration }, .done)

/-! ### Sets with an expiry time -/

/-- What a set is meant to be: its members, and the time after which it has none; 0 is for a set that does not
expire. -/
structure Spec where
  clock : Int
  members : SortedMap Slice Unit
  expiry : Int32

namespace Spec

def expired (t : Spec) : Bool := if t.expiry = 0 then false else decide (t.expiry.toInt < t.clock)

def live (t : Spec) : SortedMap Slice Unit := if t.expired then .empty else t.members

def nonempty (t : Spec) : Bool := !t.live.entries.isEmpty

def step (t : Spec) : Action → Spec × Reply
  | .SAdd members =>
    let added := (firstOf id members).filter fun member => (t.live.get member).isNone
    ({ t with
        members := t.live.write (added.map fun member => .Put member ())
        expiry := if t.nonempty then t.expiry else 0 },
      .count true added.length)
  | .SCard => (t, .count t.nonempty t.live.entries.length)
  | .SMembers => (t, .members t.nonempty (t.live.entries.map Prod.fst))
  | .Del lag =>
    (if t.nonempty then ⟨t.clock + lag, .empty, 0⟩ else { t with clock := t.clock + lag }, .deleted t.nonempty)
  | .setExpiry timestamp => (if t.nonempty then { t with expiry := timestamp } else t, .done)
  | .wait duration => ({ t with clock := t.clock + duration }, .done)

end Spec

end RedisSet

end RedisDb
