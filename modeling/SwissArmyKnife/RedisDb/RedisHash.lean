import SwissArmyKnife.Lib.Lists
import SwissArmyKnife.Lib.Replies
import SwissArmyKnife.RedisDb.Env
import SwissArmyKnife.RedisDb.RedisStore

/-!
# Hashes

`RedisHash` keeps a map from fields to values under one key, laid out like a set with the values in the data entries.
Every `Get` on the store may fail: `io` gives the error of each read of a call, in the order of the reads.  A result
records the error that a read returned, so that one can say what the call made of it.
-/

namespace RedisDb

open FirstOf (firstOf)

/-- An error of the store other than `NotFound`. -/
inductive Failure where
  | Corruption (msg : String)
  | IOError (msg : String)
deriving DecidableEq

def Failure.status : Failure → Status
  | .Corruption msg => .Corruption msg
  | .IOError msg => .IOError msg

/-- The outcome of `DB::Get`. -/
inductive GetResult where
  | ok (value : Slice)
  | notFound
  | error (e : Failure)

def Get (io : Option Failure) (db : Db) (key : Slice) : GetResult :=
  match io with
  | some e => .error e
  | none =>
    match db.get key with
    | some value => .ok value
    | none => .notFound

structure FieldValue where
  field : Slice
  value : Slice
deriving DecidableEq

namespace RedisHash

/-- The result of a call: the store, the status and what was written through the result pointer, if anything.
`failed` is the error that a read of the call returned. -/
structure Result (α : Type) where
  db : Db
  status : Status
  value : Option α
  failed : Option Failure

/-- A call that returns the error of a read. -/
def Result.fail {α : Type} (db : Db) (e : Failure) : Result α := ⟨db, e.status, none, some e⟩

/-- The reads of a loop over data keys, which ends at the first error; `i` counts the reads of the call. -/
def readAll (io : Nat → Option Failure) (db : Db) : Nat → List Slice → Except Failure (List (Option Slice))
  | _, [] => .ok []
  | i, k :: ks =>
    match Get (io i) db k with
    | .error e => .error e
    | .ok value =>
      match readAll io db (i + 1) ks with
      | .error e => .error e
      | .ok values => .ok (some value :: values)
    | .notFound =>
      match readAll io db (i + 1) ks with
      | .error e => .error e
      | .ok values => .ok (none :: values)

/-- The meta value for a key without one.  It is built on a view of a temporary string that is gone when `Encode`
copies it; `memory` stands for the four bytes that are found there. -/
def newMetaValue (memory : UInt32) (later : Int) : BaseMetaValue :=
  (BaseMetaValue.new (EncodeFixed32 memory)).UpdateVersion later

def HSet (io : Nat → Option Failure) (memory : UInt32) (db : Db) (key : Slice) (time later : Int)
    (field value : Slice) : Result Int32 :=
  match Get (io 0) db key with
  | .ok metavalue =>
    let phashesmetavalue := ParsedBaseMetaValue.new metavalue
    if phashesmetavalue.IsStale time || phashesmetavalue.count == 0 then
      let phashesmetavalue := (phashesmetavalue.InitialMetaValue later).SetCount 1
      let batch := [.Put key phashesmetavalue.value, .Put (BaseDataKey key phashesmetavalue.version field) value]
      ⟨db.write batch, .OK, some 1, none⟩
    else
      let hashDataKey := BaseDataKey key phashesmetavalue.version field
      match Get (io 1) db hashDataKey with
      | .ok dataValue =>
        if dataValue == value then ⟨db, .OK, some 0, none⟩
        else ⟨db.write [.Put hashDataKey value], .OK, some 0, none⟩
      | .notFound =>
        ⟨db.write [.Put key (phashesmetavalue.ModifyCount 1).value, .Put hashDataKey value], .OK, some 1, none⟩
      | .error e => .fail db e
  | .notFound =>
    let metavalue := newMetaValue memory later
    let batch := [.Put key metavalue.Encode, .Put (BaseDataKey key metavalue.version field) value]
    ⟨db.write batch, .OK, some 1, none⟩
  | .error e => .fail db e

def HGet (io : Nat → Option Failure) (db : Db) (key : Slice) (time : Int) (field : Slice) : Result Slice :=
  match Get (io 0) db key with
  | .ok metavalue =>
    let phashmetavalue := ParsedBaseMetaValue.new metavalue
    if phashmetavalue.IsStale time then ⟨db, .NotFound "Stale", none, none⟩
    else if phashmetavalue.count == 0 then ⟨db, .NotFound "", none, none⟩
    else
      match Get (io 1) db (BaseDataKey key phashmetavalue.version field) with
      | .ok value => ⟨db, .OK, some value, none⟩
      | .notFound => ⟨db, .NotFound "", none, none⟩
      | .error e => .fail db e
  | .notFound => ⟨db, .NotFound "", none, none⟩
  | .error e => .fail db e

/-- The field-value pairs of which the last one for each field is kept. -/
def lastOf (fvs : List FieldValue) : List FieldValue := firstOf FieldValue.field fvs.reverse

/-- `HMSet`.  There is no branch for an error of the first read: the empty batch is written and its status
returned. -/
def HMSet (io : Nat → Option Failure) (memory : UInt32) (db : Db) (key : Slice) (time later : Int)
    (fvs : List FieldValue) : Result Unit :=
  let filteredfvs := lastOf fvs
  let puts (version : Int32) : List (SortedMap.Op Slice Slice) :=
    filteredfvs.map fun fv => .Put (BaseDataKey key version fv.field) fv.value
  match Get (io 0) db key with
  | .ok metavalue =>
    let phashesmetavalue := ParsedBaseMetaValue.new metavalue
    if phashesmetavalue.IsStale time || phashesmetavalue.count == 0 then
      let phashesmetavalue := (phashesmetavalue.InitialMetaValue later).SetCount (Int32.ofNat filteredfvs.length)
      ⟨db.write (.Put key phashesmetavalue.value :: puts phashesmetavalue.version), .OK, none, none⟩
    else
      let version := phashesmetavalue.version
      match readAll io db 1 (filteredfvs.map fun fv => BaseDataKey key version fv.field) with
      | .error e => .fail db e
      | .ok values =>
        let count := Int32.ofNat (values.filter Option.isNone).length
        ⟨db.write (puts version ++ [.Put key (phashesmetavalue.ModifyCount count).value]), .OK, none, none⟩
  | .notFound =>
    let hashesmetavalue := newMetaValue memory later
    ⟨db.write (.Put key hashesmetavalue.Encode :: puts hashesmetavalue.version), .OK, none, none⟩
  | .error e => ⟨db.write [], .OK, none, some e⟩

/-- `HMGet`: the value of each field, or nothing where its status is `NotFound`. -/
def HMGet (io : Nat → Option Failure) (db : Db) (key : Slice) (time : Int) (fields : List Slice) :
    Result (List (Option Slice)) :=
  match Get (io 0) db key with
  | .ok metavalue =>
    let phashesmetavalue := ParsedBaseMetaValue.new metavalue
    if phashesmetavalue.IsStale time || phashesmetavalue.count == 0 then
      ⟨db, .NotFound "Stale", some (fields.map fun _ => none), none⟩
    else
      match readAll io db 1 (fields.map fun field => BaseDataKey key phashesmetavalue.version field) with
      | .error e => .fail db e
      | .ok values => ⟨db, .OK, some values, none⟩
  | .notFound => ⟨db, .NotFound "", some (fields.map fun _ => none), none⟩
  | .error e => .fail db e

def HGetall (io : Nat → Option Failure) (db : Db) (key : Slice) (time : Int) : Result (List FieldValue) :=
  match Get (io 0) db key with
  | .ok metavalue =>
    let phashesmetavalue := ParsedBaseMetaValue.new metavalue
    if phashesmetavalue.IsStale time then ⟨db, .NotFound "Stale", some [], none⟩
    else if phashesmetavalue.version == 0 then ⟨db, .NotFound "", some [], none⟩
    else
      let found := scanPrefix db (BaseDataKey key phashesmetavalue.version [])
      ⟨db, .OK, some (found.map fun e => ⟨ParsedDataKey.GetData e.1, e.2⟩), none⟩
  | .notFound => ⟨db, .NotFound "", some [], none⟩
  | .error e => .fail db e

def HDel (io : Nat → Option Failure) (db : Db) (key : Slice) (time : Int) (fields : List Slice) : Result Int32 :=
  let filteredfields := firstOf id fields
  match Get (io 0) db key with
  | .ok metavalue =>
    let phashesmetavalue := ParsedBaseMetaValue.new metavalue
    if phashesmetavalue.IsStale time || phashesmetavalue.count == 0 then ⟨db, .OK, some 0, none⟩
    else
      let keys := filteredfields.map fun field => BaseDataKey key phashesmetavalue.version field
      match readAll io db 1 keys with
      | .error e => .fail db e
      | .ok values =>
        let deleted := ((keys.zip values).filter fun kv => kv.2.isSome).map Prod.fst
        let delcnt := Int32.ofNat deleted.length
        let batch := deleted.map .Delete ++ [.Put key (phashesmetavalue.ModifyCount (-delcnt)).value]
        ⟨db.write batch, .OK, some delcnt, none⟩
  | .notFound => ⟨db, .OK, some 0, none⟩
  | .error e => .fail db e

/-- `Del`.  As in `HMSet`, an error of the read is not returned. -/
def Del (io : Nat → Option Failure) (db : Db) (key : Slice) (time : Int) : Result Unit :=
  match Get (io 0) db key with
  | .ok metavalue =>
    let phashesmetavalue := ParsedBaseMetaValue.new metavalue
    if phashesmetavalue.IsStale time then ⟨db, .NotFound "Stale", none, none⟩
    else if phashesmetavalue.count == 0 then ⟨db, .NotFound "", none, none⟩
    else
      let found := scanPrefix db (BaseDataKey key phashesmetavalue.version [])
      ⟨db.write (.Delete key :: found.map fun e => .Delete e.1), .OK, none, none⟩
  | .notFound => ⟨db.write [], .OK, none, none⟩
  | .error e => ⟨db.write [], .OK, none, some e⟩

def HExists (io : Nat → Option Failure) (db : Db) (key : Slice) (time : Int) (field : Slice) : Result Unit :=
  let r := HGet io db key time field
  ⟨r.db, r.status, none, r.failed⟩

/-! ### Runs -/

inductive Call where
  | HSet (field value : Slice)
  | HMSet (fvs : List FieldValue)
  | HDel (fields : List Slice)
  | Del
  | HGet (field : Slice)
  | HMGet (fields : List Slice)
  | HExists (field : Slice)
  | HGetall

/-- A call, after some time and with what it meets: by how much the clock goes on between its readings, the errors of
its reads and the memory of the temporary. -/
structure Action where
  call : Call
  wait : ℕ := 0
  lag : ℕ := 0
  io : Nat → Option Failure := fun _ => none
  memory : UInt32 := 0

/-- What a call returns.  The status is left out where it does not depend on the map alone. -/
inductive Reply where
  | set (ok : Bool) (new : Option Int)
  | stored (ok : Bool)
  | deleted (ok : Bool) (n : Option Int)
  | removed
  | value (ok : Bool) (v : Option Slice)
  | values (l : Option (List (Option Slice)))
  | present (ok : Bool)
  | all (l : Option (List FieldValue))
deriving DecidableEq

structure State where
  clock : Int
  db : Db

/-- The result of an action on one key, with the reply as its value. -/
structure Outcome where
  db : Db
  status : Status
  reply : Reply
  failed : Option Failure

def outcome (key : Slice) (s : State) (a : Action) : Outcome :=
  let time := s.clock + a.wait
  let later := time + a.lag
  match a.call with
  | .HSet field value =>
    let r := HSet a.io a.memory s.db key time later field value
    ⟨r.db, r.status, .set r.status.ok (r.value.map Int32.toInt), r.failed⟩
  | .HMSet fvs =>
    let r := HMSet a.io a.memory s.db key time later fvs
    ⟨r.db, r.status, .stored r.status.ok, r.failed⟩
  | .HDel fields =>
    let r := HDel a.io s.db key time fields
    ⟨r.db, r.status, .deleted r.status.ok (r.value.map Int32.toInt), r.failed⟩
  | .Del =>
    let r := Del a.io s.db key time
    ⟨r.db, r.status, .removed, r.failed⟩
  | .HGet field =>
    let r := HGet a.io s.db key time field
    ⟨r.db, r.status, .value r.status.ok r.value, r.failed⟩
  | .HMGet fields =>
    let r := HMGet a.io s.db key time fields
    ⟨r.db, r.status, .values r.value, r.failed⟩
  | .HExists field =>
    let r := HExists a.io s.db key time field
    ⟨r.db, r.status, .present r.status.ok, r.failed⟩
  | .HGetall =>
    let r := HGetall a.io s.db key time
    ⟨r.db, r.status, .all r.value, r.failed⟩

def step (key : Slice) (s : State) (a : Action) : State × Outcome :=
  (⟨s.clock + a.wait + a.lag, (outcome key s a).db⟩, outcome key s a)

/-! ### Maps -/

/-- What a call is meant to do to the map from fields to values, and to reply. -/
def mapCall (m : SortedMap Slice Slice) : Call → SortedMap Slice Slice × Reply
  | .HSet field value => (m.put field value, .set true (some (if (m.get field).isSome then 0 else 1)))
  | .HMSet fvs => (m.write (fvs.map fun fv => .Put fv.field fv.value), .stored true)
  | .HDel fields =>
    (m.write (fields.map .Delete),
      .deleted true (some ((firstOf id fields).filter fun field => (m.get field).isSome).length))
  | .Del => (.empty, .removed)
  | .HGet field => (m, .value (m.get field).isSome (m.get field))
  | .HMGet fields => (m, .values (some (fields.map m.get)))
  | .HExists field => (m, .present (m.get field).isSome)
  | .HGetall => (m, .all (some (m.entries.map fun e => ⟨e.1, e.2⟩)))

end RedisHash

end RedisDb
