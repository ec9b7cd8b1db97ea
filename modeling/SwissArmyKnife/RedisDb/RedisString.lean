import SwissArmyKnife.RedisDb.RedisHash

/-!
# Strings

`RedisString` stores a value under the key itself, followed by its expiry time.  A value whose time has passed stays
in the store until it is written over, and every call takes it for a missing one.
-/

namespace RedisDb

/-! ### Meta values -/

structure StringsMetaValue where
  value : Slice
  timestamp : Int32

namespace StringsMetaValue

def new (value : Slice) : StringsMetaValue := ⟨value, 0⟩

def SetRelativeTimestamp (m : StringsMetaValue) (ttl : Int32) (time : Int) : StringsMetaValue :=
  { m with timestamp := Int32.ofInt (time + ttl.toInt) }

def Encode (m : StringsMetaValue) : Slice := m.value ++ EncodeFixed32 m.timestamp.toUInt32

end StringsMetaValue

/-- `value` is the string that was parsed, to which the setters write. -/
structure ParsedStringsMetaValue where
  value : Slice
  uservalue : Slice
  timestamp : Int32

namespace ParsedStringsMetaValue

def kStringsValueSuffixLength : Nat := 4

def new (str : Slice) : ParsedStringsMetaValue :=
  if kStringsValueSuffixLength ≤ str.length then
    { value := str
      uservalue := str.take (str.length - kStringsValueSuffixLength)
      timestamp := (DecodeFixed32 (str.drop (str.length - kStringsValueSuffixLength))).toInt32 }
  else { value := str, uservalue := [], timestamp := 0 }

def SetTimestamp (p : ParsedStringsMetaValue) (t : Int32) : ParsedStringsMetaValue :=
  { p with
    timestamp := t
    value := overwrite p.value (p.value.length - kStringsValueSuffixLength) (EncodeFixed32 t.toUInt32) }

def SetRelativeTimestamp (p : ParsedStringsMetaValue) (ttl : Int32) (time : Int) : ParsedStringsMetaValue :=
  p.SetTimestamp (Int32.ofInt (time + ttl.toInt))

/-- `StripSuffix`, as what it leaves of the string. -/
def StripSuffix (p : ParsedStringsMetaValue) : Slice := p.value.take (p.value.length - kStringsValueSuffixLength)

def IsStale (p : ParsedStringsMetaValue) (time : Int) : Bool :=
  if p.timestamp = 0 then false else decide (p.timestamp.toInt < time)

end ParsedStringsMetaValue

namespace StringsMetaValue

/-- The parsed meta value with these fields. -/
def parsed (m : StringsMetaValue) : ParsedStringsMetaValue := ⟨m.Encode, m.value, m.timestamp⟩

@[simp] theorem length_encode (m : StringsMetaValue) : m.Encode.length = m.value.length + 4 := by
  simp [Encode]

theorem new_encode (m : StringsMetaValue) : ParsedStringsMetaValue.new m.Encode = m.parsed := by
  have hlen : m.Encode.length - ParsedStringsMetaValue.kStringsValueSuffixLength = m.value.length := by
    simp [ParsedStringsMetaValue.kStringsValueSuffixLength]
  have hdecode := decodeFixed32_append m.timestamp.toUInt32 []
  rw [List.append_nil] at hdecode
  rw [ParsedStringsMetaValue.new, if_pos (by simp [ParsedStringsMetaValue.kStringsValueSuffixLength]), hlen, Encode,
    List.take_left, List.drop_left, hdecode]
  simp [parsed, Encode]

@[simp] theorem stripSuffix_parsed (m : StringsMetaValue) : m.parsed.StripSuffix = m.value := by
  simp [ParsedStringsMetaValue.StripSuffix, parsed, Encode, ParsedStringsMetaValue.kStringsValueSuffixLength]

@[simp] theorem setTimestamp_parsed (m : StringsMetaValue) (t : Int32) :
    m.parsed.SetTimestamp t = { m with timestamp := t : StringsMetaValue }.parsed := by
  simp [ParsedStringsMetaValue.SetTimestamp, parsed, Encode, overwrite,
    ParsedStringsMetaValue.kStringsValueSuffixLength]

end StringsMetaValue

structure KeyValue where
  key : Slice
  value : Slice
deriving DecidableEq

namespace RedisString

def Set (db : Db) (key value : Slice) : Db × Status := (db.put key (StringsMetaValue.new value).Encode, .OK)

def Get (io : Option Failure) (db : Db) (key : Slice) (time : Int) : Status × Slice :=
  match RedisDb.Get io db key with
  | .ok value =>
    let pstringsvalue := ParsedStringsMetaValue.new value
    if pstringsvalue.IsStale time then (.NotFound "Stale", []) else (.OK, pstringsvalue.StripSuffix)
  | .notFound => (.NotFound "", [])
  | .error e => (e.status, [])

def MSet (db : Db) (kvs : List KeyValue) : Db × Status :=
  (db.write (kvs.map fun kv => .Put kv.key (StringsMetaValue.new kv.value).Encode), .OK)

/-- The loop of `MSetnx`, which ends at the first key that holds a value; `i` counts the reads.  A read that fails is
not told from one that finds nothing. -/
def anyExists (io : Nat → Option Failure) (db : Db) (time : Int) : Nat → List KeyValue → Bool
  | _, [] => false
  | i, kv :: kvs =>
    match RedisDb.Get (io i) db kv.key with
    | .ok value => if (ParsedStringsMetaValue.new value).IsStale time then anyExists io db time (i + 1) kvs else true
    | .notFound => anyExists io db time (i + 1) kvs
    | .error _ => anyExists io db time (i + 1) kvs

def MSetnx (io : Nat → Option Failure) (db : Db) (kvs : List KeyValue) (time : Int) : Db × Status × Int32 :=
  if anyExists io db time 0 kvs then (db, .OK, 0) else ((MSet db kvs).1, (MSet db kvs).2, 1)

/-- What `Setnx` stores. -/
def newStringsValue (value : Slice) (ttl : Int32) (later : Int) : StringsMetaValue :=
  if 0 < ttl then (StringsMetaValue.new value).SetRelativeTimestamp ttl later else StringsMetaValue.new value

/-- `Setnx`; the clock is read twice. -/
def Setnx (io : Option Failure) (db : Db) (key value : Slice) (time later : Int) (ttl : Int32) :
    Db × Status × Int32 :=
  let stringsvalue := newStringsValue value ttl later
  match RedisDb.Get io db key with
  | .ok oldValue =>
    if (ParsedStringsMetaValue.new oldValue).IsStale time then (db.put key stringsvalue.Encode, .OK, 1)
    else (db, .OK, 0)
  | .notFound => (db.put key stringsvalue.Encode, .OK, 1)
  | .error e => (db, e.status, 0)

def Del (io : Option Failure) (db : Db) (key : Slice) (time : Int) : Db × Status :=
  match RedisDb.Get io db key with
  | .ok value =>
    if (ParsedStringsMetaValue.new value).IsStale time then (db, .NotFound "Stale") else (db.delete key, .OK)
  | .notFound => (db, .NotFound "")
  | .error e => (db, e.status)

/-- `Expire`; the clock is read twice. -/
def Expire (io : Option Failure) (db : Db) (key : Slice) (time later : Int) (ttl : Int32) : Db × Status :=
  match RedisDb.Get io db key with
  | .ok value =>
    let pstringsvalue := ParsedStringsMetaValue.new value
    if pstringsvalue.IsStale time then (db, .NotFound "Stale")
    else if 0 < ttl then (db.put key (pstringsvalue.SetRelativeTimestamp ttl later).value, .OK)
    else (db.delete key, .OK)
  | .notFound => (db, .NotFound "")
  | .error e => (db, e.status)

/-- A value of a string that has not expired. -/
def live (now : Int) : Option Slice → Bool
  | some value => !(ParsedStringsMetaValue.new value).IsStale now
  | none => false

end RedisString

end RedisDb
