import SwissArmyKnife.RedisDb.RedisStringUpdates

/-!
# The other calls on strings

The calls that read a value or a part of it, that replace or delete it under a condition, and that change its expiry
time.  An output parameter that a call may leave alone is modelled by an option: none when nothing was written to it.
-/

namespace RedisDb

structure ValueStatus where
  value : Slice
  status : Status
deriving DecidableEq

/-- The long doubles, as far as they are used. -/
structure LongDoubles (L : Type*) where
  add : L → L → L
  isnan : L → Bool
  isinf : L → Bool
  /-- `strtold`: the number that is read at the beginning of some memory, and how many bytes it takes. -/
  strtold : Slice → L × Nat
  /-- The text that `snprintf` makes with the format `%.17Lf`. -/
  snprintf : L → Slice

namespace LongDoubles

variable {L : Type*} (doubles : LongDoubles L)

/-- `StrToLongDouble`, none when it returns -1; `beyond` is what follows the bytes in memory. -/
def StrToLongDouble (s beyond : Slice) : Option L :=
  if 32 ∈ s then none
  else
    let d := doubles.strtold (s ++ beyond)
    if d.2 = s.length then some d.1 else none

/-- A text without the zeros at its end, nor a point in front of them. -/
def withoutZeros (buf : Slice) : Slice :=
  let kept := (buf.reverse.dropWhile (· = 48)).reverse
  if kept.getLast? = some 46 then kept.dropLast else kept

/-- `LongDoubleToStr`, with nothing inside when it returns -1.  There is no result when the text does not fit into the
buffer, as the memory behind the buffer is read then. -/
def LongDoubleToStr (ldval : L) : Option (Option Slice) :=
  if doubles.isnan ldval then some none
  else if doubles.isinf ldval then some none
  else
    let buf := doubles.snprintf ldval
    if 256 ≤ buf.length then none else some (some (if 46 ∈ buf then withoutZeros buf else buf))

end LongDoubles

namespace RedisString

/-! ### Values -/

/-- `Setxx`; the clock is read twice. -/
def Setxx (io : Option Failure) (db : Db) (key value : Slice) (time later : Int) (ttl : Int32) :
    Db × Status × Option Int32 :=
  match RedisDb.Get io db key with
  | .ok oldValue =>
    if (ParsedStringsMetaValue.new oldValue).IsStale time then (db, .OK, some 0)
    else (db.put key (newStringsValue value ttl later).Encode, .OK, some 1)
  | .notFound => (db, .NotFound "", some 0)
  | .error e => (db, e.status, none)

def GetSet (io : Option Failure) (db : Db) (key value : Slice) (time : Int) : Db × Status × Option Slice :=
  let stringsvalue := StringsMetaValue.new value
  match RedisDb.Get io db key with
  | .ok oldvalue =>
    let pstringsvalue := ParsedStringsMetaValue.new oldvalue
    (db.put key stringsvalue.Encode, .OK, some (if pstringsvalue.IsStale time then [] else pstringsvalue.StripSuffix))
  | .notFound => (db.put key stringsvalue.Encode, .OK, none)
  | .error e => (db, e.status, none)

/-- The reads of `MGet`, which end at the first error; `i` counts them. -/
def readValues (io : Nat → Option Failure) (db : Db) (time : Int) :
    Nat → List Slice → Except Failure (List ValueStatus)
  | _, [] => .ok []
  | i, key :: keys =>
    match RedisDb.Get (io i) db key with
    | .error e => .error e
    | .ok value =>
      let pstringsvalue := ParsedStringsMetaValue.new value
      let vs : ValueStatus :=
        if pstringsvalue.IsStale time then ⟨[], .NotFound "Stale"⟩ else ⟨pstringsvalue.uservalue, .OK⟩
      (readValues io db time (i + 1) keys).map (vs :: ·)
    | .notFound => (readValues io db time (i + 1) keys).map (⟨[], .NotFound " "⟩ :: ·)

def MGet (io : Nat → Option Failure) (db : Db) (keys : List Slice) (time : Int) : Status × List ValueStatus :=
  match readValues io db time 0 keys with
  | .ok vss => (.OK, vss)
  | .error e => (e.status, [])

/-- `Setvx`; the clock is read twice. -/
def Setvx (io : Option Failure) (db : Db) (key value newvalue : Slice) (time later : Int) (ttl : Int32) :
    Db × Status × Int32 :=
  match RedisDb.Get io db key with
  | .ok oldvalue =>
    let pstringsvalue := ParsedStringsMetaValue.new oldvalue
    if pstringsvalue.IsStale time then (db, .OK, 0)
    else if value = pstringsvalue.uservalue then (db.put key (newStringsValue newvalue ttl later).Encode, .OK, 1)
    else (db, .OK, -1)
  | .notFound => (db, .OK, 0)
  | .error e => (db, e.status, 0)

def Delvx (io : Option Failure) (db : Db) (key value : Slice) (time : Int) : Db × Status × Int32 :=
  match RedisDb.Get io db key with
  | .ok oldvalue =>
    let pstringsvalue := ParsedStringsMetaValue.new oldvalue
    if pstringsvalue.IsStale time then (db, .NotFound "Stale", 0)
    else if value = pstringsvalue.uservalue then (db.delete key, .OK, 1)
    else (db, .OK, -1)
  | .notFound => (db, .NotFound "", 0)
  | .error e => (db, e.status, 0)

def Strlen (io : Option Failure) (db : Db) (key : Slice) (time : Int) : Status × Int32 :=
  let r := Get io db key time
  (r.1, if r.1.ok then Int32.ofNat r.2.length else 0)

/-- What `Incrbyfloat` stores for a key without a value: the number in the form that numbers are printed, or nothing
when it is not printed. -/
def freshNumber {L : Type*} (doubles : LongDoubles L) (db : Db) (key : Slice) (longdoubleby : L) :
    Option (Db × Status × Option Slice) :=
  (doubles.LongDoubleToStr longdoubleby).map fun text =>
    let newvalue := text.getD []
    (db.put key (StringsMetaValue.new newvalue).Encode, .OK, some newvalue)

/-- `Incrbyfloat`; `beyond` is what follows the bytes of `value` in memory. -/
def Incrbyfloat {L : Type*} (doubles : LongDoubles L) (io : Option Failure) (db : Db) (key value beyond : Slice)
    (time : Int) : Option (Db × Status × Option Slice) :=
  match doubles.StrToLongDouble value beyond with
  | none => some (db, .Corruption "Value is not a vaild float", none)
  | some longdoubleby =>
    match RedisDb.Get io db key with
    | .ok oldvalue =>
      let pstringsvalue := ParsedStringsMetaValue.new oldvalue
      if pstringsvalue.IsStale time then freshNumber doubles db key longdoubleby
      else
        match doubles.StrToLongDouble pstringsvalue.uservalue [0] with
        | none => some (db, .Corruption "Value is not a vaild float", none)
        | some oldnumber =>
          (doubles.LongDoubleToStr (doubles.add oldnumber longdoubleby)).map fun text =>
            match text with
            | none => (db, .InvalidArgument "Overflow", none)
            | some newvalue =>
              (db.put key (StringsMetaValue.mk newvalue pstringsvalue.timestamp).Encode, .OK, some newvalue)
    | .notFound => freshNumber doubles db key longdoubleby
    | .error e => some (db, e.status, none)

/-! ### Parts of a value -/

/-- The bit that `GetBit` reads, where `byte` is an index without a sign; none when `byte + 1` is zero, as it reads
outside of the string then. -/
def readBit (dataValue : Slice) (offset : Int64) : Option Int32 :=
  let byte := (offset >>> 3).toUInt64
  let bit := 7 - (offset &&& 7).toInt.toNat
  if UInt64.ofNat dataValue.length < byte + 1 then some 0
  else (dataValue[byte.toNat]?).map fun byteVal => if byteVal.toNat.testBit bit then 1 else 0

def GetBit (io : Option Failure) (db : Db) (key : Slice) (offset : Int64) (time : Int) :
    Option (Status × Option Int32) :=
  match RedisDb.Get io db key with
  | .ok metavalue =>
    let pstringsvalue := ParsedStringsMetaValue.new metavalue
    if pstringsvalue.IsStale time then some (.OK, some 0)
    else (readBit pstringsvalue.uservalue offset).map fun ret => (.OK, some ret)
  | .notFound => (readBit [] offset).map fun ret => (.OK, some ret)
  | .error e => some (e.status, none)

/-- The part of a value that `Getrange` returns. -/
def rangeOf (value : Slice) (startoffset endoffset : Int64) : Slice :=
  let size : Int := value.length
  let start := if 0 ≤ startoffset then startoffset.toInt else size + startoffset.toInt
  let endt := if 0 ≤ endoffset then endoffset.toInt else size + endoffset.toInt
  if size - 1 < start ∨ start ≠ 0 ∧ endt < start ∨ start ≠ 0 ∧ endt < 0 then []
  else
    let start := if start < 0 then 0 else start
    let endt := if size ≤ endt then size - 1 else endt
    let endt := if start = 0 ∧ endt < 0 then 0 else endt
    (value.drop start.toNat).take (endt - start + 1).toNat

def Getrange (io : Option Failure) (db : Db) (key : Slice) (startoffset endoffset : Int64) (time : Int) :
    Status × Slice :=
  match RedisDb.Get io db key with
  | .ok value =>
    let pstringsvalue := ParsedStringsMetaValue.new value
    if pstringsvalue.IsStale time then (.NotFound "Stale", [])
    else (.OK, rangeOf pstringsvalue.StripSuffix startoffset endoffset)
  | .notFound => (.NotFound "", [])
  | .error e => (e.status, [])

def bitsinbyte : List Nat :=
  [0, 1, 1, 2, 1, 2, 2, 3, 1, 2, 2, 3, 2, 3, 3, 4,
   1, 2, 2, 3, 2, 3, 3, 4, 2, 3, 3, 4, 3, 4, 4, 5,
   1, 2, 2, 3, 2, 3, 3, 4, 2, 3, 3, 4, 3, 4, 4, 5,
   2, 3, 3, 4, 3, 4, 4, 5, 3, 4, 4, 5, 4, 5, 5, 6,
   1, 2, 2, 3, 2, 3, 3, 4, 2, 3, 3, 4, 3, 4, 4, 5,
   2, 3, 3, 4, 3, 4, 4, 5, 3, 4, 4, 5, 4, 5, 5, 6,
   2, 3, 3, 4, 3, 4, 4, 5, 3, 4, 4, 5, 4, 5, 5, 6,
   3, 4, 4, 5, 4, 5, 5, 6, 4, 5, 5, 6, 5, 6, 6, 7,
   1, 2, 2, 3, 2, 3, 3, 4, 2, 3, 3, 4, 3, 4, 4, 5,
   2, 3, 3, 4, 3, 4, 4, 5, 3, 4, 4, 5, 4, 5, 5, 6,
   2, 3, 3, 4, 3, 4, 4, 5, 3, 4, 4, 5, 4, 5, 5, 6,
   3, 4, 4, 5, 4, 5, 5, 6, 4, 5, 5, 6, 5, 6, 6, 7,
   2, 3, 3, 4, 3, 4, 4, 5, 3, 4, 4, 5, 4, 5, 5, 6,
   3, 4, 4, 5, 4, 5, 5, 6, 4, 5, 5, 6, 5, 6, 6, 7,
   3, 4, 4, 5, 4, 5, 5, 6, 4, 5, 5, 6, 5, 6, 6, 7,
   4, 5, 5, 6, 5, 6, 6, 7, 5, 6, 6, 7, 6, 7, 7, 8]

/-- The table counts the bits of every byte. -/
theorem bitsinbyte_eq : bitsinbyte = (List.range 256).map fun b => (List.range 8).countP b.testBit := by
  decide +kernel

/-- The bits in the first `bytes` bytes; there is a zero byte behind the value. -/
def GetBitCount (value : Slice) (bytes : Nat) : Int32 :=
  Int32.ofNat ((value.take bytes).map fun b => bitsinbyte.getD b.toNat 0).sum

def BitCount (io : Option Failure) (db : Db) (key : Slice) (startoffset endoffset : Int64) (haverange : Bool)
    (time : Int) : Status × Int32 :=
  match RedisDb.Get io db key with
  | .ok value =>
    let pstringsvalue := ParsedStringsMetaValue.new value
    if pstringsvalue.IsStale time then (.NotFound "Stale", 0)
    else
      let bitvalue := pstringsvalue.StripSuffix
      let valuelength : Int := bitvalue.length
      if haverange then
        let startoffset := if startoffset < 0 then startoffset.toInt + valuelength else startoffset.toInt
        let endoffset := if endoffset < 0 then endoffset.toInt + valuelength else endoffset.toInt
        let startoffset := if startoffset < 0 then 0 else startoffset
        let endoffset := if endoffset < 0 then 0 else endoffset
        let endoffset := if valuelength ≤ endoffset then valuelength - 1 else endoffset
        if endoffset < startoffset then (.OK, 0)
        else (.OK, GetBitCount (bitvalue.drop startoffset.toNat) (endoffset - startoffset + 1).toNat)
      else (.OK, GetBitCount bitvalue (max (valuelength - 1) 0 + 1).toNat)
  | .notFound => (.NotFound "", 0)
  | .error e => (e.status, 0)

/-! ### Expiry times -/

def Expireat (io : Option Failure) (db : Db) (key : Slice) (time : Int) (timestamp : Int32) : Db × Status :=
  match RedisDb.Get io db key with
  | .ok value =>
    let pstringsvlaue := ParsedStringsMetaValue.new value
    if pstringsvlaue.IsStale time then (db, .NotFound "Stale")
    else if 0 < timestamp then (db.put key (pstringsvlaue.SetTimestamp timestamp).value, .OK)
    else (db.delete key, .OK)
  | .notFound => (db, .NotFound "")
  | .error e => (db, e.status)

def Persist (io : Option Failure) (db : Db) (key : Slice) (time : Int) : Db × Status :=
  match RedisDb.Get io db key with
  | .ok value =>
    let pstringvalues := ParsedStringsMetaValue.new value
    if pstringvalues.IsStale time then (db, .NotFound "Stale")
    else if pstringvalues.timestamp = 0 then (db, .NotFound "Not have an associated timeout")
    else (db.put key (pstringvalues.SetTimestamp 0).value, .OK)
  | .notFound => (db, .NotFound "")
  | .error e => (db, e.status)

/-- `TTL`; the clock is read twice. -/
def TTL (io : Option Failure) (db : Db) (key : Slice) (time later : Int) : Status × Option Int :=
  match RedisDb.Get io db key with
  | .ok value =>
    let pstringsvalue := ParsedStringsMetaValue.new value
    if pstringsvalue.IsStale time then (.NotFound "Stale", some (-2))
    else if pstringsvalue.timestamp = 0 then (.OK, some (-1))
    else
      let timestamp := pstringsvalue.timestamp.toInt
      (.OK, some (if 0 ≤ timestamp - later then timestamp - later else -2))
  | .notFound => (.NotFound "", some (-2))
  | .error e => (e.status, none)

end RedisString

end RedisDb
