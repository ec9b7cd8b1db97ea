import SwissArmyKnife.RedisDb.Comparator
import Mathlib.Tactic.Simps.Basic

/-!
# Meta values and data keys

A key of a set, a hash or a sorted set has a meta value with the number of its elements, the version under which they
are stored and an expiry time.  `BaseMetaValue` builds one, and `ParsedBaseMetaValue` reads one and writes its fields
back.  The elements are stored under data keys, which hold the key, the version and the element.  `time` stands for
what `time(0)` returns.
-/

namespace RedisDb

/-! ### Meta values -/

/-- The fields of a meta value. -/
structure MetaFields where
  count : Int32
  version : Int32
  timestamp : Int32
deriving DecidableEq

def MetaFields.encode (f : MetaFields) : Slice :=
  EncodeFixed32 f.count.toUInt32 ++ (EncodeFixed32 f.version.toUInt32 ++ EncodeFixed32 f.timestamp.toUInt32)

/-- The version after `version` at a given time. -/
def nextVersion (version : Int32) (time : Int) : Int32 :=
  if time ≤ version.toInt then version + 1 else Int32.ofInt time

structure BaseMetaValue where
  value : Slice
  version : Int32
  timestamp : Int32

namespace BaseMetaValue

def new (value : Slice) : BaseMetaValue := ⟨value, 0, 0⟩

def UpdateVersion (m : BaseMetaValue) (time : Int) : BaseMetaValue :=
  { m with version := nextVersion m.version time }

def Encode (m : BaseMetaValue) : Slice :=
  m.value ++ (EncodeFixed32 m.version.toUInt32 ++ EncodeFixed32 m.timestamp.toUInt32)

end BaseMetaValue

/-- The string with `bytes` written at an offset. -/
def overwrite (str : Slice) (offset : Nat) (bytes : Slice) : Slice :=
  str.take offset ++ bytes ++ str.drop (offset + bytes.length)

/-- `value` is the string that was parsed, to which the setters write. -/
structure ParsedBaseMetaValue where
  value : Slice
  version : Int32
  timestamp : Int32
  count : Int32

namespace ParsedBaseMetaValue

def kBaseMetaValueSuffixLength : Nat := 2 * 4

def new (str : Slice) : ParsedBaseMetaValue :=
  let count := (DecodeFixed32 str).toInt32
  if kBaseMetaValueSuffixLength ≤ str.length then
    { value := str
      version := (DecodeFixed32 (str.drop (str.length - kBaseMetaValueSuffixLength))).toInt32
      timestamp := (DecodeFixed32 (str.drop (str.length - 4))).toInt32
      count := count }
  else { value := str, version := 0, timestamp := 0, count := count }

def SetCount (p : ParsedBaseMetaValue) (count : Int32) : ParsedBaseMetaValue :=
  { p with count := count, value := overwrite p.value 0 (EncodeFixed32 count.toUInt32) }

def ModifyCount (p : ParsedBaseMetaValue) (delta : Int32) : ParsedBaseMetaValue := p.SetCount (p.count + delta)

def SetTimestamp (p : ParsedBaseMetaValue) (t : Int32) : ParsedBaseMetaValue :=
  { p with timestamp := t, value := overwrite p.value (p.value.length - 4) (EncodeFixed32 t.toUInt32) }

def SetRelativeTimestamp (p : ParsedBaseMetaValue) (ttl : Int32) (time : Int) : ParsedBaseMetaValue :=
  p.SetTimestamp (Int32.ofInt (time + ttl.toInt))

def UpdateVersion (p : ParsedBaseMetaValue) (time : Int) : ParsedBaseMetaValue :=
  let version := nextVersion p.version time
  { p with
    version := version
    value := overwrite p.value (p.value.length - kBaseMetaValueSuffixLength) (EncodeFixed32 version.toUInt32) }

def InitialMetaValue (p : ParsedBaseMetaValue) (time : Int) : ParsedBaseMetaValue :=
  ((p.SetCount 0).SetTimestamp 0).UpdateVersion time

def IsStale (p : ParsedBaseMetaValue) (time : Int) : Bool :=
  if p.timestamp = 0 then false else decide (p.timestamp.toInt < time)

end ParsedBaseMetaValue

/-! ### A parsed meta value keeps its string in step with its fields -/

namespace MetaFields

/-- The parsed meta value with these fields. -/
@[simps] def parsed (f : MetaFields) : ParsedBaseMetaValue := ⟨f.encode, f.version, f.timestamp, f.count⟩

@[simp] theorem length_encode (f : MetaFields) : f.encode.length = 12 := rfl

theorem new_encode (f : MetaFields) : ParsedBaseMetaValue.new f.encode = f.parsed := by
  have hcount : DecodeFixed32 f.encode = f.count.toUInt32 := decodeFixed32_append ..
  have hversion : DecodeFixed32 (f.encode.drop 4) = f.version.toUInt32 := decodeFixed32_append ..
  have htimestamp : DecodeFixed32 (f.encode.drop 8) = f.timestamp.toUInt32 :=
    decodeFixed32_append f.timestamp.toUInt32 []
  have hnew : ParsedBaseMetaValue.new f.encode = ⟨f.encode, (DecodeFixed32 (f.encode.drop 4)).toInt32,
    (DecodeFixed32 (f.encode.drop 8)).toInt32, (DecodeFixed32 f.encode).toInt32⟩ := rfl
  rw [hnew, hcount, hversion, htimestamp]
  simp [parsed]

@[simp] theorem modifyCount_parsed (f : MetaFields) (delta : Int32) :
    f.parsed.ModifyCount delta = { f with count := f.count + delta : MetaFields }.parsed := rfl

@[simp] theorem setTimestamp_parsed (f : MetaFields) (t : Int32) :
    f.parsed.SetTimestamp t = { f with timestamp := t : MetaFields }.parsed := rfl

@[simp] theorem initialMetaValue_parsed (f : MetaFields) (time : Int) :
    f.parsed.InitialMetaValue time = (⟨0, nextVersion f.version time, 0⟩ : MetaFields).parsed := rfl

/-- The meta value that is built for a key that has none. -/
theorem encode_new (count : Int32) (time : Int) :
    ((BaseMetaValue.new (EncodeFixed32 count.toUInt32)).UpdateVersion time).Encode =
      (⟨count, nextVersion 0 time, 0⟩ : MetaFields).encode := rfl

end MetaFields

/-- A version that was updated is greater, unless the counter is at its end. -/
theorem lt_nextVersion {version : Int32} {time : Int} (hversion : version.toInt < 2 ^ 31 - 1)
    (htime : time < 2 ^ 31) :
    version.toInt < (nextVersion version time).toInt := by
  have hmin : -2 ^ 31 ≤ version.toInt := version.le_toInt
  unfold nextVersion
  split
  · rw [Int32.toInt_add, Int32.toInt_one, Int.bmod_eq_of_le (by omega) (by omega)]
    omega
  · rw [Int32.toInt_ofInt_of_le (by omega) (by omega)]
    omega

/-! ### Data keys -/

/-- `BaseDataKey::Encode`. -/
def BaseDataKey (key : Slice) (version : Int32) (data : Slice) : Slice :=
  EncodeFixed32 (UInt32.ofNat key.length) ++ (key ++ (EncodeFixed32 version.toUInt32 ++ data))

/-- `ParsedDataKey::GetData`; the length of the key is read as a signed integer. -/
def ParsedDataKey.GetData (k : Slice) : Slice := k.drop (4 + (DecodeFixed32 k).toInt32.toNatClampNeg + 4)

theorem getData_baseDataKey {key : Slice} (hkey : key.length < 2 ^ 31) (version : Int32) (data : Slice) :
    ParsedDataKey.GetData (BaseDataKey key version data) = data := by
  have hlen : (UInt32.ofNat key.length).toInt32.toNatClampNeg = key.length := by
    change (UInt32.ofNat key.length).toInt32.toInt.toNat = key.length
    rw [UInt32.toInt32_ofNat', Int32.toInt_ofNat_of_lt hkey]
    rfl
  have hassoc : BaseDataKey key version data =
      (EncodeFixed32 (UInt32.ofNat key.length) ++ (key ++ EncodeFixed32 version.toUInt32)) ++ data := by
    simp [BaseDataKey]
  rw [ParsedDataKey.GetData, hassoc, List.append_assoc, decodeFixed32_append, hlen, ← List.append_assoc]
  exact List.drop_left' (by simp; omega)

/-- The data keys of a version start with the data key of the empty element. -/
theorem baseDataKey_eq_append (key : Slice) (version : Int32) (data : Slice) :
    BaseDataKey key version data = BaseDataKey key version [] ++ data := by
  simp [BaseDataKey]

theorem baseDataKey_injective {key : Slice} {version version' : Int32} {data data' : Slice}
    (h : BaseDataKey key version data = BaseDataKey key version' data') : version = version' ∧ data = data' := by
  have hrest := List.append_cancel_left (List.append_cancel_left h)
  obtain ⟨hversion, hdata⟩ := List.append_inj hrest rfl
  have hdecode := congrArg (fun s => (DecodeFixed32 (s ++ [])).toInt32) hversion
  simp only [decodeFixed32_append, Int32.toInt32_toUInt32] at hdecode
  exact ⟨hdecode, hdata⟩

theorem baseDataKey_ne (key : Slice) (version : Int32) (data : Slice) : BaseDataKey key version data ≠ key := by
  intro h
  have := congrArg List.length h
  simp [BaseDataKey] at this
  omega

/-- A data key of the key starts with the data key of the empty element of its own version only. -/
theorem startsWith_baseDataKey_iff {key : Slice} {version version' : Int32} {data : Slice} :
    StartsWith (BaseDataKey key version data) (BaseDataKey key version' []) = true ↔ version = version' := by
  constructor
  · intro h
    obtain ⟨rest, hrest⟩ := startsWith_iff.1 h
    rw [← baseDataKey_eq_append] at hrest
    exact (baseDataKey_injective hrest).1
  · rintro rfl
    rw [baseDataKey_eq_append]
    exact startsWith_append ..

/-- Data keys of one version are in the order of the elements. -/
theorem baseDataKey_lt_iff {key : Slice} {version : Int32} {data data' : Slice} :
    BaseDataKey key version data < BaseDataKey key version data' ↔ data < data' := by
  rw [baseDataKey_eq_append, baseDataKey_eq_append key version data']
  exact append_lt_append_iff

end RedisDb
