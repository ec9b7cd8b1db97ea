import Mathlib.Data.Prod.Lex
import SwissArmyKnife.RedisDb.MetaValue

/-!
# Meta values and data keys of lists

The meta value of a list has, besides its count, version and expiry time, the two indexes between which its elements
lie.  `ListsMetaValue`, which builds the meta value of a new list, writes the left index in place of the right one
(`encode_new`).  Data keys are ordered by key, version and index, as the comparator of lists orders their encodings.
-/

namespace RedisDb

def InitalLeftIndex : UInt64 := 9223372036854775807

def InitalRightIndex : UInt64 := 9223372036854775808

/-! ### Meta values -/

structure ListsFields where
  count : UInt64
  version : Int32
  timestamp : Int32
  leftindex : UInt64
  rightindex : UInt64
deriving DecidableEq

def ListsFields.encode (f : ListsFields) : Slice :=
  EncodeFixed64 f.count ++ (EncodeFixed32 f.version.toUInt32 ++ (EncodeFixed32 f.timestamp.toUInt32 ++
    (EncodeFixed64 f.leftindex ++ EncodeFixed64 f.rightindex)))

/-- The version after `version`; the time is cast to the type of the version before they are compared. -/
def listsNextVersion (version : Int32) (time : Int) : Int32 :=
  if Int32.ofInt time ≤ version then version + 1 else Int32.ofInt time

structure ListsMetaValue where
  value : Slice
  version : Int32
  timestamp : Int32
  leftindex : UInt64
  rightindex : UInt64

namespace ListsMetaValue

def new (uservalue : Slice) : ListsMetaValue := ⟨uservalue, 0, 0, InitalLeftIndex, InitalRightIndex⟩

def UpdateVersion (m : ListsMetaValue) (time : Int) : ListsMetaValue :=
  { m with version := listsNextVersion m.version time }

def ModifyLeftIndex (m : ListsMetaValue) (index : UInt64) : ListsMetaValue :=
  { m with leftindex := m.leftindex - index }

def AppendTimestampAndVersion (m : ListsMetaValue) : Slice :=
  m.value ++ (EncodeFixed32 m.version.toUInt32 ++ EncodeFixed32 m.timestamp.toUInt32)

/-- The left index is written twice. -/
def AppendIndex (m : ListsMetaValue) : Slice := EncodeFixed64 m.leftindex ++ EncodeFixed64 m.leftindex

def Encode (m : ListsMetaValue) : Slice := m.AppendTimestampAndVersion ++ m.AppendIndex

end ListsMetaValue

structure ParsedListsMetaValue where
  value : Slice
  count : UInt64
  version : Int32
  timestamp : Int32
  leftindex : UInt64
  rightindex : UInt64

namespace ParsedListsMetaValue

def kListsMetaValueSuffixLength : Nat := 2 * 4 + 2 * 8

/-- The assertion of the parser. -/
def accepts (str : Slice) : Bool := decide (kListsMetaValueSuffixLength ≤ str.length)

/-- The parser, which goes on where its assertion fails (`accepts`). -/
def new (str : Slice) : ParsedListsMetaValue :=
  if kListsMetaValueSuffixLength ≤ str.length then
    { value := str
      count := DecodeFixed64 str
      version := (DecodeFixed32 (str.drop (str.length - 4 * 2 - 8 * 2))).toInt32
      timestamp := (DecodeFixed32 (str.drop (str.length - 4 - 8 * 2))).toInt32
      leftindex := DecodeFixed64 (str.drop (str.length - 8 * 2))
      rightindex := DecodeFixed64 (str.drop (str.length - 8)) }
  else
    { value := str, count := DecodeFixed64 str, version := 0, timestamp := 0, leftindex := 0, rightindex := 0 }

def SetCount (p : ParsedListsMetaValue) (count : UInt64) : ParsedListsMetaValue :=
  { p with count := count, value := overwrite p.value 0 (EncodeFixed64 count) }

def ModifyCount (p : ParsedListsMetaValue) (delta : UInt64) : ParsedListsMetaValue := p.SetCount (p.count + delta)

def SetLeftIndex (p : ParsedListsMetaValue) (index : UInt64) : ParsedListsMetaValue :=
  { p with leftindex := index, value := overwrite p.value (p.value.length - 2 * 8) (EncodeFixed64 index) }

def ModifyLeftIndex (p : ParsedListsMetaValue) (index : UInt64) : ParsedListsMetaValue :=
  p.SetLeftIndex (p.leftindex - index)

def SetRightIndex (p : ParsedListsMetaValue) (index : UInt64) : ParsedListsMetaValue :=
  { p with rightindex := index, value := overwrite p.value (p.value.length - 8) (EncodeFixed64 index) }

def ModifyRightIndex (p : ParsedListsMetaValue) (index : UInt64) : ParsedListsMetaValue :=
  p.SetRightIndex (p.rightindex + index)

def SetTimestamp (p : ParsedListsMetaValue) (t : Int32) : ParsedListsMetaValue :=
  { p with timestamp := t, value := overwrite p.value (p.value.length - 4 - 2 * 8) (EncodeFixed32 t.toUInt32) }

def UpdateVersion (p : ParsedListsMetaValue) (time : Int) : ParsedListsMetaValue :=
  let version := listsNextVersion p.version time
  { p with
    version := version
    value := overwrite p.value (p.value.length - kListsMetaValueSuffixLength) (EncodeFixed32 version.toUInt32) }

def InitialMetaValue (p : ParsedListsMetaValue) (time : Int) : ParsedListsMetaValue :=
  ((((p.SetCount 0).SetLeftIndex InitalLeftIndex).SetRightIndex InitalRightIndex).SetTimestamp 0).UpdateVersion time

def IsStale (p : ParsedListsMetaValue) (time : Int) : Bool :=
  if p.timestamp = 0 then false else decide (p.timestamp.toInt < time)

end ParsedListsMetaValue

namespace ListsFields

@[simps] def parsed (f : ListsFields) : ParsedListsMetaValue :=
  ⟨f.encode, f.count, f.version, f.timestamp, f.leftindex, f.rightindex⟩

theorem new_encode (f : ListsFields) : ParsedListsMetaValue.new f.encode = f.parsed := by
  have hcount : DecodeFixed64 f.encode = f.count := decodeFixed64_append ..
  have hversion : DecodeFixed32 (f.encode.drop 8) = f.version.toUInt32 := decodeFixed32_append ..
  have htimestamp : DecodeFixed32 (f.encode.drop 12) = f.timestamp.toUInt32 := decodeFixed32_append ..
  have hleft : DecodeFixed64 (f.encode.drop 16) = f.leftindex := decodeFixed64_append ..
  have hright : DecodeFixed64 (f.encode.drop 24) = f.rightindex := decodeFixed64_append f.rightindex []
  have hnew : ParsedListsMetaValue.new f.encode = ⟨f.encode, DecodeFixed64 f.encode,
    (DecodeFixed32 (f.encode.drop 8)).toInt32, (DecodeFixed32 (f.encode.drop 12)).toInt32,
    DecodeFixed64 (f.encode.drop 16), DecodeFixed64 (f.encode.drop 24)⟩ := rfl
  rw [hnew, hcount, hversion, htimestamp, hleft, hright]
  simp [parsed]

@[simp] theorem setCount_parsed (f : ListsFields) (count : UInt64) :
    f.parsed.SetCount count = { f with count := count : ListsFields }.parsed := rfl

@[simp] theorem setLeftIndex_parsed (f : ListsFields) (index : UInt64) :
    f.parsed.SetLeftIndex index = { f with leftindex := index : ListsFields }.parsed := rfl

@[simp] theorem setRightIndex_parsed (f : ListsFields) (index : UInt64) :
    f.parsed.SetRightIndex index = { f with rightindex := index : ListsFields }.parsed := rfl

@[simp] theorem setTimestamp_parsed (f : ListsFields) (t : Int32) :
    f.parsed.SetTimestamp t = { f with timestamp := t : ListsFields }.parsed := rfl

@[simp] theorem updateVersion_parsed (f : ListsFields) (time : Int) :
    f.parsed.UpdateVersion time = { f with version := listsNextVersion f.version time : ListsFields }.parsed := rfl

@[simp] theorem modifyCount_parsed (f : ListsFields) (delta : UInt64) :
    f.parsed.ModifyCount delta = { f with count := f.count + delta : ListsFields }.parsed :=
  setCount_parsed f (f.count + delta)

@[simp] theorem modifyLeftIndex_parsed (f : ListsFields) (index : UInt64) :
    f.parsed.ModifyLeftIndex index = { f with leftindex := f.leftindex - index : ListsFields }.parsed :=
  setLeftIndex_parsed f (f.leftindex - index)

@[simp] theorem modifyRightIndex_parsed (f : ListsFields) (index : UInt64) :
    f.parsed.ModifyRightIndex index = { f with rightindex := f.rightindex + index : ListsFields }.parsed :=
  setRightIndex_parsed f (f.rightindex + index)

@[simp] theorem initialMetaValue_parsed (f : ListsFields) (time : Int) : f.parsed.InitialMetaValue time =
    (⟨0, listsNextVersion f.version time, 0, InitalLeftIndex, InitalRightIndex⟩ : ListsFields).parsed := by
  simp only [ParsedListsMetaValue.InitialMetaValue, setCount_parsed, setLeftIndex_parsed, setRightIndex_parsed,
    setTimestamp_parsed, updateVersion_parsed]

/-- The meta value that is built for a new list: its right index is its left index. -/
theorem encode_new (count left : UInt64) (version : Int32) :
    ({ ListsMetaValue.new (EncodeFixed64 count) with version := version, leftindex := left }).Encode =
      (⟨count, version, 0, left, left⟩ : ListsFields).encode := rfl

end ListsFields

/-- A version that was updated is greater, unless the counter is at its end. -/
theorem lt_listsNextVersion {version : Int32} {time : Int} (hversion : version.toInt < 2 ^ 31 - 1) :
    version.toInt < (listsNextVersion version time).toInt := by
  have hmin : -2 ^ 31 ≤ version.toInt := version.le_toInt
  unfold listsNextVersion
  split
  · rw [Int32.toInt_add, Int32.toInt_one, Int.bmod_eq_of_le (by omega) (by omega)]
    omega
  · rename_i h
    rw [Int32.le_iff_toInt_le] at h
    omega

/-! ### Data keys -/

@[ext]
structure ListsDataKey where
  key : Slice
  version : Int32
  index : UInt64
deriving DecidableEq

namespace ListsDataKey

def Encode (k : ListsDataKey) : Slice :=
  EncodeFixed32 (UInt32.ofNat k.key.length) ++ (k.key ++ (EncodeFixed32 k.version.toUInt32 ++ EncodeFixed64 k.index))

private def toTuple (k : ListsDataKey) : Slice ×ₗ ℤ ×ₗ ℕ := toLex (k.key, toLex (k.version.toInt, k.index.toNat))

private theorem toTuple_injective : Function.Injective toTuple := by
  intro a b h
  simp only [toTuple, EmbeddingLike.apply_eq_iff_eq, Prod.mk.injEq] at h
  exact ListsDataKey.ext h.1 (Int32.toInt.inj h.2.1) (UInt64.toNat_inj.1 h.2.2)

/-- By key, then version, then index. -/
instance : LinearOrder ListsDataKey := LinearOrder.lift' toTuple toTuple_injective

theorem lt_iff {a b : ListsDataKey} : a < b ↔ a.key < b.key ∨ a.key = b.key ∧
    (a.version.toInt < b.version.toInt ∨ a.version.toInt = b.version.toInt ∧ a.index.toNat < b.index.toNat) := by
  change toTuple a < toTuple b ↔ _
  simp [toTuple, Prod.Lex.toLex_lt_toLex]

end ListsDataKey

end RedisDb
