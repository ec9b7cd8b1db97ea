import SwissArmyKnife.RedisDb.RedisString
import SwissArmyKnife.RedisDb.ZSetsScoreKey
import SwissArmyKnife.RedisDb.ListsMetaValue

/-!
# Meta values and data keys, written and read back

Each class that encodes a meta value or a data key has a class that parses it, with one constructor for a string and
one for a view.  `roundTrips_iff` says for which values both give every field back, and `inStep_iff` after which calls
of setters the string of a parsed object holds its fields.
-/

namespace RedisDb

/-! ### The keys of elements -/

/-- The length of the key in a data key; there is none when it is negative, or when one of the `suffix` bytes after
the key is read beyond the end. -/
def keyLength (k : Slice) (suffix : Nat) : Option Nat :=
  let keylen := (DecodeFixed32 k).toInt32.toInt
  if 0 ≤ keylen ∧ 4 + keylen.toNat + suffix ≤ k.length then some keylen.toNat else none

/-- What `BaseDataKey` is made from, and what `ParsedDataKey` returns. -/
structure DataFields where
  key : Slice
  version : Int32
  data : Slice
deriving DecidableEq

namespace DataFields

def Encode (f : DataFields) : Slice := BaseDataKey f.key f.version f.data

end DataFields

namespace ParsedDataKey

/-- The constructor for a string, which takes the key from the beginning of the string. -/
def ofString (k : Slice) : Option DataFields :=
  (keyLength k 4).map fun keyLen =>
    ⟨k.take keyLen, (DecodeFixed32 (k.drop (4 + keyLen))).toInt32, k.drop (4 + keyLen + 4)⟩

def ofView (k : Slice) : Option DataFields :=
  (keyLength k 4).map fun keyLen =>
    ⟨(k.drop 4).take keyLen, (DecodeFixed32 (k.drop (4 + keyLen))).toInt32, k.drop (4 + keyLen + 4)⟩

end ParsedDataKey

/-- What `ZSetsScoreKey` is made from, with the bits of the score, and what `ParsedZSetsScoreKey` returns. -/
structure ScoreFields where
  key : Slice
  version : Int32
  score : UInt64
  member : Slice
deriving DecidableEq

namespace ScoreFields

def Encode (f : ScoreFields) : Slice := BaseDataKey f.key f.version (EncodeFixed64 f.score ++ f.member)

end ScoreFields

namespace ParsedZSetsScoreKey

/-- The constructor for a string, which takes the key from the beginning of the string. -/
def ofString (k : Slice) : Option ScoreFields :=
  (keyLength k (4 + 8)).map fun keylen =>
    ⟨k.take keylen, (DecodeFixed32 (k.drop (4 + keylen))).toInt32, DecodeFixed64 (k.drop (4 + keylen + 4)),
      k.drop (4 + keylen + 4 + 8)⟩

def ofView (k : Slice) : Option ScoreFields :=
  (keyLength k (4 + 8)).map fun keylen =>
    ⟨(k.drop 4).take keylen, (DecodeFixed32 (k.drop (4 + keylen))).toInt32, DecodeFixed64 (k.drop (4 + keylen + 4)),
      k.drop (4 + keylen + 4 + 8)⟩

end ParsedZSetsScoreKey

namespace ParsedListsDataKey

def ofString (k : Slice) : Option ListsDataKey :=
  (keyLength k (4 + 8)).map fun keylen =>
    ⟨(k.drop 4).take keylen, (DecodeFixed32 (k.drop (4 + keylen))).toInt32, DecodeFixed64 (k.drop (4 + keylen + 4))⟩

def ofView (k : Slice) : Option ListsDataKey :=
  (keyLength k (4 + 8)).map fun keylen =>
    ⟨(k.drop 4).take keylen, (DecodeFixed32 (k.drop (4 + keylen))).toInt32, DecodeFixed64 (k.drop (4 + keylen + 4))⟩

end ParsedListsDataKey

/-! ### Meta values -/

/-- What `StringsMetaValue` is made from, and what `ParsedStringsMetaValue` returns; the version is not encoded. -/
structure StringsFields where
  value : Slice
  version : Int32
  timestamp : Int32
deriving DecidableEq

namespace StringsFields

def Encode (f : StringsFields) : Slice := (StringsMetaValue.mk f.value f.timestamp).Encode

end StringsFields

/-- A `ParsedStringsMetaValue` with its version. -/
structure ParsedStringsObject extends ParsedStringsMetaValue where
  version : Int32

namespace ParsedStringsObject

def ofString (str : Slice) : ParsedStringsObject := { ParsedStringsMetaValue.new str with version := 0 }

def fields (p : ParsedStringsObject) : StringsFields := ⟨p.uservalue, p.version, p.timestamp⟩

def ofView (str : Slice) : StringsFields :=
  if ParsedStringsMetaValue.kStringsValueSuffixLength ≤ str.length then
    ⟨str.take (str.length - ParsedStringsMetaValue.kStringsValueSuffixLength), 0,
      (DecodeFixed32 (str.drop (str.length - ParsedStringsMetaValue.kStringsValueSuffixLength))).toInt32⟩
  else ⟨[], 0, 0⟩

end ParsedStringsObject

/-- What `ParsedBaseMetaValue` returns; the value starts with the count. -/
structure BaseFields where
  value : Slice
  version : Int32
  timestamp : Int32
  count : Int32
deriving DecidableEq

namespace ParsedBaseMetaValue

/-- The user value, as a view of the string. -/
def GetValue (p : ParsedBaseMetaValue) : Slice :=
  if kBaseMetaValueSuffixLength ≤ p.value.length then p.value.take (p.value.length - kBaseMetaValueSuffixLength)
  else []

def fields (p : ParsedBaseMetaValue) : BaseFields := ⟨p.GetValue, p.version, p.timestamp, p.count⟩

def ofView (str : Slice) : BaseFields :=
  let count := (DecodeFixed32 str).toInt32
  if kBaseMetaValueSuffixLength ≤ str.length then
    { value := str.take (str.length - kBaseMetaValueSuffixLength)
      version := (DecodeFixed32 (str.drop (str.length - kBaseMetaValueSuffixLength))).toInt32
      timestamp := (DecodeFixed32 (str.drop (str.length - 4))).toInt32
      count := count }
  else { value := [], version := 0, timestamp := 0, count := count }

/-- The version of the object alone. -/
def SetVersion (p : ParsedBaseMetaValue) (v : Int32) : ParsedBaseMetaValue := { p with version := v }

def SetVersionToValue (p : ParsedBaseMetaValue) : ParsedBaseMetaValue :=
  { p with
    value := overwrite p.value (p.value.length - kBaseMetaValueSuffixLength) (EncodeFixed32 p.version.toUInt32) }

def SetTimestampToValue (p : ParsedBaseMetaValue) : ParsedBaseMetaValue :=
  { p with value := overwrite p.value (p.value.length - 4) (EncodeFixed32 p.timestamp.toUInt32) }

end ParsedBaseMetaValue

/-- What `ParsedListsMetaValue` returns; the value starts with the count. -/
structure ListsMetaFields where
  value : Slice
  version : Int32
  timestamp : Int32
  count : UInt64
  leftindex : UInt64
  rightindex : UInt64
deriving DecidableEq

namespace ParsedListsMetaValue

/-- The user value, as a view of the string. -/
def GetValue (p : ParsedListsMetaValue) : Slice :=
  if kListsMetaValueSuffixLength ≤ p.value.length then p.value.take (p.value.length - kListsMetaValueSuffixLength)
  else []

def fields (p : ParsedListsMetaValue) : ListsMetaFields :=
  ⟨p.GetValue, p.version, p.timestamp, p.count, p.leftindex, p.rightindex⟩

def ofView (str : Slice) : ListsMetaFields :=
  if kListsMetaValueSuffixLength ≤ str.length then
    { value := str.take (str.length - kListsMetaValueSuffixLength)
      version := (DecodeFixed32 (str.drop (str.length - 4 * 2 - 8 * 2))).toInt32
      timestamp := (DecodeFixed32 (str.drop (str.length - 4 - 8 * 2))).toInt32
      count := DecodeFixed64 str
      leftindex := DecodeFixed64 (str.drop (str.length - 8 * 2))
      rightindex := DecodeFixed64 (str.drop (str.length - 8)) }
  else
    { value := [], version := 0, timestamp := 0, count := DecodeFixed64 str, leftindex := 0, rightindex := 0 }

def SetRelativeTimestamp (p : ParsedListsMetaValue) (ttl : Int32) (time : Int) : ParsedListsMetaValue :=
  p.SetTimestamp (Int32.ofInt (time + ttl.toInt))

/-- The version of the object alone. -/
def SetVersion (p : ParsedListsMetaValue) (v : Int32) : ParsedListsMetaValue := { p with version := v }

def SetVersionToValue (p : ParsedListsMetaValue) : ParsedListsMetaValue :=
  { p with
    value := overwrite p.value (p.value.length - kListsMetaValueSuffixLength) (EncodeFixed32 p.version.toUInt32) }

def SetTimestampToValue (p : ParsedListsMetaValue) : ParsedListsMetaValue :=
  { p with value := overwrite p.value (p.value.length - 4 - 2 * 8) (EncodeFixed32 p.timestamp.toUInt32) }

def SetIndexToValue (p : ParsedListsMetaValue) : ParsedListsMetaValue :=
  { p with
    value := overwrite p.value (p.value.length - 2 * 8) (EncodeFixed64 p.leftindex ++ EncodeFixed64 p.rightindex) }

end ParsedListsMetaValue

/-! ### Reading back what was encoded -/

theorem keyLength_bounds {k : Slice} {suffix keylen : Nat} (h : keyLength k suffix = some keylen) :
    keylen < 2 ^ 31 ∧ 4 + keylen + suffix ≤ k.length := by
  have hlt := (DecodeFixed32 k).toInt32.toInt_lt
  simp only [keyLength] at h
  split at h
  · rename_i hbounds
    obtain rfl := Option.some.inj h
    omega
  · simp at h

theorem keyLength_baseDataKey {key : Slice} (hkey : key.length < 2 ^ 31) (version : Int32)
    {data : Slice} {suffix : Nat}
    (hsuffix : suffix ≤ 4 + data.length) : keyLength (BaseDataKey key version data) suffix = some key.length := by
  have hdecode : DecodeFixed32 (BaseDataKey key version data) = UInt32.ofNat key.length := decodeFixed32_append ..
  have hlen : (UInt32.ofNat key.length).toInt32.toInt = key.length := by
    rw [UInt32.toInt32_ofNat', Int32.toInt_ofNat_of_lt hkey]
  have hlength : (BaseDataKey key version data).length = 4 + key.length + 4 + data.length := by
    simp [BaseDataKey]
    omega
  rw [keyLength, hdecode, hlen, if_pos (by rw [hlength]; omega)]
  rfl

section DataKeys

variable (key : Slice) (version : Int32) (data : Slice)

theorem take_baseDataKey : (BaseDataKey key version data).take key.length =
    (EncodeFixed32 (UInt32.ofNat key.length) ++ key).take key.length := by
  rw [BaseDataKey, ← List.append_assoc, List.take_append_of_le_length (by simp)]

theorem take_drop_baseDataKey : ((BaseDataKey key version data).drop 4).take key.length = key := by
  have hdrop : (BaseDataKey key version data).drop 4 = key ++ (EncodeFixed32 version.toUInt32 ++ data) := rfl
  rw [hdrop, List.take_left]

theorem drop_baseDataKey :
    (BaseDataKey key version data).drop (4 + key.length) = EncodeFixed32 version.toUInt32 ++ data := by
  have hdrop : (BaseDataKey key version data).drop 4 = key ++ (EncodeFixed32 version.toUInt32 ++ data) := rfl
  rw [← List.drop_drop, hdrop, List.drop_left]

theorem drop_drop_baseDataKey : (BaseDataKey key version data).drop (4 + key.length + 4) = data := by
  rw [← List.drop_drop, drop_baseDataKey]
  rfl

theorem decode_drop_baseDataKey :
    (DecodeFixed32 ((BaseDataKey key version data).drop (4 + key.length))).toInt32 = version := by
  rw [drop_baseDataKey, decodeFixed32_append, Int32.toInt32_toUInt32]

end DataKeys

/-- A parser that reads at least the key back finds it when its length is not negative as a signed number. -/
theorem map_keyLength_eq_some_iff {α : Type*} {key data : Slice} {version : Int32} {suffix : Nat} {get : Nat → α}
    {target : α} (hsuffix : suffix ≤ 4 + data.length)
    (hlength : ∀ n, 4 + n ≤ (BaseDataKey key version data).length → get n = target → n = key.length) :
    (keyLength (BaseDataKey key version data) suffix).map get = some target ↔
      key.length < 2 ^ 31 ∧ get key.length = target := by
  constructor
  · intro h
    obtain ⟨keylen, hkeylen, heq⟩ := Option.map_eq_some_iff.1 h
    obtain ⟨hlt, hle⟩ := keyLength_bounds hkeylen
    obtain rfl := hlength keylen (by omega) heq
    exact ⟨hlt, heq⟩
  · rintro ⟨hkey, heq⟩
    rw [keyLength_baseDataKey hkey version hsuffix, Option.map_some, heq]

/-- The key begins with its own length, so that it is read back also from four bytes further left. -/
def RepeatsLength (key : Slice) : Prop := key <+: EncodeFixed32 (UInt32.ofNat key.length) ++ key

theorem repeatsLength_iff {key : Slice} (version : Int32) (data : Slice) :
    RepeatsLength key ↔ (BaseDataKey key version data).take key.length = key := by
  rw [RepeatsLength, take_baseDataKey, List.prefix_iff_eq_take]
  exact eq_comm

theorem DataFields.ofView_eq_iff (f : DataFields) :
    ParsedDataKey.ofView f.Encode = some f ↔ f.key.length < 2 ^ 31 := by
  rw [Encode]
  refine (map_keyLength_eq_some_iff (by omega) fun n hn heq => ?_).trans (and_iff_left ?_)
  · have hkey := congrArg (fun f => f.key.length) heq
    simp only [List.length_take, List.length_drop] at hkey
    omega
  · rw [take_drop_baseDataKey, decode_drop_baseDataKey, drop_drop_baseDataKey]

theorem DataFields.ofString_eq_iff (f : DataFields) :
    ParsedDataKey.ofString f.Encode = some f ↔ f.key.length < 2 ^ 31 ∧ RepeatsLength f.key := by
  rw [Encode]
  refine (map_keyLength_eq_some_iff (by omega) fun n hn heq => ?_).trans (and_congr_right fun _ => ?_)
  · have hkey := congrArg (fun f => f.key.length) heq
    simp only [List.length_take] at hkey
    omega
  · rw [decode_drop_baseDataKey, drop_drop_baseDataKey, repeatsLength_iff f.version f.data]
    exact ⟨fun heq => congrArg (fun f => f.key) heq, fun hkey => by rw [hkey]⟩

section ScoreKeys

variable (key : Slice) (version : Int32) (score : UInt64) (member : Slice)

private theorem decode_score :
    DecodeFixed64 ((BaseDataKey key version (EncodeFixed64 score ++ member)).drop (4 + key.length + 4)) = score := by
  rw [drop_drop_baseDataKey, decodeFixed64_append]

private theorem drop_score :
    (BaseDataKey key version (EncodeFixed64 score ++ member)).drop (4 + key.length + 4 + 8) = member := by
  rw [← List.drop_drop, drop_drop_baseDataKey]
  rfl

end ScoreKeys

theorem ScoreFields.ofView_eq_iff (f : ScoreFields) :
    ParsedZSetsScoreKey.ofView f.Encode = some f ↔ f.key.length < 2 ^ 31 := by
  rw [Encode]
  refine (map_keyLength_eq_some_iff (by simp; omega) fun n hn heq => ?_).trans (and_iff_left ?_)
  · have hkey := congrArg (fun f => f.key.length) heq
    simp only [List.length_take, List.length_drop] at hkey
    omega
  · rw [take_drop_baseDataKey, decode_drop_baseDataKey, decode_score, drop_score]

theorem ScoreFields.ofString_eq_iff (f : ScoreFields) :
    ParsedZSetsScoreKey.ofString f.Encode = some f ↔ f.key.length < 2 ^ 31 ∧ RepeatsLength f.key := by
  rw [Encode]
  refine (map_keyLength_eq_some_iff (by simp; omega) fun n hn heq => ?_).trans (and_congr_right fun _ => ?_)
  · have hkey := congrArg (fun f => f.key) heq
    have hlen := congrArg List.length hkey
    simp only [List.length_take] at hlen
    omega
  · rw [decode_drop_baseDataKey, decode_score, drop_score,
      repeatsLength_iff f.version (EncodeFixed64 f.score ++ f.member)]
    exact ⟨fun heq => congrArg (fun f => f.key) heq, fun hkey => by rw [hkey]⟩

theorem ListsDataKey.encode_eq (k : ListsDataKey) :
    k.Encode = BaseDataKey k.key k.version (EncodeFixed64 k.index) := rfl

theorem ListsDataKey.ofView_eq_iff (k : ListsDataKey) :
    ParsedListsDataKey.ofView k.Encode = some k ↔ k.key.length < 2 ^ 31 := by
  rw [encode_eq]
  refine (map_keyLength_eq_some_iff (by simp) fun n hn heq => ?_).trans (and_iff_left ?_)
  · have hkey := congrArg (fun k => k.key.length) heq
    simp only [List.length_take, List.length_drop] at hkey
    omega
  · have hindex := decode_score k.key k.version k.index []
    rw [List.append_nil] at hindex
    rw [take_drop_baseDataKey, decode_drop_baseDataKey, hindex]

/-! ### Setters -/

/-- What a setter does to the version: nothing, set that of the object, or change it and write it to the string. -/
inductive VersionEffect where
  | none
  | set (v : Int32)
  | write (f : Int32 → Int32)

/-- The version in the string and the version of the object after a setter. -/
def VersionEffect.step (versions : Int32 × Int32) : VersionEffect → Int32 × Int32
  | none => versions
  | set v => (versions.1, v)
  | write f => (f versions.2, f versions.2)

/-- After the setters the string holds the version of the object: the one that was written last is the one that was
set last. -/
def InStep (version : Int32) (effects : List VersionEffect) : Prop :=
  (effects.foldl VersionEffect.step (version, version)).1 = (effects.foldl VersionEffect.step (version, version)).2

instance (version : Int32) (effects : List VersionEffect) : Decidable (InStep version effects) :=
  inferInstanceAs (Decidable (_ = _))

theorem overwrite_append (before old after bytes : Slice) (h : bytes.length = old.length) :
    overwrite (before ++ (old ++ after)) before.length bytes = before ++ (bytes ++ after) := by
  rw [overwrite, List.take_left, ← List.drop_drop, List.drop_left, h, List.drop_left, List.append_assoc]

theorem overwrite_front (old after bytes : Slice) (h : bytes.length = old.length) :
    overwrite (old ++ after) 0 bytes = bytes ++ after := overwrite_append [] old after bytes h

/-- Bytes that are written at an offset from the end, over as many old ones. -/
theorem overwrite_back (str str' : Slice) (k : Nat) (before old after bytes : Slice)
    (hstr : str = before ++ (old ++ after)) (hstr' : str' = before ++ (bytes ++ after))
    (hlen : bytes.length = old.length) (hk : k = old.length + after.length) :
    overwrite str (str.length - k) bytes = str' := by
  have hoffset : str.length - k = before.length := by
    rw [hstr, List.length_append, List.length_append]
    omega
  rw [hoffset, hstr, overwrite_append before old after bytes hlen, hstr']

/-- The end of a list begins with what is left of it after some more elements are dropped. -/
private theorem drop_back {str : Slice} {k width : Nat} (h : k + width ≤ str.length) :
    (str.drop (str.length - (k + width))).take width ++ str.drop (str.length - k) =
      str.drop (str.length - (k + width)) := by
  have hdrop : str.drop (str.length - k) = (str.drop (str.length - (k + width))).drop width := by
    rw [List.drop_drop]
    congr 1
    omega
  rw [hdrop, List.take_append_drop]

namespace ParsedStringsObject

inductive Setter where
  | SetVersion (v : Int32)
  | SetTimestamp (t : Int32)
  | SetRelativeTimestamp (ttl : Int32) (time : Int)
  | SetTimestampToValue

namespace Setter

def apply (p : ParsedStringsObject) : Setter → ParsedStringsObject
  | SetVersion v => { p with version := v }
  | SetTimestamp t => { p with toParsedStringsMetaValue := p.toParsedStringsMetaValue.SetTimestamp t }
  | SetRelativeTimestamp ttl time =>
    { p with toParsedStringsMetaValue := p.toParsedStringsMetaValue.SetRelativeTimestamp ttl time }
  | SetTimestampToValue => { p with toParsedStringsMetaValue := p.toParsedStringsMetaValue.SetTimestamp p.timestamp }

/-- The version of a string is never written. -/
def effect : Setter → VersionEffect
  | SetVersion v => .set v
  | _ => .none

end Setter

/-- The object over the encoding of a value, with a version of its own. -/
def object (m : StringsMetaValue) (version : Int32) : ParsedStringsObject := { m.parsed with version := version }

theorem ofString_encode (m : StringsMetaValue) : ofString m.Encode = object m 0 := by
  rw [ofString, StringsMetaValue.new_encode, object]

theorem ofView_eq (str : Slice) : ofView str = (ofString str).fields := by
  rw [ofView, ofString, fields, ParsedStringsMetaValue.new]
  split
  · rfl
  · rfl

theorem apply_object (m : StringsMetaValue) (versions : Int32 × Int32) (setter : Setter) :
    ∃ m' : StringsMetaValue, setter.apply (object m versions.2) = object m' (setter.effect.step versions).2 ∧
      m'.value = m.value ∧ (setter.effect.step versions).1 = versions.1 := by
  cases setter with
  | SetVersion v => exact ⟨m, rfl, rfl, rfl⟩
  | SetTimestamp t =>
    refine ⟨{ m with timestamp := t }, ?_, rfl, rfl⟩
    simp [Setter.apply, object, Setter.effect, VersionEffect.step]
  | SetRelativeTimestamp ttl time =>
    refine ⟨{ m with timestamp := Int32.ofInt (time + ttl.toInt) }, ?_, rfl, rfl⟩
    simp [Setter.apply, object, Setter.effect, VersionEffect.step, ParsedStringsMetaValue.SetRelativeTimestamp]
  | SetTimestampToValue =>
    refine ⟨m, ?_, rfl, rfl⟩
    simp only [Setter.apply, object, Setter.effect, VersionEffect.step, StringsMetaValue.setTimestamp_parsed]
    rfl

end ParsedStringsObject

namespace ParsedBaseMetaValue

inductive Setter where
  | SetCount (count : Int32)
  | ModifyCount (delta : Int32)
  | SetTimestamp (t : Int32)
  | SetRelativeTimestamp (ttl : Int32) (time : Int)
  | SetVersion (v : Int32)
  | UpdateVersion (time : Int)
  | InitialMetaValue (time : Int)
  | SetVersionToValue
  | SetTimestampToValue

namespace Setter

def apply (p : ParsedBaseMetaValue) : Setter → ParsedBaseMetaValue
  | SetCount count => p.SetCount count
  | ModifyCount delta => p.ModifyCount delta
  | SetTimestamp t => p.SetTimestamp t
  | SetRelativeTimestamp ttl time => p.SetRelativeTimestamp ttl time
  | SetVersion v => p.SetVersion v
  | UpdateVersion time => p.UpdateVersion time
  | InitialMetaValue time => p.InitialMetaValue time
  | SetVersionToValue => p.SetVersionToValue
  | SetTimestampToValue => p.SetTimestampToValue

def effect : Setter → VersionEffect
  | SetVersion v => .set v
  | UpdateVersion time => .write fun version => nextVersion version time
  | InitialMetaValue time => .write fun version => nextVersion version time
  | SetVersionToValue => .write id
  | _ => .none

end Setter

end ParsedBaseMetaValue

/-- The parts of a string that holds a meta value of a collection. -/
structure BaseLayout where
  count : Int32
  rest : Slice
  version : Int32
  timestamp : Int32

namespace BaseLayout

def value (l : BaseLayout) : Slice := EncodeFixed32 l.count.toUInt32 ++ l.rest

theorem drop_value (l : BaseLayout) : l.value.drop 4 = l.rest := rfl

def encode (l : BaseLayout) : Slice := (BaseMetaValue.mk l.value l.version l.timestamp).Encode

/-- The object over the string, with a version of its own. -/
def object (l : BaseLayout) (version : Int32) : ParsedBaseMetaValue := ⟨l.encode, version, l.timestamp, l.count⟩

theorem encode_eq (l : BaseLayout) : l.encode = EncodeFixed32 l.count.toUInt32 ++
    (l.rest ++ (EncodeFixed32 l.version.toUInt32 ++ EncodeFixed32 l.timestamp.toUInt32)) := by
  simp [encode, value, BaseMetaValue.Encode]

@[simp] theorem length_encode (l : BaseLayout) : l.encode.length = l.rest.length + 12 := by
  simp [encode_eq]
  omega

theorem suffix_le (l : BaseLayout) : ParsedBaseMetaValue.kBaseMetaValueSuffixLength ≤ l.encode.length := by
  rw [length_encode, ParsedBaseMetaValue.kBaseMetaValueSuffixLength]
  omega

theorem exists_encode {str : Slice} (h : 12 ≤ str.length) : ∃ l : BaseLayout, str = l.encode := by
  obtain ⟨count, hcount⟩ := exists_encodeFixed32 (p := str.take 4) (by simp; omega)
  obtain ⟨version, hversion⟩ := exists_encodeFixed32 (p := (str.drop (str.length - (4 + 4))).take 4) (by simp; omega)
  obtain ⟨timestamp, htimestamp⟩ := exists_encodeFixed32 (p := str.drop (str.length - 4)) (by simp; omega)
  refine ⟨⟨count.toInt32, (str.drop 4).take (str.length - 12), version.toInt32, timestamp.toInt32⟩, ?_⟩
  rw [encode_eq]
  simp only [UInt32.toUInt32_toInt32]
  rw [← hcount, ← hversion, ← htimestamp, drop_back (by omega)]
  have hmiddle : str.drop (str.length - (4 + 4)) = (str.drop 4).drop (str.length - 12) := by
    rw [List.drop_drop]
    congr 1
    omega
  rw [hmiddle, List.take_append_drop, List.take_append_drop]

/-- The string with the version and the timestamp at its end. -/
private theorem decode_encode (l : BaseLayout) : DecodeFixed32 l.encode = l.count.toUInt32 ∧
    DecodeFixed32 (l.encode.drop (l.encode.length - 8)) = l.version.toUInt32 ∧
      DecodeFixed32 (l.encode.drop (l.encode.length - 4)) = l.timestamp.toUInt32 := by
  have hlength := l.length_encode
  have hversion : l.encode.drop (l.encode.length - 8) =
      EncodeFixed32 l.version.toUInt32 ++ EncodeFixed32 l.timestamp.toUInt32 := by
    rw [hlength, encode_eq, ← List.append_assoc]
    exact List.drop_left' (by simp; omega)
  have htimestamp : l.encode.drop (l.encode.length - 4) = EncodeFixed32 l.timestamp.toUInt32 ++ [] := by
    have hdrop : l.encode.length - 4 = l.encode.length - 8 + 4 := by omega
    rw [hdrop, ← List.drop_drop, hversion, List.append_nil]
    rfl
  refine ⟨?_, ?_, ?_⟩
  · rw [encode_eq, decodeFixed32_append]
  · rw [hversion, decodeFixed32_append]
  · rw [htimestamp, decodeFixed32_append]

theorem new_encode (l : BaseLayout) : ParsedBaseMetaValue.new l.encode = l.object l.version := by
  obtain ⟨hcount, hversion, htimestamp⟩ := l.decode_encode
  simp only [ParsedBaseMetaValue.new]
  rw [if_pos l.suffix_le, show ParsedBaseMetaValue.kBaseMetaValueSuffixLength = 8 from rfl,
    hcount, hversion, htimestamp]
  simp [object]

theorem getValue_object (l : BaseLayout) (version : Int32) : (l.object version).GetValue = l.value := by
  have htake : l.encode.length - ParsedBaseMetaValue.kBaseMetaValueSuffixLength =
      (EncodeFixed32 l.count.toUInt32 ++ l.rest).length := by
    simp [ParsedBaseMetaValue.kBaseMetaValueSuffixLength]
    omega
  rw [ParsedBaseMetaValue.GetValue, object, if_pos l.suffix_le, htake, encode_eq, ← List.append_assoc, List.take_left]
  rfl

/-! Each setter changes one part of the string. -/

theorem setCount_object (l : BaseLayout) (version count : Int32) :
    (l.object version).SetCount count = { l with count := count : BaseLayout }.object version := by
  have hwrite := overwrite_front (EncodeFixed32 l.count.toUInt32)
    (l.rest ++ (EncodeFixed32 l.version.toUInt32 ++ EncodeFixed32 l.timestamp.toUInt32))
    (EncodeFixed32 count.toUInt32) rfl
  simp only [ParsedBaseMetaValue.SetCount, object, encode_eq, hwrite]

theorem setTimestamp_object (l : BaseLayout) (version t : Int32) :
    (l.object version).SetTimestamp t = { l with timestamp := t : BaseLayout }.object version := by
  have hwrite := overwrite_back l.encode { l with timestamp := t : BaseLayout }.encode 4
    (EncodeFixed32 l.count.toUInt32 ++ (l.rest ++ EncodeFixed32 l.version.toUInt32))
    (EncodeFixed32 l.timestamp.toUInt32) [] (EncodeFixed32 t.toUInt32) (by simp [encode_eq])
    (by simp [encode_eq]) rfl rfl
  simp only [ParsedBaseMetaValue.SetTimestamp, object, hwrite]

theorem write_version (l : BaseLayout) (version : Int32) :
    overwrite l.encode (l.encode.length - ParsedBaseMetaValue.kBaseMetaValueSuffixLength)
      (EncodeFixed32 version.toUInt32) = { l with version := version : BaseLayout }.encode :=
  overwrite_back _ _ _ (EncodeFixed32 l.count.toUInt32 ++ l.rest) (EncodeFixed32 l.version.toUInt32)
    (EncodeFixed32 l.timestamp.toUInt32) (EncodeFixed32 version.toUInt32) (by simp [encode_eq]) (by simp [encode_eq])
    rfl rfl

theorem updateVersion_object (l : BaseLayout) (version : Int32) (time : Int) :
    (l.object version).UpdateVersion time =
      { l with version := nextVersion version time : BaseLayout }.object (nextVersion version time) := by
  simp only [ParsedBaseMetaValue.UpdateVersion, object, write_version]

theorem setVersionToValue_object (l : BaseLayout) (version : Int32) :
    (l.object version).SetVersionToValue = { l with version := version : BaseLayout }.object version := by
  simp only [ParsedBaseMetaValue.SetVersionToValue, object, write_version]

theorem setTimestampToValue_object (l : BaseLayout) (version : Int32) :
    (l.object version).SetTimestampToValue = l.object version := l.setTimestamp_object version l.timestamp

theorem apply_object (l : BaseLayout) (versions : Int32 × Int32) (setter : ParsedBaseMetaValue.Setter)
    (h : l.version = versions.1) : ∃ l' : BaseLayout,
      setter.apply (l.object versions.2) = l'.object (setter.effect.step versions).2 ∧
        l'.version = (setter.effect.step versions).1 ∧ l'.rest = l.rest := by
  cases setter with
  | SetCount count => exact ⟨{ l with count := count }, l.setCount_object _ count, h, rfl⟩
  | ModifyCount delta => exact ⟨{ l with count := l.count + delta }, l.setCount_object _ _, h, rfl⟩
  | SetTimestamp t => exact ⟨{ l with timestamp := t }, l.setTimestamp_object _ t, h, rfl⟩
  | SetRelativeTimestamp ttl time =>
    exact ⟨{ l with timestamp := Int32.ofInt (time + ttl.toInt) }, l.setTimestamp_object _ _, h, rfl⟩
  | SetVersion v => exact ⟨l, rfl, h, rfl⟩
  | UpdateVersion time =>
    exact ⟨{ l with version := nextVersion versions.2 time }, l.updateVersion_object _ time, rfl, rfl⟩
  | InitialMetaValue time =>
    refine ⟨⟨0, l.rest, nextVersion versions.2 time, 0⟩, ?_, rfl, rfl⟩
    simp only [ParsedBaseMetaValue.Setter.apply, ParsedBaseMetaValue.InitialMetaValue, setCount_object,
      setTimestamp_object, updateVersion_object]
    rfl
  | SetVersionToValue => exact ⟨{ l with version := versions.2 }, l.setVersionToValue_object _, rfl, rfl⟩
  | SetTimestampToValue => exact ⟨l, l.setTimestampToValue_object _, h, rfl⟩

end BaseLayout

namespace ParsedListsMetaValue

inductive Setter where
  | SetCount (count : UInt64)
  | ModifyCount (delta : UInt64)
  | SetLeftIndex (index : UInt64)
  | ModifyLeftIndex (index : UInt64)
  | SetRightIndex (index : UInt64)
  | ModifyRightIndex (index : UInt64)
  | SetTimestamp (t : Int32)
  | SetRelativeTimestamp (ttl : Int32) (time : Int)
  | SetVersion (v : Int32)
  | UpdateVersion (time : Int)
  | InitialMetaValue (time : Int)
  | SetVersionToValue
  | SetTimestampToValue
  | SetIndexToValue

namespace Setter

def apply (p : ParsedListsMetaValue) : Setter → ParsedListsMetaValue
  | SetCount count => p.SetCount count
  | ModifyCount delta => p.ModifyCount delta
  | SetLeftIndex index => p.SetLeftIndex index
  | ModifyLeftIndex index => p.ModifyLeftIndex index
  | SetRightIndex index => p.SetRightIndex index
  | ModifyRightIndex index => p.ModifyRightIndex index
  | SetTimestamp t => p.SetTimestamp t
  | SetRelativeTimestamp ttl time => p.SetRelativeTimestamp ttl time
  | SetVersion v => p.SetVersion v
  | UpdateVersion time => p.UpdateVersion time
  | InitialMetaValue time => p.InitialMetaValue time
  | SetVersionToValue => p.SetVersionToValue
  | SetTimestampToValue => p.SetTimestampToValue
  | SetIndexToValue => p.SetIndexToValue

def effect : Setter → VersionEffect
  | SetVersion v => .set v
  | UpdateVersion time => .write fun version => listsNextVersion version time
  | InitialMetaValue time => .write fun version => listsNextVersion version time
  | SetVersionToValue => .write id
  | _ => .none

end Setter

end ParsedListsMetaValue

/-- The parts of a string that holds a meta value of a list. -/
structure ListsLayout where
  count : UInt64
  rest : Slice
  version : Int32
  timestamp : Int32
  leftindex : UInt64
  rightindex : UInt64

namespace ListsLayout

def value (l : ListsLayout) : Slice := EncodeFixed64 l.count ++ l.rest

theorem drop_value (l : ListsLayout) : l.value.drop 8 = l.rest := rfl

def encode (l : ListsLayout) : Slice :=
  EncodeFixed64 l.count ++ (l.rest ++ (EncodeFixed32 l.version.toUInt32 ++ (EncodeFixed32 l.timestamp.toUInt32 ++
    (EncodeFixed64 l.leftindex ++ EncodeFixed64 l.rightindex))))

/-- The object over the string, with a version of its own. -/
def object (l : ListsLayout) (version : Int32) : ParsedListsMetaValue :=
  ⟨l.encode, l.count, version, l.timestamp, l.leftindex, l.rightindex⟩

@[simp] theorem length_encode (l : ListsLayout) : l.encode.length = l.rest.length + 32 := by
  simp [encode]
  omega

theorem suffix_le (l : ListsLayout) : ParsedListsMetaValue.kListsMetaValueSuffixLength ≤ l.encode.length := by
  rw [length_encode, ParsedListsMetaValue.kListsMetaValueSuffixLength]
  omega

theorem exists_encode {str : Slice} (h : 32 ≤ str.length) : ∃ l : ListsLayout, str = l.encode := by
  obtain ⟨count, hcount⟩ := exists_encodeFixed64 (p := str.take 8) (by simp; omega)
  obtain ⟨version, hversion⟩ := exists_encodeFixed32 (p := (str.drop (str.length - (20 + 4))).take 4) (by simp; omega)
  obtain ⟨timestamp, htimestamp⟩ :=
    exists_encodeFixed32 (p := (str.drop (str.length - (16 + 4))).take 4) (by simp; omega)
  obtain ⟨left, hleft⟩ := exists_encodeFixed64 (p := (str.drop (str.length - (8 + 8))).take 8) (by simp; omega)
  obtain ⟨right, hright⟩ := exists_encodeFixed64 (p := str.drop (str.length - 8)) (by simp; omega)
  refine ⟨⟨count, (str.drop 8).take (str.length - 32), version.toInt32, timestamp.toInt32, left, right⟩, ?_⟩
  simp only [encode, UInt32.toUInt32_toInt32]
  rw [← hcount, ← hversion, ← htimestamp, ← hleft, ← hright, drop_back (by omega), drop_back (by omega),
    drop_back (by omega)]
  have hmiddle : str.drop (str.length - (20 + 4)) = (str.drop 8).drop (str.length - 32) := by
    rw [List.drop_drop]
    congr 1
    omega
  rw [hmiddle, List.take_append_drop, List.take_append_drop]

/-- What is decoded at an offset from the end. -/
private theorem drop_encode (l : ListsLayout) {k : Nat} (before after : Slice) (hstr : l.encode = before ++ after)
    (hk : k = after.length) : l.encode.drop (l.encode.length - k) = after := by
  rw [hstr]
  exact List.drop_left' (by simp; omega)

theorem new_encode (l : ListsLayout) : ParsedListsMetaValue.new l.encode = l.object l.version := by
  have hcount : DecodeFixed64 l.encode = l.count := decodeFixed64_append ..
  have hversion : DecodeFixed32 (l.encode.drop (l.encode.length - 4 * 2 - 8 * 2)) = l.version.toUInt32 := by
    rw [Nat.sub_sub, l.drop_encode (k := 4 * 2 + 8 * 2) (EncodeFixed64 l.count ++ l.rest)
      (EncodeFixed32 l.version.toUInt32 ++ (EncodeFixed32 l.timestamp.toUInt32 ++
        (EncodeFixed64 l.leftindex ++ EncodeFixed64 l.rightindex))) (by simp [encode]) rfl, decodeFixed32_append]
  have htimestamp : DecodeFixed32 (l.encode.drop (l.encode.length - 4 - 8 * 2)) = l.timestamp.toUInt32 := by
    rw [Nat.sub_sub, l.drop_encode (k := 4 + 8 * 2) (EncodeFixed64 l.count ++ (l.rest ++
      EncodeFixed32 l.version.toUInt32)) (EncodeFixed32 l.timestamp.toUInt32 ++ (EncodeFixed64 l.leftindex ++
        EncodeFixed64 l.rightindex)) (by simp [encode]) rfl, decodeFixed32_append]
  have hleft : DecodeFixed64 (l.encode.drop (l.encode.length - 8 * 2)) = l.leftindex := by
    rw [l.drop_encode (k := 8 * 2) (EncodeFixed64 l.count ++ (l.rest ++ (EncodeFixed32 l.version.toUInt32 ++
      EncodeFixed32 l.timestamp.toUInt32))) (EncodeFixed64 l.leftindex ++ EncodeFixed64 l.rightindex)
      (by simp [encode]) rfl, decodeFixed64_append]
  have hright : DecodeFixed64 (l.encode.drop (l.encode.length - 8)) = l.rightindex := by
    rw [l.drop_encode (k := 8) (EncodeFixed64 l.count ++ (l.rest ++ (EncodeFixed32 l.version.toUInt32 ++
      (EncodeFixed32 l.timestamp.toUInt32 ++ EncodeFixed64 l.leftindex)))) (EncodeFixed64 l.rightindex ++ [])
      (by simp [encode]) rfl, decodeFixed64_append]
  rw [ParsedListsMetaValue.new, if_pos l.suffix_le, hcount, hversion, htimestamp, hleft, hright]
  simp [object]

theorem getValue_object (l : ListsLayout) (version : Int32) : (l.object version).GetValue = l.value := by
  have htake : l.encode.length - ParsedListsMetaValue.kListsMetaValueSuffixLength =
      (EncodeFixed64 l.count ++ l.rest).length := by
    simp [ParsedListsMetaValue.kListsMetaValueSuffixLength]
    omega
  rw [ParsedListsMetaValue.GetValue, object, if_pos l.suffix_le, htake, encode, ← List.append_assoc, List.take_left]
  rfl

theorem setCount_object (l : ListsLayout) (version : Int32) (count : UInt64) :
    (l.object version).SetCount count = { l with count := count : ListsLayout }.object version := by
  have hwrite : overwrite l.encode 0 (EncodeFixed64 count) = { l with count := count : ListsLayout }.encode :=
    overwrite_front (EncodeFixed64 l.count) _ (EncodeFixed64 count) rfl
  simp only [ParsedListsMetaValue.SetCount, object, hwrite]

theorem setLeftIndex_object (l : ListsLayout) (version : Int32) (index : UInt64) :
    (l.object version).SetLeftIndex index = { l with leftindex := index : ListsLayout }.object version := by
  have hwrite := overwrite_back l.encode { l with leftindex := index : ListsLayout }.encode (2 * 8)
    (EncodeFixed64 l.count ++ (l.rest ++ (EncodeFixed32 l.version.toUInt32 ++
      EncodeFixed32 l.timestamp.toUInt32))) (EncodeFixed64 l.leftindex) (EncodeFixed64 l.rightindex)
    (EncodeFixed64 index) (by simp [encode]) (by simp [encode]) rfl rfl
  simp only [ParsedListsMetaValue.SetLeftIndex, object, hwrite]

theorem setRightIndex_object (l : ListsLayout) (version : Int32) (index : UInt64) :
    (l.object version).SetRightIndex index = { l with rightindex := index : ListsLayout }.object version := by
  have hwrite := overwrite_back l.encode { l with rightindex := index : ListsLayout }.encode 8
    (EncodeFixed64 l.count ++ (l.rest ++ (EncodeFixed32 l.version.toUInt32 ++
      (EncodeFixed32 l.timestamp.toUInt32 ++ EncodeFixed64 l.leftindex)))) (EncodeFixed64 l.rightindex) []
    (EncodeFixed64 index) (by simp [encode]) (by simp [encode]) rfl rfl
  simp only [ParsedListsMetaValue.SetRightIndex, object, hwrite]

theorem write_timestamp (l : ListsLayout) (t : Int32) :
    overwrite l.encode (l.encode.length - 4 - 2 * 8) (EncodeFixed32 t.toUInt32) =
      { l with timestamp := t : ListsLayout }.encode := by
  rw [Nat.sub_sub]
  exact overwrite_back _ _ _ (EncodeFixed64 l.count ++ (l.rest ++ EncodeFixed32 l.version.toUInt32))
    (EncodeFixed32 l.timestamp.toUInt32) (EncodeFixed64 l.leftindex ++ EncodeFixed64 l.rightindex)
    (EncodeFixed32 t.toUInt32) (by simp [encode]) (by simp [encode]) rfl rfl

theorem write_version (l : ListsLayout) (version : Int32) :
    overwrite l.encode (l.encode.length - ParsedListsMetaValue.kListsMetaValueSuffixLength)
      (EncodeFixed32 version.toUInt32) = { l with version := version : ListsLayout }.encode :=
  overwrite_back _ _ _ (EncodeFixed64 l.count ++ l.rest) (EncodeFixed32 l.version.toUInt32)
    (EncodeFixed32 l.timestamp.toUInt32 ++ (EncodeFixed64 l.leftindex ++ EncodeFixed64 l.rightindex))
    (EncodeFixed32 version.toUInt32) (by simp [encode]) (by simp [encode]) rfl rfl

theorem setTimestamp_object (l : ListsLayout) (version t : Int32) :
    (l.object version).SetTimestamp t = { l with timestamp := t : ListsLayout }.object version := by
  simp only [ParsedListsMetaValue.SetTimestamp, object, write_timestamp]

theorem updateVersion_object (l : ListsLayout) (version : Int32) (time : Int) :
    (l.object version).UpdateVersion time =
      { l with version := listsNextVersion version time : ListsLayout }.object (listsNextVersion version time) := by
  simp only [ParsedListsMetaValue.UpdateVersion, object, write_version]

theorem setVersionToValue_object (l : ListsLayout) (version : Int32) :
    (l.object version).SetVersionToValue = { l with version := version : ListsLayout }.object version := by
  simp only [ParsedListsMetaValue.SetVersionToValue, object, write_version]

theorem setIndexToValue_object (l : ListsLayout) (version : Int32) :
    (l.object version).SetIndexToValue = l.object version := by
  have hwrite := overwrite_back l.encode l.encode (2 * 8)
    (EncodeFixed64 l.count ++ (l.rest ++ (EncodeFixed32 l.version.toUInt32 ++ EncodeFixed32 l.timestamp.toUInt32)))
    (EncodeFixed64 l.leftindex ++ EncodeFixed64 l.rightindex) []
    (EncodeFixed64 l.leftindex ++ EncodeFixed64 l.rightindex) (by simp [encode]) (by simp [encode]) rfl rfl
  simp only [ParsedListsMetaValue.SetIndexToValue, object, hwrite]

theorem apply_object (l : ListsLayout) (versions : Int32 × Int32) (setter : ParsedListsMetaValue.Setter)
    (h : l.version = versions.1) : ∃ l' : ListsLayout,
      setter.apply (l.object versions.2) = l'.object (setter.effect.step versions).2 ∧
        l'.version = (setter.effect.step versions).1 ∧ l'.rest = l.rest := by
  cases setter with
  | SetCount count => exact ⟨{ l with count := count }, l.setCount_object _ count, h, rfl⟩
  | ModifyCount delta => exact ⟨{ l with count := l.count + delta }, l.setCount_object _ _, h, rfl⟩
  | SetLeftIndex index => exact ⟨{ l with leftindex := index }, l.setLeftIndex_object _ index, h, rfl⟩
  | ModifyLeftIndex index =>
    exact ⟨{ l with leftindex := l.leftindex - index }, l.setLeftIndex_object _ _, h, rfl⟩
  | SetRightIndex index => exact ⟨{ l with rightindex := index }, l.setRightIndex_object _ index, h, rfl⟩
  | ModifyRightIndex index =>
    exact ⟨{ l with rightindex := l.rightindex + index }, l.setRightIndex_object _ _, h, rfl⟩
  | SetTimestamp t => exact ⟨{ l with timestamp := t }, l.setTimestamp_object _ t, h, rfl⟩
  | SetRelativeTimestamp ttl time =>
    exact ⟨{ l with timestamp := Int32.ofInt (time + ttl.toInt) }, l.setTimestamp_object _ _, h, rfl⟩
  | SetVersion v => exact ⟨l, rfl, h, rfl⟩
  | UpdateVersion time =>
    exact ⟨{ l with version := listsNextVersion versions.2 time }, l.updateVersion_object _ time, rfl, rfl⟩
  | InitialMetaValue time =>
    refine ⟨⟨0, l.rest, listsNextVersion versions.2 time, 0, InitalLeftIndex, InitalRightIndex⟩, ?_, rfl, rfl⟩
    simp only [ParsedListsMetaValue.Setter.apply, ParsedListsMetaValue.InitialMetaValue, setCount_object,
      setLeftIndex_object, setRightIndex_object, setTimestamp_object, updateVersion_object]
    rfl
  | SetVersionToValue => exact ⟨{ l with version := versions.2 }, l.setVersionToValue_object _, rfl, rfl⟩
  | SetTimestampToValue => exact ⟨l, l.setTimestamp_object _ l.timestamp, h, rfl⟩
  | SetIndexToValue => exact ⟨l, l.setIndexToValue_object _, h, rfl⟩

end ListsLayout

/-! ### Runs of setters -/

/-- What holds of an object and the versions is kept by a run when it is kept by every setter. -/
private theorem foldl_effects {α β : Type*} (apply : α → β → α) (effect : β → VersionEffect)
    (R : α → Int32 × Int32 → Prop)
    (hstep : ∀ p versions setter, R p versions → R (apply p setter) ((effect setter).step versions)) (p : α)
    (versions : Int32 × Int32) (hstart : R p versions) (setters : List β) :
    R (setters.foldl apply p) ((setters.map effect).foldl VersionEffect.step versions) := by
  rw [List.foldl_map]
  exact List.foldl_rel hstart fun setter _ p versions h => hstep p versions setter h

namespace ParsedStringsObject

def run (str : Slice) (setters : List Setter) : ParsedStringsObject := setters.foldl Setter.apply (ofString str)

theorem inStep_iff {str : Slice} (h : 4 ≤ str.length) (setters : List Setter) :
    ((ofString (run str setters).value).fields = (run str setters).fields ∧
        ofView (run str setters).value = (run str setters).fields ∧
          (run str setters).uservalue = (ofString str).uservalue) ↔
      InStep 0 (setters.map Setter.effect) := by
  obtain ⟨timestamp, htimestamp⟩ := exists_encodeFixed32 (p := str.drop (str.length - 4)) (by simp; omega)
  obtain ⟨m, rfl⟩ : ∃ m : StringsMetaValue, str = m.Encode := by
    refine ⟨⟨str.take (str.length - 4), timestamp.toInt32⟩, ?_⟩
    rw [StringsMetaValue.Encode, UInt32.toUInt32_toInt32, ← htimestamp, List.take_append_drop]
  obtain ⟨m', hrun, hvalue, hstored⟩ := foldl_effects Setter.apply Setter.effect
    (fun p versions => ∃ m' : StringsMetaValue, p = object m' versions.2 ∧ m'.value = m.value ∧ versions.1 = 0)
    (by
      rintro p versions setter ⟨m', hp, hvalue, hstored⟩
      obtain ⟨m'', happly, hvalue', hstored'⟩ := apply_object m' versions setter
      exact ⟨m'', by rw [hp, happly], hvalue'.trans hvalue, hstored'.trans hstored⟩)
    (ofString m.Encode) (0, 0) ⟨m, ofString_encode m, rfl, rfl⟩ setters
  have hobject : (object m' ((setters.map Setter.effect).foldl VersionEffect.step (0, 0)).2).value = m'.Encode := rfl
  rw [InStep, run, hrun, ofView_eq, hobject, ofString_encode, ofString_encode, hstored]
  simp only [fields, object, StringsMetaValue.parsed, hvalue, StringsFields.mk.injEq, true_and, and_true, and_self]

end ParsedStringsObject

namespace ParsedBaseMetaValue

def run (str : Slice) (setters : List Setter) : ParsedBaseMetaValue := setters.foldl Setter.apply (new str)

theorem ofView_eq (str : Slice) : ofView str = (new str).fields := by
  simp only [ofView, new]
  split
  · rename_i h
    simp [fields, GetValue, h]
  · rename_i h
    simp [fields, GetValue, h]

theorem inStep_iff {str : Slice} (h : 12 ≤ str.length) (setters : List Setter) :
    ((new (run str setters).value).fields = (run str setters).fields ∧
        ofView (run str setters).value = (run str setters).fields ∧
          (run str setters).GetValue.drop 4 = (new str).GetValue.drop 4) ↔
      InStep (new str).version (setters.map Setter.effect) := by
  obtain ⟨l, rfl⟩ := BaseLayout.exists_encode h
  obtain ⟨l', hrun, hversion, hrest⟩ := foldl_effects Setter.apply Setter.effect
    (fun p versions => ∃ l' : BaseLayout, p = l'.object versions.2 ∧ l'.version = versions.1 ∧ l'.rest = l.rest)
    (fun p versions setter ⟨l', hp, hversion, hrest⟩ => by
      obtain ⟨l'', happly, hversion', hrest'⟩ := l'.apply_object versions setter hversion
      exact ⟨l'', by rw [hp, happly], hversion', hrest'.trans hrest⟩)
    (new l.encode) (l.version, l.version) ⟨l, l.new_encode, rfl, rfl⟩ setters
  have hobject : ∀ version, (l'.object version).value = l'.encode := fun _ => rfl
  have hlversion : (l.object l.version).version = l.version := rfl
  rw [run, hrun, ofView_eq, hobject, l'.new_encode, l.new_encode, hlversion, InStep, ← hversion,
    l'.getValue_object, l.getValue_object, BaseLayout.drop_value, BaseLayout.drop_value]
  simp only [fields, BaseLayout.getValue_object, BaseFields.mk.injEq, true_and, hrest, and_true, and_self]
  simp only [BaseLayout.object, and_true]

end ParsedBaseMetaValue

namespace ParsedListsMetaValue

def run (str : Slice) (setters : List Setter) : ParsedListsMetaValue := setters.foldl Setter.apply (new str)

theorem ofView_eq (str : Slice) : ofView str = (new str).fields := by
  simp only [ofView, new]
  split
  · rename_i h
    simp [fields, GetValue, h]
  · rename_i h
    simp [fields, GetValue, h]

theorem inStep_iff {str : Slice} (h : 32 ≤ str.length) (setters : List Setter) :
    ((new (run str setters).value).fields = (run str setters).fields ∧
        ofView (run str setters).value = (run str setters).fields ∧
          (run str setters).GetValue.drop 8 = (new str).GetValue.drop 8) ↔
      InStep (new str).version (setters.map Setter.effect) := by
  obtain ⟨l, rfl⟩ := ListsLayout.exists_encode h
  obtain ⟨l', hrun, hversion, hrest⟩ := foldl_effects Setter.apply Setter.effect
    (fun p versions => ∃ l' : ListsLayout, p = l'.object versions.2 ∧ l'.version = versions.1 ∧ l'.rest = l.rest)
    (fun p versions setter ⟨l', hp, hversion, hrest⟩ => by
      obtain ⟨l'', happly, hversion', hrest'⟩ := l'.apply_object versions setter hversion
      exact ⟨l'', by rw [hp, happly], hversion', hrest'.trans hrest⟩)
    (new l.encode) (l.version, l.version) ⟨l, l.new_encode, rfl, rfl⟩ setters
  have hobject : ∀ version, (l'.object version).value = l'.encode := fun _ => rfl
  have hlversion : (l.object l.version).version = l.version := rfl
  rw [run, hrun, ofView_eq, hobject, l'.new_encode, l.new_encode, hlversion, InStep, ← hversion,
    l'.getValue_object, l.getValue_object, ListsLayout.drop_value, ListsLayout.drop_value]
  simp only [fields, ListsLayout.getValue_object, ListsMetaFields.mk.injEq, true_and, hrest, and_true, and_self]
  simp only [ListsLayout.object, and_true]

end ParsedListsMetaValue

/-! ### Every class -/

/-- An instance of a class that encodes, with the values that are passed to its constructor and its setters; the value
of a meta value of a collection starts with the count. -/
inductive Instance where
  | StringsMetaValue (f : StringsFields)
  | ListsMetaValue (count : UInt64) (rest : Slice) (version timestamp : Int32) (leftindex rightindex : UInt64)
  | BaseMetaValue (count : Int32) (rest : Slice) (version timestamp : Int32)
  | BaseDataKey (f : DataFields)
  | ZSetsScoreKey (f : ScoreFields)
  | ListsDataKey (k : ListsDataKey)

namespace Instance

/-- Both constructors of the class that parses give back every field. -/
def RoundTrips : Instance → Prop
  | StringsMetaValue f =>
    (ParsedStringsObject.ofString f.Encode).fields = f ∧ ParsedStringsObject.ofView f.Encode = f
  | ListsMetaValue count rest version timestamp leftindex rightindex =>
    let value := EncodeFixed64 count ++ rest
    let m : RedisDb.ListsMetaValue := ⟨value, version, timestamp, leftindex, rightindex⟩
    (ParsedListsMetaValue.new m.Encode).fields = ⟨value, version, timestamp, count, leftindex, rightindex⟩ ∧
      ParsedListsMetaValue.ofView m.Encode = ⟨value, version, timestamp, count, leftindex, rightindex⟩
  | BaseMetaValue count rest version timestamp =>
    let value := EncodeFixed32 count.toUInt32 ++ rest
    let m : RedisDb.BaseMetaValue := ⟨value, version, timestamp⟩
    (ParsedBaseMetaValue.new m.Encode).fields = ⟨value, version, timestamp, count⟩ ∧
      ParsedBaseMetaValue.ofView m.Encode = ⟨value, version, timestamp, count⟩
  | BaseDataKey f => ParsedDataKey.ofString f.Encode = some f ∧ ParsedDataKey.ofView f.Encode = some f
  | ZSetsScoreKey f => ParsedZSetsScoreKey.ofString f.Encode = some f ∧ ParsedZSetsScoreKey.ofView f.Encode = some f
  | ListsDataKey k => ParsedListsDataKey.ofString k.Encode = some k ∧ ParsedListsDataKey.ofView k.Encode = some k

/-- The version of a string is not encoded, nor is the right index of a list; the length of a key is read as a signed
number, and the parsers of strings take the key of an element from the wrong place. -/
def Kept : Instance → Prop
  | StringsMetaValue f => f.version = 0
  | ListsMetaValue _ _ _ _ leftindex rightindex => leftindex = rightindex
  | BaseMetaValue _ _ _ _ => True
  | BaseDataKey f => f.key.length < 2 ^ 31 ∧ RepeatsLength f.key
  | ZSetsScoreKey f => f.key.length < 2 ^ 31 ∧ RepeatsLength f.key
  | ListsDataKey k => k.key.length < 2 ^ 31

theorem roundTrips_iff (i : Instance) : i.RoundTrips ↔ i.Kept := by
  cases i with
  | StringsMetaValue f =>
    have hencode : ParsedStringsObject.ofString f.Encode = ParsedStringsObject.object ⟨f.value, f.timestamp⟩ 0 :=
      ParsedStringsObject.ofString_encode _
    rw [RoundTrips, ParsedStringsObject.ofView_eq, hencode, and_self, Kept]
    obtain ⟨value, version, timestamp⟩ := f
    simp only [ParsedStringsObject.fields, ParsedStringsObject.object, RedisDb.StringsMetaValue.parsed,
      StringsFields.mk.injEq, and_true, true_and]
    exact eq_comm
  | ListsMetaValue count rest version timestamp leftindex rightindex =>
    -- What is encoded has the left index in both places.
    let l : ListsLayout := ⟨count, rest, version, timestamp, leftindex, leftindex⟩
    have hencode : RedisDb.ListsMetaValue.Encode ⟨EncodeFixed64 count ++ rest, version, timestamp, leftindex,
        rightindex⟩ = l.encode := by
      simp [l, RedisDb.ListsMetaValue.Encode, RedisDb.ListsMetaValue.AppendTimestampAndVersion,
        RedisDb.ListsMetaValue.AppendIndex, ListsLayout.encode]
    have hfields : (l.object l.version).fields =
        ⟨EncodeFixed64 count ++ rest, version, timestamp, count, leftindex, leftindex⟩ := by
      rw [ParsedListsMetaValue.fields, l.getValue_object]
      rfl
    simp only [RoundTrips, ParsedListsMetaValue.ofView_eq, hencode, l.new_encode, hfields, Kept, and_self,
      ListsMetaFields.mk.injEq, true_and]
  | BaseMetaValue count rest version timestamp =>
    let l : BaseLayout := ⟨count, rest, version, timestamp⟩
    have hencode : RedisDb.BaseMetaValue.Encode ⟨EncodeFixed32 count.toUInt32 ++ rest, version, timestamp⟩ =
        l.encode := rfl
    have hfields : (l.object l.version).fields =
        ⟨EncodeFixed32 count.toUInt32 ++ rest, version, timestamp, count⟩ := by
      rw [ParsedBaseMetaValue.fields, l.getValue_object]
      rfl
    simp only [RoundTrips, ParsedBaseMetaValue.ofView_eq, hencode, l.new_encode, hfields, Kept, and_self]
  | BaseDataKey f =>
    rw [RoundTrips, f.ofString_eq_iff, f.ofView_eq_iff, Kept]
    exact ⟨And.left, fun h => ⟨h, h.1⟩⟩
  | ZSetsScoreKey f =>
    rw [RoundTrips, f.ofString_eq_iff, f.ofView_eq_iff, Kept]
    exact ⟨And.left, fun h => ⟨h, h.1⟩⟩
  | ListsDataKey k =>
    have hstring : ParsedListsDataKey.ofString k.Encode = ParsedListsDataKey.ofView k.Encode := rfl
    rw [RoundTrips, hstring, and_self, k.ofView_eq_iff, Kept]

end Instance

/-- Which instances are read back, and after which setters the string of an object is. -/
theorem codecs_iff (i : Instance) (str : Slice) (strings : List ParsedStringsObject.Setter)
    (bases : List ParsedBaseMetaValue.Setter) (lists : List ParsedListsMetaValue.Setter) :
    (i.RoundTrips ↔ i.Kept) ∧
      (4 ≤ str.length →
        (((ParsedStringsObject.ofString (ParsedStringsObject.run str strings).value).fields =
              (ParsedStringsObject.run str strings).fields ∧
            ParsedStringsObject.ofView (ParsedStringsObject.run str strings).value =
              (ParsedStringsObject.run str strings).fields ∧
            (ParsedStringsObject.run str strings).uservalue = (ParsedStringsObject.ofString str).uservalue) ↔
          InStep 0 (strings.map ParsedStringsObject.Setter.effect))) ∧
      (12 ≤ str.length →
        (((ParsedBaseMetaValue.new (ParsedBaseMetaValue.run str bases).value).fields =
              (ParsedBaseMetaValue.run str bases).fields ∧
            ParsedBaseMetaValue.ofView (ParsedBaseMetaValue.run str bases).value =
              (ParsedBaseMetaValue.run str bases).fields ∧
            (ParsedBaseMetaValue.run str bases).GetValue.drop 4 = (ParsedBaseMetaValue.new str).GetValue.drop 4) ↔
          InStep (ParsedBaseMetaValue.new str).version (bases.map ParsedBaseMetaValue.Setter.effect))) ∧
      (32 ≤ str.length →
        (((ParsedListsMetaValue.new (ParsedListsMetaValue.run str lists).value).fields =
              (ParsedListsMetaValue.run str lists).fields ∧
            ParsedListsMetaValue.ofView (ParsedListsMetaValue.run str lists).value =
              (ParsedListsMetaValue.run str lists).fields ∧
            (ParsedListsMetaValue.run str lists).GetValue.drop 8 =
              (ParsedListsMetaValue.new str).GetValue.drop 8) ↔
          InStep (ParsedListsMetaValue.new str).version (lists.map ParsedListsMetaValue.Setter.effect))) :=
  ⟨Instance.roundTrips_iff i, fun h => ParsedStringsObject.inStep_iff h strings,
    fun h => ParsedBaseMetaValue.inStep_iff h bases, fun h => ParsedListsMetaValue.inStep_iff h lists⟩

def versionSetters : List ParsedBaseMetaValue.Setter := [.SetVersion 5, .SetVersionToValue]

theorem codecs_iff_base : (Instance.BaseMetaValue 3 [1, 2] 7 1000).RoundTrips ∧
    (ParsedBaseMetaValue.new (ParsedBaseMetaValue.run (List.replicate 12 0) versionSetters).value).fields =
      (ParsedBaseMetaValue.run (List.replicate 12 0) versionSetters).fields :=
  have h := codecs_iff (.BaseMetaValue 3 [1, 2] 7 1000) (List.replicate 12 0) [] versionSetters []
  ⟨h.1.2 trivial, ((h.2.2.1 (by decide)).2 (by decide)).1⟩

/-- The right index of a new list is lost. -/
theorem lists_not_roundTrips : ¬ ∀ i : Instance, i.RoundTrips := by
  intro h
  have hlist := (h (.ListsMetaValue 1 [] 0 0 InitalLeftIndex InitalRightIndex)).1
  exact absurd hlist (by decide)

end RedisDb
