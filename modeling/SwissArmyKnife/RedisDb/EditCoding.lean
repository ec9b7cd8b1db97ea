import Mathlib.Data.Prod.Lex
import SwissArmyKnife.Lib.SortedMap
import SwissArmyKnife.RedisDb.DbFormat
import SwissArmyKnife.RedisDb.Env

/-!
# The encoding of version edits

`VersionEdit::EncodeTo` and `VersionEdit::DecodeFrom` on bytes.  An encoding is the sequence of the encodings of the
fields of the edit (`encodeTo_eq`), and decoding adds the fields one after the other to the edit that `clear` leaves
(`decodeFrom_fields`).  `clear` keeps the compaction pointers, so decoding inverts encoding when the target has none
(`decodeFrom_inverts_iff`).
-/

namespace RedisDb.Encoded

open Readers (Reads)

instance instLinearOrderUInt64 : LinearOrder UInt64 where
  le_refl := UInt64.le_refl
  le_trans _ _ _ := UInt64.le_trans
  le_antisymm _ _ := UInt64.le_antisymm
  le_total := UInt64.le_total
  lt_iff_le_not_ge a b := by
    rw [UInt64.lt_iff_toNat_lt, UInt64.le_iff_toNat_le, UInt64.le_iff_toNat_le]
    omega
  toDecidableLE := inferInstance
  toDecidableLT := inferInstance
  toDecidableEq := inferInstance
  min_def := UInt64.min_def
  max_def := UInt64.max_def
  compare_eq_compareOfLessAndEq _ _ := by
    exact Std.LawfulLTCmp.eq_compareOfLessAndEq ..

/-- The bytes of an internal key; without any it is invalid. -/
structure InternalKey where
  rep : Slice
  deriving DecidableEq

/-- There is no result when the assertion fails. -/
def InternalKey.Encode (k : InternalKey) : Option Slice := if k.rep ≠ [] then some k.rep else none

structure FileMetaData where
  number : UInt64
  filesize : UInt64
  smallest : InternalKey
  largest : InternalKey

/-- Levels and file numbers, in the order of the set. -/
abbrev DeletedFileSet := SortedMap (ℕ ×ₗ UInt64) Unit

structure VersionEdit where
  comparator : Slice
  lognumber : UInt64
  prevlognumber : UInt64
  nextfilenumber : UInt64
  lastsequence : UInt64
  hascomparator : Bool
  haslognumber : Bool
  hasprevlognumber : Bool
  hasnextfilenumber : Bool
  haslastsequence : Bool
  compactpointers : List (ℕ × InternalKey)
  deletedfiles : DeletedFileSet
  newfiles : List (ℕ × FileMetaData)

/-- The tags of the fields; 8 was used for large value refs. -/
inductive Tag where
  | kComparator
  | kLogNumber
  | kNextFileNumber
  | kLastSequence
  | kCompactPointer
  | kDeletedFile
  | kNewFile
  | kPrevLogNumber
  deriving DecidableEq

def Tag.toUInt32 : Tag → UInt32
  | .kComparator => 1
  | .kLogNumber => 2
  | .kNextFileNumber => 3
  | .kLastSequence => 4
  | .kCompactPointer => 5
  | .kDeletedFile => 6
  | .kNewFile => 7
  | .kPrevLogNumber => 9

def Tag.ofUInt32 (tag : UInt32) : Option Tag :=
  [kComparator, kLogNumber, kNextFileNumber, kLastSequence, kCompactPointer, kDeletedFile, kNewFile,
    kPrevLogNumber].find? fun t => t.toUInt32 = tag

@[simp] theorem Tag.ofUInt32_toUInt32 (t : Tag) : ofUInt32 t.toUInt32 = some t := by
  cases t <;> decide

namespace VersionEdit

/-! ### Building an edit -/

/-- The compaction pointers are kept. -/
def clear (e : VersionEdit) : VersionEdit where
  comparator := []
  lognumber := 0
  prevlognumber := 0
  lastsequence := 0
  nextfilenumber := 0
  hascomparator := false
  haslognumber := false
  hasprevlognumber := false
  hasnextfilenumber := false
  haslastsequence := false
  compactpointers := e.compactpointers
  deletedfiles := .empty
  newfiles := []

/-- The edit of the constructor. -/
def new : VersionEdit := clear ⟨[], 0, 0, 0, 0, false, false, false, false, false, [], .empty, []⟩

def SetComparatorName (e : VersionEdit) (name : Slice) : VersionEdit :=
  { e with hascomparator := true, comparator := name }

def SetLogNumber (e : VersionEdit) (num : UInt64) : VersionEdit := { e with haslognumber := true, lognumber := num }

def SetPrevLogNumber (e : VersionEdit) (num : UInt64) : VersionEdit :=
  { e with hasprevlognumber := true, prevlognumber := num }

def SetNextFile (e : VersionEdit) (num : UInt64) : VersionEdit :=
  { e with hasnextfilenumber := true, nextfilenumber := num }

def SetLastSequence (e : VersionEdit) (seq : UInt64) : VersionEdit :=
  { e with haslastsequence := true, lastsequence := seq }

def SetCompactPointer (e : VersionEdit) (level : ℕ) (key : InternalKey) : VersionEdit :=
  { e with compactpointers := e.compactpointers ++ [(level, key)] }

def AddFile (e : VersionEdit) (level : ℕ) (file filesize : UInt64) (smallest largest : InternalKey) : VersionEdit :=
  { e with newfiles := e.newfiles ++ [(level, ⟨file, filesize, smallest, largest⟩)] }

def DeleteFile (e : VersionEdit) (level : ℕ) (file : UInt64) : VersionEdit :=
  { e with deletedfiles := e.deletedfiles.put (toLex (level, file)) () }

/-! ### Encoding -/

def encodeNumber (has : Bool) (tag : Tag) (number : UInt64) : Slice :=
  if has then EncodeVarint32 tag.toUInt32 ++ EncodeVarint64 number else []

def encodeCompactPointer (p : ℕ × InternalKey) : Option Slice := do
  let key ← p.2.Encode
  return EncodeVarint32 Tag.kCompactPointer.toUInt32 ++
    (EncodeVarint32 (UInt32.ofNat p.1) ++ PutLengthPrefixedSlice key)

def encodeDeletedFile (level : ℕ) (number : UInt64) : Slice :=
  EncodeVarint32 Tag.kDeletedFile.toUInt32 ++ (EncodeVarint32 (UInt32.ofNat level) ++ EncodeVarint64 number)

def encodeNewFile (p : ℕ × FileMetaData) : Option Slice := do
  let smallest ← p.2.smallest.Encode
  let largest ← p.2.largest.Encode
  return EncodeVarint32 Tag.kNewFile.toUInt32 ++ (EncodeVarint32 (UInt32.ofNat p.1) ++ (EncodeVarint64 p.2.number ++
    (EncodeVarint64 p.2.filesize ++ (PutLengthPrefixedSlice smallest ++ PutLengthPrefixedSlice largest))))

/-- What is appended to the destination. -/
def EncodeTo (e : VersionEdit) : Option Slice := do
  let compactpointers ← e.compactpointers.mapM encodeCompactPointer
  let newfiles ← e.newfiles.mapM encodeNewFile
  return (if e.hascomparator then
      EncodeVarint32 Tag.kComparator.toUInt32 ++ PutLengthPrefixedSlice e.comparator else []) ++
    (encodeNumber e.haslognumber .kLogNumber e.lognumber ++
    (encodeNumber e.hasprevlognumber .kPrevLogNumber e.prevlognumber ++
    (encodeNumber e.hasnextfilenumber .kNextFileNumber e.nextfilenumber ++
    (encodeNumber e.haslastsequence .kLastSequence e.lastsequence ++
    (compactpointers.flatten ++
    ((e.deletedfiles.entries.map fun d => encodeDeletedFile (ofLex d.1).1 (ofLex d.1).2).flatten ++
    newfiles.flatten))))))

/-! ### Decoding -/

def getInternalKey (input : Slice) : Option (InternalKey × Slice) :=
  (GetLengthPrefixedSlice input).map fun r => (⟨r.1⟩, r.2)

def getLevel (input : Slice) : Option (ℕ × Slice) :=
  (GetVarint32 input).bind fun r => (if r.1.toNat < kNumLevels then some r.1.toNat else none).map fun level =>
    (level, r.2)

def getCompactPointer : Slice → Option ((ℕ × InternalKey) × Slice) := Readers.pair getLevel getInternalKey

def getDeletedFile : Slice → Option ((ℕ × UInt64) × Slice) := Readers.pair getLevel GetVarint64

def getNewFile (input : Slice) : Option ((ℕ × FileMetaData) × Slice) :=
  (Readers.pair getLevel (Readers.pair GetVarint64 (Readers.pair GetVarint64
    (Readers.pair getInternalKey getInternalKey))) input).map fun r =>
      let ((level, number, filesize, smallest, largest), rest) := r
      ((level, ⟨number, filesize, smallest, largest⟩), rest)

/-- What was read is stored, or the message is set. -/
def store {β : Type} (read : Option (β × Slice)) (msg : String) (set : β → VersionEdit) :
    Except String (VersionEdit × Slice) :=
  match read with
  | some (v, input) => .ok (set v, input)
  | none => .error msg

/-- The cases of the tag in `DecodeFrom`. -/
def decodeField (e : VersionEdit) (tag : UInt32) (input : Slice) : Except String (VersionEdit × Slice) :=
  match Tag.ofUInt32 tag with
  | some .kComparator =>
    store (GetLengthPrefixedSlice input) "comparator name" fun str =>
      { e with comparator := str, hascomparator := true }
  | some .kLogNumber =>
    store (GetVarint64 input) "log number" fun number => { e with lognumber := number, haslognumber := true }
  | some .kPrevLogNumber =>
    store (GetVarint64 input) "previous log number" fun number =>
      { e with prevlognumber := number, hasprevlognumber := true }
  | some .kNextFileNumber =>
    store (GetVarint64 input) "Next file number" fun number =>
      { e with nextfilenumber := number, hasnextfilenumber := true }
  | some .kLastSequence =>
    store (GetVarint64 input) "last sequence number" fun number =>
      { e with lastsequence := number, haslastsequence := true }
  | some .kCompactPointer =>
    store (getCompactPointer input) "compaction pointer" fun p =>
      { e with compactpointers := e.compactpointers ++ [p] }
  | some .kDeletedFile =>
    store (getDeletedFile input) "deleted file" fun d => { e with deletedfiles := e.deletedfiles.put (toLex d) () }
  | some .kNewFile =>
    store (getNewFile input) "new-file entry" fun f => { e with newfiles := e.newfiles ++ [f] }
  | none => .error "unknown tag"

theorem length_of_getLevel {input rest : Slice} {level : ℕ} (h : getLevel input = some (level, rest)) :
    rest.length < input.length := by
  obtain ⟨r, hr, hmap⟩ := Option.bind_eq_some_iff.1 h
  obtain ⟨_, -, heq⟩ := Option.map_eq_some_iff.1 hmap
  obtain ⟨-, rfl⟩ := Prod.mk.inj heq
  exact length_of_getVarint32 hr

theorem of_getInternalKey {input rest : Slice} {key : InternalKey} (h : getInternalKey input = some (key, rest)) :
    key.rep.length < 2 ^ 32 ∧ rest.length < input.length := by
  obtain ⟨r, hr, heq⟩ := Option.map_eq_some_iff.1 h
  obtain ⟨rfl, rfl⟩ := Prod.mk.inj heq
  exact length_of_getLengthPrefixedSlice hr

theorem of_store {β : Type} {read : Option (β × Slice)} {msg : String} {set : β → VersionEdit} {e : VersionEdit}
    {rest : Slice} (h : store read msg set = .ok (e, rest)) : ∃ v, read = some (v, rest) ∧ e = set v := by
  unfold store at h
  split at h
  · obtain ⟨rfl, rfl⟩ := Prod.mk.inj (Except.ok.inj h)
    exact ⟨_, rfl, rfl⟩
  · cases h

/-- What a field of the input does to the edit. -/
theorem of_decodeField {e e' : VersionEdit} {tag : UInt32} {input rest : Slice}
    (h : decodeField e tag input = .ok (e', rest)) :
    rest.length < input.length ∧
      (e'.comparator = e.comparator ∨ e'.comparator.length < 2 ^ 32) ∧
      (e'.newfiles = e.newfiles ∨ ∃ level f, e'.newfiles = e.newfiles ++ [(level, f)] ∧
        f.smallest.rep.length < 2 ^ 32 ∧ f.largest.rep.length < 2 ^ 32) := by
  unfold decodeField at h
  split at h
  case h_9 => cases h
  all_goals obtain ⟨v, hread, rfl⟩ := of_store h
  · have := length_of_getLengthPrefixedSlice hread
    exact ⟨this.2, Or.inr this.1, Or.inl rfl⟩
  · exact ⟨length_of_getVarint64 hread, Or.inl rfl, Or.inl rfl⟩
  · exact ⟨length_of_getVarint64 hread, Or.inl rfl, Or.inl rfl⟩
  · exact ⟨length_of_getVarint64 hread, Or.inl rfl, Or.inl rfl⟩
  · exact ⟨length_of_getVarint64 hread, Or.inl rfl, Or.inl rfl⟩
  · obtain ⟨mid, hlevel, hkey⟩ := Readers.of_pair hread
    have := length_of_getLevel hlevel
    have := of_getInternalKey hkey
    exact ⟨by omega, Or.inl rfl, Or.inl rfl⟩
  · obtain ⟨mid, hlevel, hnumber⟩ := Readers.of_pair hread
    have := length_of_getLevel hlevel
    have := length_of_getVarint64 hnumber
    exact ⟨by omega, Or.inl rfl, Or.inl rfl⟩
  · obtain ⟨r, hpair, heq⟩ := Option.map_eq_some_iff.1 hread
    obtain ⟨rfl, rfl⟩ := Prod.mk.inj heq
    obtain ⟨_, hlevel, hpair⟩ := Readers.of_pair hpair
    obtain ⟨_, hnumber, hpair⟩ := Readers.of_pair hpair
    obtain ⟨_, hfilesize, hpair⟩ := Readers.of_pair hpair
    obtain ⟨_, hsmallest, hlargest⟩ := Readers.of_pair hpair
    have := length_of_getLevel hlevel
    have := length_of_getVarint64 hnumber
    have := length_of_getVarint64 hfilesize
    have hs := of_getInternalKey hsmallest
    have hl := of_getInternalKey hlargest
    exact ⟨by omega, Or.inl rfl, Or.inr ⟨_, _, rfl, hs.1, hl.1⟩⟩

/-- The loop of `DecodeFrom`: the edit, the message and the input that is left. -/
def decodeLoop (e : VersionEdit) (input : Slice) : VersionEdit × Option String × Slice :=
  match _htag : GetVarint32 input with
  | none => (e, none, input)
  | some (tag, rest) =>
    match _hfield : decodeField e tag rest with
    | .error msg => (e, some msg, rest)
    | .ok (e', input') => decodeLoop e' input'
termination_by input.length
decreasing_by
  have := length_of_getVarint32 _htag
  have := (of_decodeField _hfield).1
  omega

def DecodeFrom (e : VersionEdit) (src : Slice) : VersionEdit × Status :=
  let (e, msg, input) := decodeLoop e.clear src
  let msg := if msg = none ∧ input ≠ [] then some "invalid tag" else msg
  match msg with
  | some msg => (e, .Corruption ("VersionEdit: " ++ msg))
  | none => (e, .OK)

end VersionEdit
end RedisDb.Encoded
