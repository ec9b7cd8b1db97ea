import SwissArmyKnife.RedisDb.Crc32c
import SwissArmyKnife.RedisDb.Env

/-!
# The log writer

`LogWriter::AddRecord` cuts a record into fragments that fit the blocks of the file and `EmitPhysicalRecord` frames
each with its checksum, length and type.
-/

namespace RedisDb

inductive RecordType where
  | kZeroType
  | kFullType
  | kFirstType
  | kMiddleType
  | kLastType
  deriving DecidableEq

def RecordType.toUInt8 : RecordType → UInt8
  | .kZeroType => 0
  | .kFullType => 1
  | .kFirstType => 2
  | .kMiddleType => 3
  | .kLastType => 4

def RecordType.toUInt32 (t : RecordType) : UInt32 := t.toUInt8.toUInt32

def kMaxRecordType : UInt32 := RecordType.kLastType.toUInt32

def kBlockSize : Nat := 32768

def kHeaderSize : Nat := 4 + 2 + 1

structure LogWriter where
  dest : WritableFile
  blockoffset : Nat

namespace LogWriter

/-- `LogWriter(dest, destlength)`; the constructor without a length is the case `destlength = 0`. -/
def new (dest : WritableFile) (destlength : Nat) : LogWriter := ⟨dest, destlength % kBlockSize⟩

def typecrc (t : RecordType) : UInt32 := crc32c.Value [t.toUInt8]

/-- The header that `EmitPhysicalRecord` formats. -/
def header (t : RecordType) (data : Slice) : Slice :=
  EncodeFixed32 (crc32c.Mask (crc32c.Extend (typecrc t) data)) ++
    [UInt8.ofNat (data.length &&& 0xff), UInt8.ofNat (data.length >>> 8), t.toUInt8]

def EmitPhysicalRecord (w : LogWriter) (t : RecordType) (data : Slice) : LogWriter × Status :=
  let r := w.dest.append (header t data)
  let r := if r.2.ok then
      let r := r.1.append data
      if r.2.ok then r.1.flush else r
    else r
  (⟨r.1, w.blockoffset + (kHeaderSize + data.length)⟩, r.2)

/-- The top of the loop of `AddRecord`: fill a trailer that is too short for a header.  The status of the append is
not looked at. -/
def switchBlock (w : LogWriter) : LogWriter :=
  let leftover := kBlockSize - w.blockoffset
  if leftover < kHeaderSize then
    ⟨if leftover > 0 then (w.dest.append (List.replicate leftover 0)).1 else w.dest, 0⟩
  else w

def fragmentType («begin» «end» : Bool) : RecordType :=
  if «begin» && «end» then .kFullType
  else if «begin» then .kFirstType
  else if «end» then .kLastType
  else .kMiddleType

/-- The bytes that the next fragment may hold. -/
def avail (w : LogWriter) : Nat := kBlockSize - w.switchBlock.blockoffset - kHeaderSize

/-- One round of the loop of `AddRecord`. -/
def emitFragment (w : LogWriter) («begin» : Bool) (left : Slice) : LogWriter × Status :=
  let fragmentlength := min left.length w.avail
  w.switchBlock.EmitPhysicalRecord (fragmentType «begin» (left.length == fragmentlength)) (left.take fragmentlength)

@[simp] theorem blockoffset_emitPhysicalRecord (w : LogWriter) (t : RecordType) (data : Slice) :
    (w.EmitPhysicalRecord t data).1.blockoffset = w.blockoffset + (kHeaderSize + data.length) := rfl

theorem switchBlock_le (w : LogWriter) : w.switchBlock.blockoffset + kHeaderSize ≤ kBlockSize := by
  simp only [switchBlock]
  split
  · show 0 + kHeaderSize ≤ kBlockSize
    decide
  · simp only [kHeaderSize, kBlockSize] at *
    omega

/-- A round that takes no byte fills its block, so that the next one takes some. -/
private theorem avail_emitFragment {w : LogWriter} («begin» : Bool) {left : Slice} (hleft : 0 < left.length)
    (h : min left.length w.avail = 0) : 0 < (w.emitFragment «begin» left).1.avail := by
  have hle := w.switchBlock_le
  have hzero : w.switchBlock.blockoffset + kHeaderSize = kBlockSize := by
    simp only [avail] at h
    omega
  have hoffset : (w.emitFragment «begin» left).1.blockoffset = kBlockSize := by
    rw [emitFragment, blockoffset_emitPhysicalRecord, h, List.take_zero, List.length_nil]
    omega
  have hswitch : (w.emitFragment «begin» left).1.switchBlock.blockoffset = 0 := by
    rw [switchBlock, hoffset]
    rfl
  rw [avail, hswitch]
  decide

/-- The loop of `AddRecord`. -/
def addFragments (w : LogWriter) («begin» : Bool) (left : Slice) : LogWriter × Status :=
  let r := w.emitFragment «begin» left
  let rest := left.drop (min left.length w.avail)
  if r.2.ok ∧ 0 < rest.length then addFragments r.1 false rest else r
  termination_by 2 * left.length + (if w.avail = 0 then 1 else 0)
  decreasing_by
    rename_i h
    have hdrop := h.2
    rw [List.length_drop] at hdrop ⊢
    by_cases hz : min left.length w.avail = 0
    · have hnext := avail_emitFragment «begin» (by omega) hz
      rw [if_pos (by omega : w.avail = 0), if_neg (by omega)]
      omega
    · split <;> split <;> omega

def AddRecord (w : LogWriter) (slice : Slice) : LogWriter × Status := w.addFragments true slice

end LogWriter

end RedisDb
