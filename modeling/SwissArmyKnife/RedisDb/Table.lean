import SwissArmyKnife.RedisDb.BlockRoundTrip
import SwissArmyKnife.RedisDb.TableBuilder
import SwissArmyKnife.RedisDb.TwoLevelIterator

/-!
# Reading tables

`Table` without a block cache, `ReadBlock` and the handles and the footer of `format.cc`.  A call ends in a `Fault`
when it reads a byte outside of the memory it was given, when an assertion fails, or when its loops have not ended
within `fuel` passes.
-/

namespace RedisDb

open Cursor (Call)

/-! ### Files -/

/-- `PosixMmapReadableFile`, or a `PosixRandomAccessFile` that holds on to its descriptor.  The latter reads through a
local descriptor that is never set, so what it reads is not known; one without a descriptor of its own is never built,
because its constructor asserts that the descriptor it was given is -1. -/
inductive RandomAccessFile where
  | mmap (contents : Slice)
  | pread (found : ℕ → ℕ → Except Status Slice)

namespace RandomAccessFile

/-- Offset and size are of 64 bits, and so is their sum. -/
def read : RandomAccessFile → ℕ → ℕ → Except Status Slice
  | mmap contents, offset, n =>
    if contents.length < (offset + n) % 2 ^ 64 then .error (.IOError "Invalid argument")
    else .ok ((contents.drop offset).take n)
  | pread found, offset, n => found offset n

/-- Whether a read returns a pointer to other memory than the buffer of the caller. -/
def mapped : RandomAccessFile → Bool
  | mmap _ => true
  | pread _ => false

end RandomAccessFile

/-! ### Handles and the footer -/

namespace BlockHandle

/-- A field that holds ~0 counts as not set. -/
def field (v : UInt64) : Option ℕ := if v.toNat = 2 ^ 64 - 1 then none else some v.toNat

def GetOffset (h : BlockHandle) : ℕ := h.offset.getD (2 ^ 64 - 1)

def GetSize (h : BlockHandle) : ℕ := h.size.getD (2 ^ 64 - 1)

def DecodeFrom (input : Slice) : Except Status (BlockHandle × Slice) :=
  match GetVarint64 input with
  | some (offset, input) =>
    match GetVarint64 input with
    | some (size, input) => .ok (⟨field offset, field size⟩, input)
    | none => .error (.Corruption "bad block handle")
  | none => .error (.Corruption "bad block handle")

end BlockHandle

namespace Footer

def kEncodedLength : ℕ := 2 * BlockHandle.kMaxEncodedLength + 8

/-- The input is as long as `kEncodedLength` when nothing fails. -/
def DecodeFrom (input : Slice) : Except Fault (Except Status Footer) := do
  let magicLo ← readBytes input (kEncodedLength - 8) 4
  let magicHi ← readBytes input (kEncodedLength - 4) 4
  let magic := (DecodeFixed32 magicHi).toUInt64 <<< 32 ||| (DecodeFixed32 magicLo).toUInt64
  if magic ≠ kTableMagicNumber then return .error (.Corruption "not an sstable (bad magic number)")
  else
    match BlockHandle.DecodeFrom input with
    | .error s => return .error s
    | .ok (metaindexhandle, input) =>
      match BlockHandle.DecodeFrom input with
      | .error s => return .error s
      | .ok (indexHandle, _) => return .ok ⟨metaindexhandle, indexHandle⟩

end Footer

/-! ### Blocks -/

structure ReadOptions where
  verifychecksums : Bool
  fillcache : Bool

def ReadOptions.default : ReadOptions := ⟨true, true⟩

structure BlockContents where
  data : Slice
  cachable : Bool
  heapallocated : Bool

/-- Whether the stored checksum is that of the contents and the type. -/
def checksumMatches (data : Slice) (n : ℕ) : Except Fault Bool := do
  let stored ← readBytes data (n + 1) 4
  let checked ← readBytes data 0 (n + 1)
  return crc32c.Value checked = crc32c.Unmask (DecodeFixed32 stored)

/-- What the bytes read for a block of size `n` hold.  `Snappy_Uncompress` has no result when one of the calls to the
library fails. -/
def blockContents (Snappy_Uncompress : Slice → Option Slice) (mapped : Bool) (data : Slice) (n : ℕ) :
    Except Fault (Except Status BlockContents) := do
  let type ← readBytes data n 1
  if type = [CompressionType.kNoCompression.toUInt8] then return .ok ⟨data.take n, !mapped, !mapped⟩
  else if type = [CompressionType.kSnappyCompression.toUInt8] then
    match Snappy_Uncompress (data.take n) with
    | some ubuf => return .ok ⟨ubuf, true, true⟩
    | none => return .error (.Corruption "corrupted compressed block contents")
  else return .error (.Corruption "bad block type")

def ReadBlock (Snappy_Uncompress : Slice → Option Slice) (file : RandomAccessFile) (options : ReadOptions)
    (handle : BlockHandle) : Except Fault (Except Status BlockContents) :=
  let n := handle.GetSize
  let size := (n + kBlockTrailerSize) % 2 ^ 64
  match file.read handle.GetOffset size with
  | .error s => return .error s
  | .ok contents =>
    if contents.length ≠ size then return .error (.Corruption "truncated block read")
    else do
      let matching ← if options.verifychecksums then checksumMatches contents n else pure true
      if matching then blockContents Snappy_Uncompress file.mapped contents n
      else return .error (.Corruption "block checksum mismatch")

namespace Block.Iter

def key : Iter → Except Fault Slice
  | .Empty _ => .error .assertion
  | .Entries it => it.key

def value : Iter → Except Fault Slice
  | .Empty _ => .error .assertion
  | .Entries it => it.value

end Block.Iter

/-! ### Tables -/

namespace Encoded

/-- `Rep`, with the options that are read. -/
structure Table where
  comparator : Comparator
  Snappy_Uncompress : Slice → Option Slice
  file : RandomAccessFile
  metaindexhandle : BlockHandle
  indexblock : Block

namespace Table

def Open (comparator : Comparator) (Snappy_Uncompress : Slice → Option Slice) (paranoidchecks : Bool)
    (file : RandomAccessFile) (size : ℕ) : Except Fault (Except Status Table) :=
  if size < Footer.kEncodedLength then return .error (.Corruption "file is too short to be an sstable")
  else
    match file.read (size - Footer.kEncodedLength) Footer.kEncodedLength with
    | .error s => return .error s
    | .ok footerinput => do
      match ← Footer.DecodeFrom footerinput with
      | .error s => return .error s
      | .ok footer =>
        let opt := if paranoidchecks then { ReadOptions.default with verifychecksums := true } else .default
        match ← ReadBlock Snappy_Uncompress file opt footer.indexHandle with
        | .error s => return .error s
        | .ok indexblockcontents =>
          let indexblock ← Block.new indexblockcontents.data
          return .ok ⟨comparator, Snappy_Uncompress, file, footer.metaindexhandle, indexblock⟩

/-- The iterator over the block whose handle is in the entry of the index. -/
def BlockReader (t : Table) (options : ReadOptions) (indexvalue : Slice) : Except Fault Block.Iter :=
  match BlockHandle.DecodeFrom indexvalue with
  | .error s => return .Empty s
  | .ok (handle, _) => do
    match ← ReadBlock t.Snappy_Uncompress t.file options handle with
    | .error s => return .Empty s
    | .ok contents =>
      let block ← Block.new contents.data
      block.NewIterator

/-- The iterators of the blocks, with `fuel` passes for each loop. -/
def blockIterator (t : Table) (fuel : ℕ) : Iterator Block.Iter Slice Slice :=
  Block.Iter.interface t.comparator.Compare fuel

/-- The interface of the result of `NewIterator`. -/
def iterator (t : Table) (options : ReadOptions) (fuel : ℕ) :
    Iterator (TwoLevelIterator Block.Iter Block.Iter Slice) Slice Slice :=
  TwoLevelIterator.iterator (t.blockIterator fuel) (t.blockIterator fuel)
    (fun indexvalue => (t.BlockReader options indexvalue).toOption) fuel

def NewIterator (t : Table) (fuel : ℕ) : Except Fault (TwoLevelIterator Block.Iter Block.Iter Slice) := do
  let indexIter ← t.indexblock.NewIterator
  return .new (t.blockIterator fuel) indexIter

def ApproximateOffsetOf (t : Table) (fuel : ℕ) (key : Slice) : Except Fault ℕ := do
  let indexIter ← t.indexblock.NewIterator
  let indexIter ← indexIter.call t.comparator.Compare fuel (.Seek key)
  if indexIter.Valid then
    let indexvalue ← indexIter.value
    match BlockHandle.DecodeFrom indexvalue with
    | .ok (handle, _) => return handle.GetOffset
    | .error _ => return t.metaindexhandle.GetOffset
  else return t.metaindexhandle.GetOffset

end Table

end Encoded

end RedisDb
