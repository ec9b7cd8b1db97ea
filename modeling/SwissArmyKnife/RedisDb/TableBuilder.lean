import SwissArmyKnife.RedisDb.BlockBuilder
import SwissArmyKnife.RedisDb.Crc32c

/-!
# Building tables

`TableBuilder` with the block handles and the footer of `format.h`.  A table is written block by block: the data
blocks, the metaindex block, the index block and the footer.  There is no result when an assertion fails.
-/

namespace RedisDb

structure Comparator where
  Compare : Slice → Slice → Ordering
  FindShortestSeparator : Slice → Slice → Slice
  FindShortSuccessor : Slice → Slice

/-- What the interface asks of an implementation. -/
structure Comparator.Lawful (c : Comparator) : Prop where
  trans : Std.TransCmp c.Compare
  le_separator : ∀ start limit, c.Compare start limit = .lt →
    (c.Compare start (c.FindShortestSeparator start limit)).isLE
  separator_lt : ∀ start limit, c.Compare start limit = .lt →
    c.Compare (c.FindShortestSeparator start limit) limit = .lt
  le_successor : ∀ key, (c.Compare key (c.FindShortSuccessor key)).isLE

/-! ### Handles and the footer -/

/-- Offset and size of a block; none is the value ~0 of a field that has not been set. -/
structure BlockHandle where
  offset : Option ℕ
  size : Option ℕ

namespace BlockHandle

def kMaxEncodedLength : ℕ := 10 + 10

def new : BlockHandle := ⟨none, none⟩

def EncodeTo (h : BlockHandle) : Option Slice := do
  let offset ← h.offset
  let size ← h.size
  return EncodeVarint64 (UInt64.ofNat offset) ++ EncodeVarint64 (UInt64.ofNat size)

end BlockHandle

def kTableMagicNumber : UInt64 := 0xdb4775248b80fb57

structure Footer where
  metaindexhandle : BlockHandle
  indexHandle : BlockHandle

/-- The handles are padded with zeros. -/
def Footer.EncodeTo (f : Footer) : Option Slice := do
  let metaindex ← f.metaindexhandle.EncodeTo
  let index ← f.indexHandle.EncodeTo
  let handles := metaindex ++ index
  let size := 2 * BlockHandle.kMaxEncodedLength
  let padded : Slice := handles.take size ++ List.replicate (size - handles.length) 0
  return padded ++ EncodeFixed32 (kTableMagicNumber &&& 0xffffffff).toUInt32 ++
    EncodeFixed32 (kTableMagicNumber >>> 32).toUInt32

/-! ### The builder -/

inductive CompressionType where
  | kNoCompression
  | kSnappyCompression
  deriving DecidableEq

def CompressionType.toUInt8 : CompressionType → UInt8
  | .kNoCompression => 0
  | .kSnappyCompression => 1

def kBlockTrailerSize : ℕ := 5

/-- `Rep`.  Offsets are natural numbers. -/
structure TableBuilder where
  file : WritableFile
  offset : ℕ
  status : Status
  datablock : BlockBuilder
  indexblock : BlockBuilder
  lastkey : Slice
  pendinghandle : ℕ
  closed : Bool
  pendingindexentry : Bool
  /-- The handle that the index block is waiting for. -/
  blockhandle : BlockHandle

namespace TableBuilder

/-- The options that are read; `Snappy_Compress` has no result when it is not supported. -/
structure Options where
  comparator : Comparator
  blocksize : ℕ
  blockrestartinterval : ℕ
  compression : CompressionType
  Snappy_Compress : Slice → Option Slice

def new (file : WritableFile) : TableBuilder where
  file := file
  offset := 0
  status := .OK
  datablock := .new
  indexblock := .new
  lastkey := []
  pendinghandle := 0
  closed := false
  pendingindexentry := false
  blockhandle := .new

/-- The type and the checksum that follow the contents of a block. -/
def trailer (blockContents : Slice) (type : CompressionType) : Slice :=
  type.toUInt8 :: EncodeFixed32 (crc32c.Mask (crc32c.Extend (crc32c.Value blockContents) [type.toUInt8]))

/-- The builder and the handle of the block. -/
def WriteRawBlock (t : TableBuilder) (blockContents : Slice) (type : CompressionType) : TableBuilder × BlockHandle :=
  let handle : BlockHandle := ⟨some t.offset, some blockContents.length⟩
  let (file, status) := t.file.append blockContents
  if status.ok then
    let (file, status) := file.append (trailer blockContents type)
    if status.ok then
      ({ t with file := file, status := status, offset := t.offset + (blockContents.length + kBlockTrailerSize) },
        handle)
    else ({ t with file := file, status := status }, handle)
  else ({ t with file := file, status := status }, handle)

/-- What is stored of a block and how it is compressed. -/
def compress (options : Options) (raw : Slice) : Slice × CompressionType :=
  match options.compression with
  | .kNoCompression => (raw, .kNoCompression)
  | .kSnappyCompression =>
    match options.Snappy_Compress raw with
    | some compressed =>
      -- A block that is compressed by less than 12.5% is stored as it is.
      if compressed.length < raw.length - raw.length / 8 then (compressed, .kSnappyCompression)
        else (raw, .kNoCompression)
    | none => (raw, .kNoCompression)

/-- The block of the builder `block`, which is reset afterwards. -/
def WriteBlock (options : Options) (t : TableBuilder) (block : BlockBuilder) :
    TableBuilder × BlockBuilder × BlockHandle :=
  let (block, raw) := block.Finish
  let (blockcontents, type) := compress options raw
  let (t, handle) := t.WriteRawBlock blockcontents type
  (t, block.reset, handle)

def flush (options : Options) (t : TableBuilder) : Option TableBuilder :=
  if t.closed then none
  else if t.datablock.empty then some t
  else if t.pendingindexentry then none
  else
    let (t, datablock, blockhandle) := t.WriteBlock options t.datablock
    -- The status of this call takes the place of that of the block, whatever it was.
    let (file, status) := t.file.flush
    some { t with
      file := file
      status := status
      datablock := datablock
      blockhandle := blockhandle
      pendingindexentry := true }

/-- The index entry of the last data block, under a key between that block and the next one.  The index block has a
restart point at each key. -/
def addIndexEntry (options : Options) (t : TableBuilder) (lastkey : Slice) : Option TableBuilder := do
  let handleencoding ← t.blockhandle.EncodeTo
  let indexblock ← t.indexblock.Add options.comparator.Compare 1 lastkey handleencoding
  return { t with lastkey := lastkey, indexblock := indexblock, pendingindexentry := false }

/-- The index entry that is pending when the next key is added. -/
def addSeparator (options : Options) (t : TableBuilder) (key : Slice) : Option TableBuilder :=
  if t.pendingindexentry then
    if t.datablock.empty then t.addIndexEntry options (options.comparator.FindShortestSeparator t.lastkey key) else
      none
  else some t

/-- The index entry that is pending after the last key. -/
def addSuccessor (options : Options) (t : TableBuilder) : Option TableBuilder :=
  if t.pendingindexentry then t.addIndexEntry options (options.comparator.FindShortSuccessor t.lastkey) else some t

/-- The part of `Add` that does not write to the file. -/
def addEntry (options : Options) (t : TableBuilder) (key value : Slice) : Option TableBuilder :=
  if 0 < t.pendinghandle ∧ options.comparator.Compare key t.lastkey ≠ .gt then none
  else do
    let t ← t.addSeparator options key
    let datablock ← t.datablock.Add options.comparator.Compare options.blockrestartinterval key value
    return { t with lastkey := key, pendinghandle := t.pendinghandle + 1, datablock := datablock }

def Add (options : Options) (t : TableBuilder) (key value : Slice) : Option TableBuilder :=
  if t.closed then none
  else if t.status.ok then do
    let t ← t.addEntry options key value
    if options.blocksize ≤ t.datablock.CurrentSizeEstimate then t.flush options else return t
  else some t

/-- The metaindex block, which is empty. -/
def writeMetaindex (options : Options) (t : TableBuilder) : TableBuilder × BlockHandle :=
  if t.status.ok then
    let (t, _, handle) := t.WriteBlock options .new
    (t, handle)
  else (t, .new)

def writeIndex (options : Options) (t : TableBuilder) : Option (TableBuilder × BlockHandle) :=
  if t.status.ok then do
    let t ← t.addSuccessor options
    let (t, indexblock, handle) := t.WriteBlock options t.indexblock
    return ({ t with indexblock := indexblock }, handle)
  else some (t, .new)

def writeFooter (t : TableBuilder) (footer : Footer) : Option TableBuilder :=
  if t.status.ok then do
    let footerEncoding ← footer.EncodeTo
    let (file, status) := t.file.append footerEncoding
    return { t with
      file := file
      status := status
      offset := if status.ok then t.offset + footerEncoding.length else t.offset }
  else some t

/-- `Finish` after the last data block. -/
def writeEnd (options : Options) (t : TableBuilder) : Option (TableBuilder × Status) := do
  let (t, metaindexBlockHandle) := { t with closed := true }.writeMetaindex options
  let (t, indexBlockHandle) ← t.writeIndex options
  let t ← t.writeFooter ⟨metaindexBlockHandle, indexBlockHandle⟩
  return (t, t.status)

def Finish (options : Options) (t : TableBuilder) : Option (TableBuilder × Status) := do
  let t ← t.flush options
  t.writeEnd options

def filesize (t : TableBuilder) : ℕ := t.offset

/-- The calls of `Add` and `Finish` on a builder. -/
def finishAfter (options : Options) (t : TableBuilder) (l : List (Slice × Slice)) : Option (TableBuilder × Status) :=
  match l with
  | [] => t.Finish options
  | e :: l => do
    let t ← t.Add options e.1 e.2
    t.finishAfter options l

/-- The table with these pairs, in a new file whose calls have the outcomes. -/
def build (options : Options) (l : List (Slice × Slice)) (results : List IoResult) : Option (TableBuilder × Status) :=
  (new (.opened [] results)).finishAfter options l

end TableBuilder

end RedisDb
