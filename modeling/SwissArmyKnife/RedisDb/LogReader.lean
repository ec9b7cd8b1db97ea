import SwissArmyKnife.RedisDb.LogWriter

/-!
# The log reader

`LogReader::ReadRecord` puts the fragments of a log file together again.  What the reader tells its reporter is kept
in the state, and a reader whose file is exhausted returns `none`; both loops consume the file, so they terminate.
-/

namespace RedisDb

structure LogReader where
  file : SequentialFile
  /-- `reporter != nullptr` -/
  reporter : Bool
  checksum : Bool
  buffer : Slice
  eof : Bool
  lastrecordoffset : UInt64
  endofbufferoffset : UInt64
  initialoffset : UInt64
  resyncing : Bool
  /-- what the reporter was told: dropped bytes and the reason -/
  reported : List (Nat × Status)

namespace LogReader

def new (file : SequentialFile) (reporter checksum : Bool) (initialoffset : UInt64) : LogReader where
  file := file
  reporter := reporter
  checksum := checksum
  buffer := []
  eof := false
  lastrecordoffset := 0
  endofbufferoffset := 0
  initialoffset := initialoffset
  resyncing := decide (0 < initialoffset)
  reported := []

def kEof : UInt32 := kMaxRecordType + 1

def kBadRecord : UInt32 := kMaxRecordType + 2

/-- The bytes that were not consumed yet. -/
def remaining (r : LogReader) : Nat := r.buffer.length + r.file.rest.length

def ReportDrop (r : LogReader) (bytes : Nat) (reason : Status) : LogReader :=
  if r.reporter ∧ r.endofbufferoffset - UInt64.ofNat r.buffer.length - UInt64.ofNat bytes ≥ r.initialoffset then
    { r with reported := r.reported ++ [(bytes, reason)] }
  else r

def ReportCorruption (r : LogReader) (bytes : Nat) (reason : String) : LogReader :=
  r.ReportDrop bytes (.Corruption reason)

/-- The start of the first block that can contain the initial record. -/
def blockStartLocation (initialoffset : UInt64) : UInt64 :=
  let offsetInblock := initialoffset % UInt64.ofNat kBlockSize
  -- don't search a block if we'd be in the trailer
  if offsetInblock > UInt64.ofNat (kBlockSize - 6) then initialoffset - offsetInblock + UInt64.ofNat kBlockSize
  else initialoffset - offsetInblock

def SkipToInitialBlock (r : LogReader) : LogReader × Bool :=
  let blockstartlocation := blockStartLocation r.initialoffset
  let r := { r with endofbufferoffset := blockstartlocation }
  if 0 < blockstartlocation then
    let skip := r.file.Skip blockstartlocation.toNat
    let r := { r with file := skip.1 }
    if skip.2.ok then (r, true) else (r.ReportDrop blockstartlocation.toNat skip.2, false)
  else (r, true)

/-- The part of `ReadPhysicalRecord` that fetches the next block; `false` when the read failed. -/
def readBlock (r : LogReader) : LogReader × Bool :=
  let read := r.file.read kBlockSize
  let r := { r with file := read.1, buffer := read.2.1,
                    endofbufferoffset := r.endofbufferoffset + UInt64.ofNat read.2.1.length }
  if read.2.2.ok then ({ r with eof := r.eof || decide (r.buffer.length < kBlockSize) }, true)
  else ({ ({ r with buffer := [] } : LogReader).ReportDrop kBlockSize read.2.2 with eof := true }, false)

/-- The type byte is a `char`, so it is widened with its sign. -/
def widen (c : UInt8) : UInt32 := if c < 128 then c.toUInt32 else c.toUInt32 ||| (0xffffff00 : UInt32)

/-- The part of `ReadPhysicalRecord` that parses the header and the payload at the front of the buffer. -/
def parseRecord (r : LogReader) : LogReader × UInt32 × Slice :=
  let header := r.buffer
  let a := (header.getD 4 0).toNat
  let b := (header.getD 5 0).toNat
  let type := widen (header.getD 6 0)
  let length := a ||| (b <<< 8)
  if kHeaderSize + length > header.length then
    let r := { r with buffer := [] }
    if r.eof then (r, kEof, [])
    else (r.ReportCorruption header.length "bad record length", kBadRecord, [])
  else if type = RecordType.kZeroType.toUInt32 ∧ length = 0 then ({ r with buffer := [] }, kBadRecord, [])
  else if r.checksum ∧ crc32c.Value ((header.drop 6).take (1 + length)) ≠ crc32c.Unmask (DecodeFixed32 header) then
    (({ r with buffer := [] } : LogReader).ReportCorruption header.length "checksum mismatch", kBadRecord, [])
  else
    let r := { r with buffer := header.drop (kHeaderSize + length) }
    if r.endofbufferoffset - UInt64.ofNat r.buffer.length - UInt64.ofNat kHeaderSize - UInt64.ofNat length
        < r.initialoffset then (r, kBadRecord, [])
    else (r, type, (header.drop kHeaderSize).take length)

/-- The loop of `ReadPhysicalRecord` runs at most twice: a block that was just read is either parsed or, being too
short for a header, the last one. -/
def ReadPhysicalRecord (r : LogReader) : LogReader × UInt32 × Slice :=
  if kHeaderSize ≤ r.buffer.length then r.parseRecord
  else if r.eof then ({ r with buffer := [] }, kEof, [])
  else
    let next := ({ r with buffer := [] } : LogReader).readBlock
    if ¬ next.2 then (next.1, kEof, [])
    else if kHeaderSize ≤ next.1.buffer.length then next.1.parseRecord
    else ({ next.1 with buffer := [] }, kEof, [])

/-! ### Every physical record consumes some bytes -/

@[simp] theorem remaining_reportDrop (r : LogReader) (bytes : Nat) (reason : Status) :
    (r.ReportDrop bytes reason).remaining = r.remaining := by
  unfold ReportDrop
  split <;> rfl

@[simp] theorem remaining_reportCorruption (r : LogReader) (bytes : Nat) (reason : String) :
    (r.ReportCorruption bytes reason).remaining = r.remaining := remaining_reportDrop ..

private theorem remaining_parseRecord {r : LogReader} (h : kHeaderSize ≤ r.buffer.length) :
    r.parseRecord.1.remaining < r.remaining := by
  have hpos : 0 < kHeaderSize := by decide
  simp only [parseRecord]
  split
  · split
    · simp only [remaining, List.length_nil]
      omega
    · rw [remaining_reportCorruption]
      simp only [remaining, List.length_nil]
      omega
  split
  · simp only [remaining, List.length_nil]
    omega
  split
  · rw [remaining_reportCorruption]
    simp only [remaining, List.length_nil]
    omega
  split
  all_goals
    simp only [remaining, List.length_drop]
    omega

private theorem remaining_readBlock (r : LogReader) (h : r.buffer = []) : r.readBlock.1.remaining ≤ r.remaining := by
  simp only [readBlock, SequentialFile.read]
  split
  · simp [Status.ok, remaining, ReportDrop]
    split <;> simp
  · simp [Status.ok, remaining, h]
    omega

theorem remaining_readPhysicalRecord {r : LogReader} (h : r.ReadPhysicalRecord.2.1 ≠ kEof) :
    r.ReadPhysicalRecord.1.remaining < r.remaining := by
  revert h
  simp only [ReadPhysicalRecord]
  split
  · rename_i hlen
    exact fun _ => remaining_parseRecord hlen
  split
  · exact fun h => absurd rfl h
  split
  · exact fun h => absurd rfl h
  split
  · rename_i hlen
    intro _
    have hread := remaining_readBlock { r with buffer := [] } rfl
    have hparse := remaining_parseRecord hlen
    have hempty : ({ r with buffer := [] } : LogReader).remaining ≤ r.remaining := by
      simp [remaining]
    omega
  · exact fun h => absurd rfl h

/-! ### Logical records -/

def unknownRecordType (recordType : UInt32) : String := "unknown record type " ++ toString recordType.toNat

/-- A first or full fragment arrives while an earlier record is unfinished; an empty unfinished one is passed over,
because earlier versions of the writer could emit it at the end of a block. -/
def dropUnfinished (r : LogReader) (infragmentedrecord : Bool) (scratch : Slice) (reason : String) : LogReader :=
  if infragmentedrecord ∧ scratch ≠ [] then r.ReportCorruption scratch.length reason else r

def setResyncing (r : LogReader) (b : Bool) : LogReader := { r with resyncing := b }

def returnRecord (r : LogReader) (offset : UInt64) (record : Slice) : LogReader × Option Slice :=
  ({ r with lastrecordoffset := offset }, some record)

@[simp] theorem remaining_setResyncing (r : LogReader) (b : Bool) : (r.setResyncing b).remaining = r.remaining := rfl

@[simp] theorem remaining_returnRecord (r : LogReader) (offset : UInt64) (record : Slice) :
    (r.returnRecord offset record).1.remaining = r.remaining := rfl

@[simp] theorem remaining_dropUnfinished (r : LogReader) (infragmentedrecord : Bool) (scratch : Slice)
    (reason : String) : (r.dropUnfinished infragmentedrecord scratch reason).remaining = r.remaining := by
  unfold dropUnfinished
  split
  · exact remaining_reportCorruption ..
  · rfl

/-- The loop of `ReadRecord`; its locals `infragmentedrecord`, `scratch` and `prospectiverecordoffset` are
arguments. -/
def readFragments (r : LogReader) (infragmentedrecord : Bool) (scratch : Slice) (prospectiverecordoffset : UInt64) :
    LogReader × Option Slice :=
  let next := r.ReadPhysicalRecord
  let recordType := next.2.1
  let fragment := next.2.2
  let r' := next.1.setResyncing false
  let physicalrecordoffset := r'.endofbufferoffset - UInt64.ofNat r'.buffer.length - UInt64.ofNat kHeaderSize -
    UInt64.ofNat fragment.length
  if recordType = kEof then (r', none)
  else if next.1.resyncing ∧ recordType = RecordType.kMiddleType.toUInt32 then
    readFragments next.1 infragmentedrecord scratch prospectiverecordoffset
  else if next.1.resyncing ∧ recordType = RecordType.kLastType.toUInt32 then
    readFragments r' infragmentedrecord scratch prospectiverecordoffset
  else if recordType = RecordType.kFullType.toUInt32 then
    let r' := r'.dropUnfinished infragmentedrecord scratch "partial record without end(1)"
    r'.returnRecord physicalrecordoffset fragment
  else if recordType = RecordType.kFirstType.toUInt32 then
    readFragments (r'.dropUnfinished infragmentedrecord scratch "partial record without end(2)") true fragment
      physicalrecordoffset
  else if recordType = RecordType.kMiddleType.toUInt32 then
    if infragmentedrecord then readFragments r' true (scratch ++ fragment) prospectiverecordoffset
    else readFragments (r'.ReportCorruption fragment.length "missing start of fragmented record(1)") false scratch
      prospectiverecordoffset
  else if recordType = RecordType.kLastType.toUInt32 then
    if infragmentedrecord then r'.returnRecord prospectiverecordoffset (scratch ++ fragment)
    else readFragments (r'.ReportCorruption fragment.length "missing start of fragmented record(2)") false scratch
      prospectiverecordoffset
  else if recordType = kBadRecord then
    if infragmentedrecord then
      readFragments (r'.ReportCorruption scratch.length "error in middle of record") false [] prospectiverecordoffset
    else readFragments r' false scratch prospectiverecordoffset
  else
    readFragments (r'.ReportCorruption (fragment.length + (if infragmentedrecord then scratch.length else 0))
      (unknownRecordType recordType)) false [] prospectiverecordoffset
  termination_by r.remaining
  decreasing_by
    all_goals
      have hnext := remaining_readPhysicalRecord (r := r) (by assumption)
      simpa using hnext

theorem remaining_readFragments (r : LogReader) (infragmentedrecord : Bool) (scratch : Slice)
    (prospectiverecordoffset : UInt64)
    (h : (r.readFragments infragmentedrecord scratch prospectiverecordoffset).2.isSome) :
    (r.readFragments infragmentedrecord scratch prospectiverecordoffset).1.remaining < r.remaining := by
  fun_induction readFragments r infragmentedrecord scratch prospectiverecordoffset
  case case1 => simp at h
  all_goals have hnext := remaining_readPhysicalRecord (by assumption)
  -- the two cases that return a record
  case case4 => simpa +zetaDelta using hnext
  case case8 => simpa +zetaDelta using hnext
  all_goals
    rename_i ih
    exact Nat.lt_trans (ih h) (by simpa +zetaDelta using hnext)

private theorem length_skip (f : SequentialFile) (n : Nat) : (f.Skip n).1.rest.length ≤ f.rest.length := by
  unfold SequentialFile.Skip
  split <;> simp

theorem remaining_skipToInitialBlock (r : LogReader) : r.SkipToInitialBlock.1.remaining ≤ r.remaining := by
  unfold SkipToInitialBlock
  dsimp only
  split
  · split
    · exact Nat.add_le_add_left (length_skip ..) _
    · rw [remaining_reportDrop]
      exact Nat.add_le_add_left (length_skip ..) _
  · exact Nat.le_refl _

def ReadRecord (r : LogReader) : LogReader × Option Slice :=
  if r.lastrecordoffset < r.initialoffset then
    let skip := r.SkipToInitialBlock
    if skip.2 then skip.1.readFragments false [] 0 else (skip.1, none)
  else r.readFragments false [] 0

theorem remaining_readRecord {r : LogReader} (h : r.ReadRecord.2.isSome) :
    r.ReadRecord.1.remaining < r.remaining := by
  revert h
  simp only [ReadRecord]
  split
  · split
    · exact fun h => Nat.lt_of_lt_of_le (remaining_readFragments _ _ _ _ h) (remaining_skipToInitialBlock r)
    · simp
  · exact remaining_readFragments _ _ _ _

/-- The loop of the callers: read records until there is none. -/
def readAll (r : LogReader) : LogReader × List Slice :=
  let next := r.ReadRecord
  match _h : next.2 with
  | some record =>
    let rest := readAll next.1
    (rest.1, record :: rest.2)
  | none => (next.1, [])
  termination_by r.remaining
  decreasing_by exact remaining_readRecord (Option.isSome_iff_exists.2 ⟨_, _h⟩)

end LogReader

end RedisDb
