import SwissArmyKnife.RedisDb.TableRoundTrip

/-!
# Flushing a memtable

`DB::BuildTable`, `DB::WriteLevel0Table` and `DB::CompactMemTable`.  Every call on a file takes the next outcome of a
script.  `WriteLevel0Table` keeps the status of `BuildTable` in a variable of an inner block, so it returns OK
whatever became of the table.  There is no result when an assertion fails or when the table is read outside of its
file.
-/

namespace RedisDb

namespace WritableFile

/-- A call on the file descriptor that writes nothing. -/
def syscall (f : WritableFile) : WritableFile × Status :=
  match f.results with
  | .fail _ error :: results => ({ f with results := results }, .IOError error)
  | results => ({ f with results := results.tail }, .OK)

def sync (f : WritableFile) : WritableFile × Status :=
  let (f, status) := f.flush
  if status.ok then f.syscall else (f, status)

/-- The descriptor is closed whether the buffer has been written or not. -/
def close (f : WritableFile) : WritableFile × Status :=
  let (f, status) := f.flush
  let (f, closed) := f.syscall
  (f, if status.ok then closed else status)

end WritableFile

namespace Flush

/-- What becomes of the calls for a table: the error of `NewWritableFile`, the outcomes of the calls on the file and
the error with which the file is opened again. -/
structure Outcomes where
  create : Option String
  results : List IoResult
  reopen : Option String

/-- The options that are read, with the functions of the compression library. -/
structure Options where
  table : TableBuilder.Options
  Snappy_Uncompress : Slice → Option Slice
  paranoidchecks : Bool

/-- The status of the iterator over the finished table; `fuel` bounds the passes of its loops. -/
def verify (options : Options) (fuel : ℕ) (reopen : Option String) (contents : Slice) (filesize : ℕ) :
    Option Status :=
  match reopen with
  | some error => some (.IOError error)
  | none =>
    match Encoded.Table.Open options.table.comparator options.Snappy_Uncompress options.paranoidchecks
      (.mmap contents)
      filesize with
    | .error _ => none
    | .ok (.error s) => some s
    | .ok (.ok table) => (table.NewIterator fuel).toOption.map fun it => (table.iterator .default fuel).status it

/-- The status, the size in the metadata and what is left in the directory. -/
structure BuiltTable where
  status : Status
  filesize : ℕ
  file : Option Slice
deriving DecidableEq

/-- The iterator over a memtable has no errors. -/
def BuildTable (options : Options) (fuel : ℕ) (io : Outcomes) (iter : List (Slice × Slice)) : Option BuiltTable :=
  match io.create with
  | some error => some ⟨.IOError error, 0, none⟩
  | none => do
    let (builder, s) ← TableBuilder.build options.table iter io.results
    let filesize := if s.ok then builder.filesize else 0
    if s.ok ∧ filesize = 0 then none
    else do
      let (file, s) := if s.ok then builder.file.sync else (builder.file, s)
      let (file, s) := if s.ok then file.close else (file, s)
      let s ← if s.ok then verify options fuel io.reopen file.contents filesize else some s
      -- The file is deleted unless it is kept.
      return ⟨s, filesize, if s.ok ∧ 0 < filesize then some file.contents else none⟩

structure FileMetaData where
  number : ℕ
  filesize : ℕ
  smallest : Slice
  largest : Slice
deriving DecidableEq

/-- The part of the database that a flush reads and writes. -/
structure DB where
  imm : Option (List (Slice × Slice))
  /-- The table files in the directory. -/
  tables : ℕ → Option Slice
  /-- The files of the current version with their levels. -/
  files : List (ℕ × FileMetaData)
  nextfilenumber : ℕ
  /-- The log number of the version set, and that of the current log. -/
  lognumber : ℕ
  logfilenumber : ℕ
  pendingoutputs : List ℕ
  bgerror : Status
  shuttingdown : Bool

namespace DB

/-- The file that is added to the edit, and the status that is returned; `level` is what `PickLevelForMemTableOutput`
returns. -/
def WriteLevel0Table (options : Options) (fuel : ℕ) (io : Outcomes) (level : ℕ)
    (mem : List (Slice × Slice)) (db : DB) :
    Option (DB × Option (ℕ × FileMetaData) × Status) := do
  let number := db.nextfilenumber
  let table ← BuildTable options fuel io mem
  let db := { db with
    nextfilenumber := number + 1
    tables := fun n => if n = number then table.file else db.tables n }
  -- The status that is read and returned here is not that of the table.
  let s := Status.OK
  let first ← mem.head?
  let last ← mem.getLast?
  let added := if s.ok ∧ 0 < table.filesize then some (level, ⟨number, table.filesize, first.1, last.1⟩) else none
  return (db, added, s)

/-- The table files that are neither pending nor in the current version are deleted. -/
def DeleteObsoleteFiles (db : DB) : DB :=
  { db with tables := fun n =>
      if n ∈ db.pendingoutputs ∨ n ∈ db.files.map fun f => f.2.number then db.tables n else none }

/-- The version with the file is installed, unless the manifest cannot be written. -/
def LogAndApply (db : DB) (added : Option (ℕ × FileMetaData)) (status : Status) : DB × Status :=
  if status.ok then ({ db with files := db.files ++ added.toList, lognumber := db.logfilenumber }, status) else
    (db, status)

def RecordBackgroundError (db : DB) (s : Status) : DB := if db.bgerror.ok then { db with bgerror := s } else db

/-- `manifest` is the status of writing the manifest.  There is no result without an immutable memtable. -/
def CompactMemTable (options : Options) (fuel : ℕ) (io : Outcomes) (level : ℕ) (manifest : Status) (db : DB) :
    Option DB := do
  let imm ← db.imm
  let (db, added, s) ← db.WriteLevel0Table options fuel io level imm
  let s := if s.ok ∧ db.shuttingdown then .IOError "Deleting DB during memtable compaction\n" else s
  let (db, s) := if s.ok then db.LogAndApply added manifest else (db, s)
  return if s.ok then { db with imm := none }.DeleteObsoleteFiles else db.RecordBackgroundError s

/-- The end of `MakeRoomForWrite` when the memtable is full, with a new log. -/
def SwitchMemTable (mem : List (Slice × Slice)) (db : DB) : Option DB :=
  if db.bgerror.ok ∧ db.imm.isNone then
    some { db with nextfilenumber := db.nextfilenumber + 1, logfilenumber := db.nextfilenumber, imm := some mem }
  else none

/-- Without an immutable memtable there is nothing for a flush to do.  The database may be told to shut down while the
table is built. -/
def BackgroundCallback (options : Options) (fuel : ℕ) (io : Outcomes) (level : ℕ)
    (manifest : Status) (shutdown : Bool)
    (db : DB) : Option DB :=
  if db.shuttingdown ∨ db.bgerror.ok = false ∨ db.imm.isNone then some db
  else { db with shuttingdown := shutdown }.CompactMemTable options fuel io level manifest

end DB

inductive Step where
  | switch (mem : List (Slice × Slice))
  | background (io : Outcomes) (level : ℕ) (manifest : Status) (shutdown : Bool)

namespace DB

def step (options : Options) (fuel : ℕ) (db : DB) : Step → Option DB
  | .switch mem => db.SwitchMemTable mem
  | .background io level manifest shutdown => db.BackgroundCallback options fuel io level manifest shutdown

def run (options : Options) (fuel : ℕ) (db : DB) (steps : List Step) : Option DB :=
  steps.foldlM (step options fuel) db

end DB

end Flush

end RedisDb
