import SwissArmyKnife.RedisDb.LogReader
import SwissArmyKnife.RedisDb.WriteBatch

/-!
# Recovering from logs

`DB::RecoverLogFile` and the loop of `DB::Recover` over the logs.  The records of a log are inserted into memtables,
and a memtable that is full, or left over at the end, is written as a table.  Tables are modelled by the memtables
they are written from; writing them is assumed not to fail.
-/

namespace RedisDb

open Encoded WriteBatchInternal

/-- The options that are looked at. -/
structure RecoveryOptions where
  comparator : Slice → Slice → Ordering
  writebuffersize : ℕ
  paranoidchecks : Bool
  reuselogs : Bool

/-- What has been recovered: `mem` and `compactions` are the local variables of `RecoverLogFile`, `tables` are those
that the edit adds, and `reused` is the memtable of the database with its log, when the last log is reused. -/
structure Recovery where
  mem : Option MemTable
  compactions : ℕ
  tables : List MemTable
  maxsequence : UInt64
  savemanifest : Bool
  reused : Option (MemTable × LogWriter)
  status : Status

namespace Recovery

def init : Recovery := ⟨none, 0, [], 0, false, none, .OK⟩

def MaybeIgnoreError (options : RecoveryOptions) (s : Status) : Status :=
  if s.ok || options.paranoidchecks then s else .OK

def WriteLevel0Table (r : Recovery) (mem : MemTable) : Recovery :=
  { r with mem := none, tables := r.tables ++ [mem], savemanifest := true }

/-- The batch was inserted into the memtable. -/
def inserted (options : RecoveryOptions) (r : Recovery) (batch : WriteBatch) (mem : MemTable) : Recovery :=
  let lastseq := GetSequence batch + (Count batch).toInt64.toUInt64 - 1
  let r := { r with mem := some mem, maxsequence := if r.maxsequence < lastseq then lastseq else r.maxsequence }
  if options.writebuffersize < mem.memoryusage then { r.WriteLevel0Table mem with compactions := r.compactions + 1 }
  else r

/-- The loop over the records; `draws` are the heights in the skip list for each record. -/
def recoverRecords (options : RecoveryOptions) : (ℕ → ℕ → List Bool) → Recovery → List Slice → Option Recovery
  | _, r, [] => some r
  | draws, r, record :: records =>
    -- A record that is too small is reported and skipped.
    if record.length < 12 then recoverRecords options (fun i => draws (i + 1)) r records
    else do
      let batch ← SetContents record
      let (mem, status) ← InsertInto options.comparator batch (r.mem.getD .new) (draws 0)
      let status := MaybeIgnoreError options status
      if status.ok then recoverRecords options (fun i => draws (i + 1)) (r.inserted options batch mem) records
      else return { r with mem := some mem, status := status }

/-- The end of `RecoverLogFile`: the last log may be reused, and a memtable that is not is written as a table. -/
def finish (options : RecoveryOptions) (lastLog : Bool) (contents : Slice) (r : Recovery) : Recovery :=
  let r :=
    if r.status.ok && options.reuselogs && lastLog && r.compactions = 0 then
      { r with
        mem := none, reused := some (r.mem.getD .new, LogWriter.new (.opened contents []) contents.length) }
    else r
  match r.mem with
  | some mem => if r.status.ok then r.WriteLevel0Table mem else r
  | none => r

def RecoverLogFile (options : RecoveryOptions) (draws : ℕ → ℕ → List Bool) (lastLog : Bool) (contents : Slice)
    (r : Recovery) : Option Recovery :=
  (recoverRecords options draws { r with mem := none, compactions := 0 }
    (LogReader.new ⟨contents, []⟩ true true 0).readAll.2).map (finish options lastLog contents)

/-- The loop of `Recover`, over the contents of the logs in the order of their numbers. -/
def Recover (options : RecoveryOptions) (draws : ℕ → ℕ → ℕ → List Bool) : Recovery → List Slice → Option Recovery
  | r, [] => some r
  | r, contents :: logs => do
    let r ← r.RecoverLogFile options (draws logs.length) logs.isEmpty contents
    if r.status.ok then Recover options draws r logs else return r

end Recovery

end RedisDb
