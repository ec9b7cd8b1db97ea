import SwissArmyKnife.Lib.Transition
import SwissArmyKnife.RedisDb.LogWriter
import SwissArmyKnife.RedisDb.WriteBatch

/-!
# The queue of writers

`DB::Write` with `MakeRoomForWrite` and `BuildBatchGroup`.  A call puts itself into the queue and waits until it is at
the front or was served by another call.  The call at the front makes room, takes the batches of some of those behind
it into its own group, logs and inserts them as one batch, and gives all of them its status.

The steps below are the parts of the code between two points where the mutex is free; calls enter and the background
thread works between any two of them.
-/

namespace RedisDb

open Encoded Transition

def kL0_SlowdownWritesTrigger : ℕ := 8

def kL0_StopWritesTrigger : ℕ := 12

namespace WriteBatchInternal

def ByteSize (b : WriteBatch) : ℕ := b.rep.length

end WriteBatchInternal

/-- `Writer`; the calls are numbered as they enter the queue.  `status` and `done` are what the replies say. -/
structure Writer where
  call : ℕ
  batch : Option WriteBatch
  sync : Bool
deriving DecidableEq

namespace Writers

open WriteBatchInternal

/-! ### Groups -/

/-- What `BuildBatchGroup` returns: the batch, whether it is `tmpbatch` and not the batch of the first writer, and how
many writers `lastwriter` is from the beginning of the queue. -/
structure Group where
  updates : WriteBatch
  tmp : Bool
  last : ℕ
deriving DecidableEq

/-- The batch that the next one is appended to.  There is none when `tmpbatch` is null or not empty. -/
def Group.target (tmpbatch : Option WriteBatch) (group : Group) : Option WriteBatch :=
  if group.tmp then some group.updates
  else do
    let result ← tmpbatch
    if Count result = 0 then append result group.updates else none

/-- The loop of `BuildBatchGroup`; `sync` is that of the first writer. -/
def groupFrom (tmpbatch : Option WriteBatch) (sync : Bool) (maxSize : ℕ) : ℕ → Group → List Writer → Option Group
  | _, group, [] => some group
  | size, group, w :: writers =>
    -- A sync write is not included into a batch handled by a non-sync write.
    if w.sync && !sync then some group
    else
      match w.batch with
      | none => groupFrom tmpbatch sync maxSize size { group with last := group.last + 1 } writers
      | some batch =>
        let size := size + ByteSize batch
        if maxSize < size then some group
        else do
          let result ← group.target tmpbatch
          let updates ← append result batch
          groupFrom tmpbatch sync maxSize size ⟨updates, true, group.last + 1⟩ writers

def maxSize (size : ℕ) : ℕ := if size ≤ 128 <<< 10 then size + (128 <<< 10) else 1 <<< 20

/-- The group of the first writer, with its batch and the writers behind it. -/
def BuildBatchGroup (tmpbatch : Option WriteBatch) (batch : WriteBatch) (sync : Bool) (writers : List Writer) :
    Option Group :=
  groupFrom tmpbatch sync (maxSize (ByteSize batch)) (ByteSize batch) ⟨batch, false, 1⟩ writers

/-! ### The database -/

/-- Where the call at the front of the queue is.  In `logging` and `logged` it has released the mutex, and it holds
the last sequence number of its group. -/
inductive Phase where
  | waiting
  | room (force allowdelay : Bool)
  | logging (group : Group) (lastsequence : UInt64)
  | logged (group : Group) (lastsequence : UInt64) (status : Status) (syncerror : Bool)

/-- `oldlogs` are the files of the logs before the current one that are still needed; `level0` is the number of files
that the current version has at level 0. -/
structure State where
  writers : List Writer
  phase : Phase
  entered : ℕ
  replies : List (ℕ × Status)
  tmpbatch : Option WriteBatch
  lastsequence : UInt64
  log : LogWriter
  oldlogs : List WritableFile
  mem : MemTable
  imm : Option MemTable
  level0 : ℕ
  bgerror : Status

/-- The state after `Open`, with an empty log.  The constructor leaves `tmpbatch` null. -/
def opened (tmpbatch : Option WriteBatch) (results : List IoResult) (lastsequence : UInt64) (level0 : ℕ) : State where
  writers := []
  phase := .waiting
  entered := 0
  replies := []
  tmpbatch := tmpbatch
  lastsequence := lastsequence
  log := .new (.opened [] results) 0
  oldlogs := []
  mem := .new
  imm := none
  level0 := level0
  bgerror := .OK

/-- `newFile` is what opening a new log file gives, `syncError` the error of a sync, and `draws` are the heights in
the skip list. -/
inductive Action where
  | enter (batch : Option WriteBatch) (sync : Bool)
  | lead
  /-- One round of the loop of `MakeRoomForWrite`. -/
  | room (newFile : Except String (List IoResult))
  | log (syncError : Option String) (draws : ℕ → List Bool)
  | finish
  /-- The background thread has installed the table of `imm`. -/
  | flushed (level0 : ℕ)
  | compacted (level0 : ℕ)
  | failed (status : Status)

def RecordBackgroundError (s : State) (status : Status) : State :=
  if s.bgerror.ok then { s with bgerror := status } else s

/-- What a round of `MakeRoomForWrite` does: it returns a status or goes around again. -/
inductive Room where
  | return (status : Status)
  | again (s : State)

def MakeRoomForWrite (writebuffersize : ℕ) (s : State) (force allowdelay : Bool)
    (newFile : Except String (List IoResult)) : Room :=
  if !s.bgerror.ok then .return s.bgerror
  else if allowdelay && kL0_SlowdownWritesTrigger ≤ s.level0 then .again { s with phase := .room force false }
  else if !force && s.mem.memoryusage ≤ writebuffersize then .return .OK
  else if s.imm.isSome then .again s
  else if kL0_StopWritesTrigger ≤ s.level0 then .again s
  else if s.mem.memoryusage = 0 then .return .OK
  else
    match newFile with
    | .error msg => .return (.IOError msg)
    | .ok results =>
      .again { s with
        log := .new (.opened [] results) 0, oldlogs := s.oldlogs ++ [s.log.dest], imm := some s.mem, mem := .new,
        phase := .room false allowdelay }

/-- The writers up to `lastwriter` leave the queue with the status. -/
def popWriters (s : State) (last : ℕ) (status : Status) : State :=
  { s with
    writers := s.writers.drop last, phase := .waiting,
    replies := s.replies ++ (s.writers.take last).map fun w => (w.call, status) }

/-- The sequence numbers of the group are set, and the mutex is released. -/
def beginGroup (s : State) (group : Group) : State :=
  let updates := SetSequence group.updates (s.lastsequence + 1)
  { s with
    phase := .logging { group with updates := updates } (s.lastsequence + (Count updates).toInt64.toUInt64),
    tmpbatch := if group.tmp then some updates else s.tmpbatch }

/-- `Write` after `MakeRoomForWrite` has returned, up to the point where it releases the mutex. -/
def startGroup (s : State) (w : Writer) (writers : List Writer) (status : Status) : Outcome State :=
  match w.batch with
  | some batch =>
    if status.ok then
      match BuildBatchGroup s.tmpbatch batch w.sync writers with
      | none => .aborted
      | some group => .next (beginGroup s group)
    else .next (popWriters s 1 status)
  | none => .next (popWriters s 1 status)

/-- What `Write` does with the mutex released. -/
def logGroup (comparator : Slice → Slice → Ordering) (s : State) (sync : Bool) (group : Group) (lastsequence : UInt64)
    (syncError : Option String) (draws : ℕ → List Bool) : Outcome State :=
  let r := s.log.AddRecord (Contents group.updates)
  let s := { s with log := r.1 }
  if r.2.ok then
    match if sync then syncError else none with
    | some msg => .next { s with phase := .logged group lastsequence (.IOError msg) true }
    | none =>
      match InsertInto comparator group.updates s.mem draws with
      | none => .aborted
      | some (mem, status) => .next { s with mem := mem, phase := .logged group lastsequence status false }
  else .next { s with phase := .logged group lastsequence r.2 false }

/-- The rest of `Write`. -/
def finishGroup (s : State) (group : Group) (lastsequence : UInt64) (status : Status) (syncerror : Bool) : State :=
  let s := if syncerror then RecordBackgroundError s status else s
  popWriters
    { s with tmpbatch := if group.tmp then some .new else s.tmpbatch, lastsequence := lastsequence } group.last status

def step (comparator : Slice → Slice → Ordering) (writebuffersize : ℕ) (s : State) : Action → Outcome State
  | .enter batch sync => .next { s with writers := s.writers ++ [⟨s.entered, batch, sync⟩], entered := s.entered + 1 }
  | .lead =>
    match s.phase, s.writers with
    | .waiting, w :: _ => .next { s with phase := .room w.batch.isNone w.batch.isSome }
    | _, _ => .disabled
  | .room newFile =>
    match s.phase, s.writers with
    | .room force allowdelay, w :: writers =>
      match MakeRoomForWrite writebuffersize s force allowdelay newFile with
      | .return status => startGroup s w writers status
      | .again s => .next s
    | _, _ => .disabled
  | .log syncError draws =>
    match s.phase, s.writers with
    | .logging group lastsequence, w :: _ => logGroup comparator s w.sync group lastsequence syncError draws
    | _, _ => .disabled
  | .finish =>
    match s.phase with
    | .logged group lastsequence status syncerror => .next (finishGroup s group lastsequence status syncerror)
    | _ => .disabled
  | .flushed level0 =>
      if s.imm.isSome then .next { s with imm := none, oldlogs := [], level0 := level0 } else .disabled
  | .compacted level0 => .next { s with level0 := level0 }
  | .failed status => .next (RecordBackgroundError s status)

end Writers

end RedisDb
