import SwissArmyKnife.RedisDb.Compaction

/-!
# The work of a compaction

`DoCompactionWork` merges the entries of the input files, drops those that no read can see any more and writes the
rest to new files of the next level.  One round of its loop is `processKey`; the numbers of the new files are taken
from the version set as they are needed, since other files may be written between two rounds.
-/

namespace RedisDb

variable {K V : Type*} [LinearOrder K]

/-- The sizes of the tables that are built: the bytes written while entries are added, and the size in the end. -/
structure TableSizes (K V : Type*) where
  written : List (Entry K V) → ℕ
  finished : List (Entry K V) → ℕ

structure CompactionState (K V : Type*) where
  compaction : Compaction K V
  smallestsnapshot : ℕ
  /-- The finished outputs. -/
  outputs : List (FileMetaData K V)
  /-- The output that is being built. -/
  builder : Option (FileMetaData K V)
  currentuserkey : Option K
  lastsequenceforkey : ℕ

/-- Files of level 0 are merged one by one, those of another level as one run. -/
def inputRuns (c : Compaction K V) : List (List (Entry K V)) :=
  (if c.level = 0 then c.inputs0.map FileMetaData.entries else [c.inputs0.flatMap FileMetaData.entries]) ++
    [c.inputs1.flatMap FileMetaData.entries]

/-- The entries in the order in which the input iterator yields them. -/
def MakeInputIterator (c : Compaction K V) : List (Entry K V) := Merge.mergeRuns Entry.key (inputRuns c)

namespace CompactionState

def new (c : Compaction K V) (smallestsnapshot : ℕ) : CompactionState K V :=
  ⟨c, smallestsnapshot, [], none, none, kMaxSequenceNumber⟩

def FinishCompactionOutputFile (sizes : TableSizes K V) (cs : CompactionState K V) : CompactionState K V :=
  match cs.builder with
  | none => cs
  | some out => { cs with
      outputs := cs.outputs ++ [{ out with filesize := sizes.finished out.entries }]
      builder := none }

/-- The sequence number of the last entry of the user key, and the largest one at the first occurrence of the key. -/
def lastSequence (cs : CompactionState K V) (userkey : K) : ℕ :=
  if cs.currentuserkey = some userkey then cs.lastsequenceforkey else kMaxSequenceNumber

/-- Whether the entry is dropped: a newer entry of its user key hides it, or it is an obsolete deletion. -/
def dropEntry (cs : CompactionState K V) (e : Entry K V) : Bool × Compaction K V :=
  if cs.lastSequence e.key.userkey ≤ cs.smallestsnapshot then (true, cs.compaction)
  else if e.key.type = .kTypeDeletion ∧ e.key.sequence ≤ cs.smallestsnapshot then
    cs.compaction.isBaseLevelForKey e.key.userkey
  else (false, cs.compaction)

/-- The output with the entry, and the next file number, with which the output is opened when there is none. -/
def outputWith (cs : CompactionState K V) (nextfilenumber : ℕ) (e : Entry K V) : FileMetaData K V × ℕ :=
  match cs.builder with
  | none => (⟨nextfilenumber, 0, e.key, e.key, [e]⟩, nextfilenumber + 1)
  | some out => ({ out with largest := e.key, entries := out.entries ++ [e] }, nextfilenumber)

/-- Adds the entry to the output and ends the output when it is big enough. -/
def addEntry (sizes : TableSizes K V) (cs : CompactionState K V) (nextfilenumber : ℕ) (e : Entry K V) :
    CompactionState K V × ℕ :=
  let added := cs.outputWith nextfilenumber e
  let cs := { cs with builder := some added.1 }
  (if cs.compaction.maxoutputfilesize ≤ sizes.written added.1.entries then
    cs.FinishCompactionOutputFile sizes else cs,
    added.2)

/-- One round of the loop of `DoCompactionWork`, with the next file number. -/
def processKey (options : Options) (sizes : TableSizes K V) (state : CompactionState K V × ℕ) (e : Entry K V) :
    CompactionState K V × ℕ :=
  let stop := state.1.compaction.shouldStopBefore options e.key
  let cs := { state.1 with compaction := stop.2 }
  let cs := if stop.1 then cs.FinishCompactionOutputFile sizes else cs
  let drop := cs.dropEntry e
  -- The key is looked up once more, for the debug message.
  let compaction := (drop.2.isBaseLevelForKey e.key.userkey).2
  let cs := { cs with
    compaction := compaction, currentuserkey := some e.key.userkey, lastsequenceforkey := e.key.sequence }
  if drop.1 then (cs, state.2) else cs.addEntry sizes state.2 e

/-- A whole run of `DoCompactionWork` without a flush in between, with the next file number in the end. -/
def DoCompactionWork (options : Options) (sizes : TableSizes K V) (c : Compaction K V)
    (smallestsnapshot nextfilenumber : ℕ) : CompactionState K V × ℕ :=
  let state := (MakeInputIterator c).foldl (processKey options sizes) (new c smallestsnapshot, nextfilenumber)
  (state.1.FinishCompactionOutputFile sizes, state.2)

/-- The edit that a finished compaction makes. -/
def resultEdit (cs : CompactionState K V) : VersionEdit K V :=
  cs.outputs.foldl (fun edit out => edit.AddFile (cs.compaction.level + 1) out)
    (cs.compaction.addInputDeletions cs.compaction.edit)

end CompactionState

def InstallCompactionResults (vs : VersionSet K V) (cs : CompactionState K V) : Option (VersionSet K V) :=
  vs.LogAndApply cs.resultEdit

end RedisDb
