import SwissArmyKnife.Lib.Transition
import SwissArmyKnife.RedisDb.VersionBuilder

/-!
# The manifest

The manifest is a log of version edits.  `LogAndApply` writes the edit that it applies, after a snapshot of the
current version when it starts a new manifest, and `Recover` replays the manifest that `CURRENT` names with one
builder over the empty version.  A record of the manifest is modelled by the edit that it encodes.
-/

namespace RedisDb

open Transition (Outcome)

variable {K V : Type*} [LinearOrder K]

namespace VersionSet

omit [LinearOrder K]

/-- A version set before it recovers. -/
def new : VersionSet K V := ⟨⟨fun _ => [], none⟩, fun _ => none, 2, 0, 0, 0⟩

def MarkFileNumberUsed (vs : VersionSet K V) (number : ℕ) : VersionSet K V :=
  if vs.nextfilenumber ≤ number then { vs with nextfilenumber := number + 1 } else vs

/-- Gives the number back that `NewFileNumber` returned last. -/
def ReuseFileNumber (vs : VersionSet K V) (fileNumber : ℕ) : VersionSet K V :=
  if vs.nextfilenumber = fileNumber + 1 then { vs with nextfilenumber := fileNumber } else vs

/-- There is no result when the assertion fails. -/
def SetLastSequence (vs : VersionSet K V) (s : ℕ) : Option (VersionSet K V) :=
  if vs.lastsequence ≤ s then some { vs with lastsequence := s } else none

def setCompactPointers (pointers : ℕ → Option (InternalKey K)) (edit : VersionEdit K V) :
    ℕ → Option (InternalKey K) :=
  edit.compactpointers.foldl (fun pointers p => Function.update pointers p.1 (some p.2)) pointers

/-- The record that a new manifest starts with. -/
def WriteSnapshot (vs : VersionSet K V) : VersionEdit K V :=
  { (VersionEdit.empty : VersionEdit K V) with
    compactpointers := (List.range kNumLevels).filterMap fun level =>
      (vs.compactPointer level).map fun key => (level, key)
    newfiles := (List.range kNumLevels).flatMap fun level => (vs.current.files level).map fun f => (level, f) }

end VersionSet

/-- What `Recover` has read of the manifest. -/
structure Replay (K V : Type*) where
  builder : Builder K V
  compactPointer : ℕ → Option (InternalKey K)
  lognumber : Option ℕ
  prevlognumber : Option ℕ
  nextFile : Option ℕ
  lastsequence : Option ℕ

namespace Replay

/-- Before the first record. -/
def new : Replay K V := ⟨Builder.new VersionSet.new.current, fun _ => none, none, none, none, none⟩

def Apply (r : Replay K V) (edit : VersionEdit K V) : Replay K V where
  builder := r.builder.Apply edit
  compactPointer := VersionSet.setCompactPointers r.compactPointer edit
  lognumber := edit.lognumber.or r.lognumber
  prevlognumber := edit.prevlognumber.or r.prevlognumber
  nextFile := edit.nextfilenumber.or r.nextFile
  lastsequence := edit.lastsequence.or r.lastsequence

/-- The version set that is recovered; none when an entry is missing or an assertion fails. -/
def result (r : Replay K V) : Option (VersionSet K V) :=
  match r.nextFile, r.lognumber, r.lastsequence with
  | some nextFile, some lognumber, some lastsequence =>
    let prevlognumber := r.prevlognumber.getD 0
    let vs : VersionSet K V := (VersionSet.new.MarkFileNumberUsed prevlognumber).MarkFileNumberUsed lognumber
    r.builder.SaveTo.map fun v =>
      { vs with
        current := v
        compactPointer := r.compactPointer
        nextfilenumber := nextFile + 1
        lastsequence := lastsequence
        lognumber := lognumber
        prevlognumber := prevlognumber }
  | _, _, _ => none

end Replay

/-- What the records of a manifest give. -/
def replay (records : List (VersionEdit K V)) : Replay K V := records.foldl Replay.Apply Replay.new

def VersionSet.Recover (records : List (VersionEdit K V)) : Option (VersionSet K V) := (replay records).result

/-! ### Sessions -/

/-- A version set with the manifest that `CURRENT` names. -/
structure ManifestState (K V : Type*) where
  versions : VersionSet K V
  manifestfilenumber : ℕ
  /-- The manifest is open for appending. -/
  descriptorlog : Bool
  /-- The number in `CURRENT`. -/
  current : ℕ
  records : List (VersionEdit K V)

namespace ManifestState

/-- A new database, which is to be recovered. -/
def NewDB : ManifestState K V where
  versions := .new
  manifestfilenumber := 0
  descriptorlog := false
  current := 1
  records :=
    [{ (VersionEdit.empty : VersionEdit K V) with
        lognumber := some 0
        nextfilenumber := some 2
        lastsequence := some 0 }]

/-- The number of the manifest is the next file number that was recovered, unless the manifest is used further. -/
def Recover (s : ManifestState K V) (reuseManifest : Bool) : Option (ManifestState K V) :=
  (VersionSet.Recover s.records).map fun vs =>
    { s with
      versions := vs
      manifestfilenumber := if reuseManifest then s.current else vs.nextfilenumber - 1
      descriptorlog := reuseManifest }

/-- `LogAndApply` when the manifest is written without an error. -/
def LogAndApply (s : ManifestState K V) (edit : VersionEdit K V) : Option (ManifestState K V) :=
  (s.versions.LogAndApply edit).map fun vs =>
    let written := s.versions.completeEdit edit
    if s.descriptorlog then { s with versions := vs, records := s.records ++ [written] }
    else
      -- The builder has set the compaction pointers of the edit already.
      let snapshot := { s.versions with compactPointer := vs.compactPointer }.WriteSnapshot
      { s with versions := vs, descriptorlog := true, current :=
        s.manifestfilenumber, records := [snapshot, written] }

inductive Action (K V : Type*) where
  | NewFileNumber
  | ReuseFileNumber (fileNumber : ℕ)
  | MarkFileNumberUsed (number : ℕ)
  | SetLastSequence (s : ℕ)
  | LogAndApply (edit : VersionEdit K V)
  /-- The database is closed, or crashes, and is opened again. -/
  | Recover (reuseManifest : Bool)

def step (s : ManifestState K V) : Action K V → Outcome (ManifestState K V)
  | .NewFileNumber => .next { s with versions := s.versions.NewFileNumber.2 }
  | .ReuseFileNumber fileNumber => .next { s with versions := s.versions.ReuseFileNumber fileNumber }
  | .MarkFileNumberUsed number => .next { s with versions := s.versions.MarkFileNumberUsed number }
  | .SetLastSequence seq =>
      Outcome.ofOption ((s.versions.SetLastSequence seq).map fun vs => { s with versions := vs })
  | .LogAndApply edit => Outcome.ofOption (s.LogAndApply edit)
  | .Recover reuseManifest => Outcome.ofOption (s.Recover reuseManifest)

end ManifestState

end RedisDb
