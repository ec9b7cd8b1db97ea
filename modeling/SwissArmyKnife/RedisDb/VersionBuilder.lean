import SwissArmyKnife.Lib.Merge
import SwissArmyKnife.RedisDb.Version

/-!
# Edits of versions

A version edit lists files to delete and files to add.  The builder applies it to a version: on every level it merges
the added files into those of the base version and leaves the deleted ones out.  Its assertion that the files of a
level below level 0 do not overlap ends the program, so a result is there only when it holds.
-/

namespace RedisDb

variable {K V : Type*} [LinearOrder K]

structure VersionEdit (K V : Type*) where
  lognumber : Option ℕ
  prevlognumber : Option ℕ
  nextfilenumber : Option ℕ
  lastsequence : Option ℕ
  compactpointers : List (ℕ × InternalKey K)
  deletedfiles : List (ℕ × ℕ)
  newfiles : List (ℕ × FileMetaData K V)

namespace VersionEdit

def empty : VersionEdit K V := ⟨none, none, none, none, [], [], []⟩

def SetCompactPointer (edit : VersionEdit K V) (level : ℕ) (key : InternalKey K) : VersionEdit K V :=
  { edit with compactpointers := edit.compactpointers ++ [(level, key)] }

def DeleteFile (edit : VersionEdit K V) (level file : ℕ) : VersionEdit K V :=
  { edit with deletedfiles := edit.deletedfiles ++ [(level, file)] }

def AddFile (edit : VersionEdit K V) (level : ℕ) (f : FileMetaData K V) : VersionEdit K V :=
  { edit with newfiles := edit.newfiles ++ [(level, f)] }

end VersionEdit

/-- The order of the added files: by smallest key, then by number. -/
def BySmallestKey (f1 f2 : FileMetaData K V) : Bool :=
  f1.smallest < f2.smallest ∨ f1.smallest = f2.smallest ∧ f1.number < f2.number

/-- Insertion into the set of added files, which keeps the element it has when an equivalent one is inserted. -/
def FileSet.insert (f : FileMetaData K V) : List (FileMetaData K V) → List (FileMetaData K V)
  | [] => [f]
  | g :: files =>
    if BySmallestKey f g then f :: g :: files
    else if BySmallestKey g f then g :: FileSet.insert f files
    else g :: files

structure LevelState (K V : Type*) where
  deletedfiles : List ℕ
  addedFiles : List (FileMetaData K V)

structure Builder (K V : Type*) where
  base : Version K V
  levels : ℕ → LevelState K V

namespace Builder

def new (base : Version K V) : Builder K V := ⟨base, fun _ => ⟨[], []⟩⟩

def deleteFile (b : Builder K V) (file : ℕ × ℕ) : Builder K V :=
  let state := b.levels file.1
  ⟨b.base, Function.update b.levels file.1 { state with deletedfiles := file.2 :: state.deletedfiles }⟩

def addFile (b : Builder K V) (new : ℕ × FileMetaData K V) : Builder K V :=
  let state := b.levels new.1
  ⟨b.base, Function.update b.levels new.1
    ⟨state.deletedfiles.filter fun number => number ≠ new.2.number, FileSet.insert new.2 state.addedFiles⟩⟩

/-- Applies the deletions and then the additions.  The compaction pointers of the edit belong to the version set. -/
def Apply (b : Builder K V) (edit : VersionEdit K V) : Builder K V :=
  edit.newfiles.foldl addFile (edit.deletedfiles.foldl deleteFile b)

/-- Adds the file unless it is deleted; the flag says whether the assertion has held so far. -/
def MaybeAddFile (b : Builder K V) (level : ℕ) (saved : List (FileMetaData K V) × Bool) (f : FileMetaData K V) :
    List (FileMetaData K V) × Bool :=
  if f.number ∈ (b.levels level).deletedfiles then saved
  else
    let disjoint := level = 0 ∨ (saved.1.getLast?.all fun last => decide (last.largest < f.smallest))
    (saved.1 ++ [f], saved.2 && disjoint)

def saveLevel (b : Builder K V) (level : ℕ) : List (FileMetaData K V) × Bool :=
  (Merge.splice BySmallestKey (b.base.files level) (b.levels level).addedFiles).foldl
    (b.MaybeAddFile level) ([], true)

def SaveTo (b : Builder K V) : Option (Version K V) :=
  if ∀ level < kNumLevels, (b.saveLevel level).2 then
    some ⟨fun level => if level < kNumLevels then (b.saveLevel level).1 else [], none⟩
  else none

end Builder

/-! ### The version set -/

structure VersionSet (K V : Type*) where
  current : Version K V
  compactPointer : ℕ → Option (InternalKey K)
  nextfilenumber : ℕ
  lastsequence : ℕ
  lognumber : ℕ
  prevlognumber : ℕ

namespace VersionSet

/-- The next file number, and the version set after it is taken. -/
def NewFileNumber (vs : VersionSet K V) : ℕ × VersionSet K V :=
  (vs.nextfilenumber, { vs with nextfilenumber := vs.nextfilenumber + 1 })

/-- The edit as it is written to the manifest. -/
def completeEdit (vs : VersionSet K V) (edit : VersionEdit K V) : VersionEdit K V :=
  { edit with
    lognumber := some (edit.lognumber.getD vs.lognumber)
    prevlognumber := some (edit.prevlognumber.getD vs.prevlognumber)
    nextfilenumber := some vs.nextfilenumber
    lastsequence := some vs.lastsequence }

/-- Installs the version that the edit makes of the current one, when the manifest is written without an error.  There
is no result when an assertion fails. -/
def LogAndApply (vs : VersionSet K V) (edit : VersionEdit K V) : Option (VersionSet K V) :=
  let written := vs.completeEdit edit
  if edit.lognumber.all fun number => vs.lognumber ≤ number ∧ number < vs.nextfilenumber then
    (((Builder.new vs.current).Apply written).SaveTo).map fun v =>
      { vs with
        current := v
        compactPointer := written.compactpointers.foldl
          (fun pointers p => Function.update pointers p.1 (some p.2)) vs.compactPointer
        lognumber := edit.lognumber.getD vs.lognumber
        prevlognumber := edit.prevlognumber.getD vs.prevlognumber }
  else none

end VersionSet

end RedisDb
