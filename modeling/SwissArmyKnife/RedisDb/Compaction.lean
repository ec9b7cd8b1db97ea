import Mathlib.Data.List.MinMax
import Mathlib.Data.Rat.Init
import Mathlib.Algebra.Order.Ring.Rat
import SwissArmyKnife.RedisDb.VersionBuilder

/-!
# Choosing the inputs of a compaction

A compaction merges files of a level with the files of the next level that they overlap.  `PickCompaction` starts from
one file, chosen by size or by seeks, `CompactRange` from the files that overlap a range; `SetupOtherInputs` does the
rest for both.
-/

namespace RedisDb

variable {K V : Type*} [LinearOrder K]

structure Compaction (K V : Type*) where
  level : ℕ
  maxoutputfilesize : ℕ
  inputversion : Version K V
  edit : VersionEdit K V
  /-- `inputs[0]` and `inputs[1]`. -/
  inputs0 : List (FileMetaData K V)
  inputs1 : List (FileMetaData K V)
  grandparents : List (FileMetaData K V)
  grandparentindex : ℕ
  seenkey : Bool
  overlappedbytes : ℕ
  levelptrs : ℕ → ℕ

/-- The range that covers the files. -/
def GetRange (inputs : List (FileMetaData K V)) : Option (InternalKey K) × Option (InternalKey K) :=
  ((inputs.map FileMetaData.smallest).min?, (inputs.map FileMetaData.largest).max?)

def GetRange2 (inputs1 inputs2 : List (FileMetaData K V)) : Option (InternalKey K) × Option (InternalKey K) :=
  GetRange (inputs1 ++ inputs2)

def findLargestKey (files : List (FileMetaData K V)) : Option (InternalKey K) :=
  (files.map FileMetaData.largest).max?

/-- The file with the smallest key after the largest key among those that begin with its user key. -/
def findSmallestBoundaryFile (levelfiles : List (FileMetaData K V)) (largestkey : InternalKey K) :
    Option (FileMetaData K V) :=
  (levelfiles.filter fun f =>
    largestkey < f.smallest ∧ f.smallest.userkey = largestkey.userkey).argmin FileMetaData.smallest

theorem length_filter_after {levelfiles : List (FileMetaData K V)} {largestkey : InternalKey K}
    {f : FileMetaData K V} (h : findSmallestBoundaryFile levelfiles largestkey = some f)
    (hle : f.smallest ≤ f.largest) :
    (levelfiles.filter fun g => f.largest < g.smallest).length <
      (levelfiles.filter fun g => largestkey < g.smallest).length := by
  have hmem := List.argmin_mem (Option.mem_def.2 h)
  simp only [List.mem_filter, decide_eq_true_eq] at hmem
  obtain ⟨hf, hlt, -⟩ := hmem
  have hsub : (levelfiles.filter fun g => f.largest < g.smallest).Sublist
      (levelfiles.filter fun g => largestkey < g.smallest) := by
    refine List.monotone_filter_right _ fun g hg => ?_
    simp only [decide_eq_true_eq] at hg ⊢
    exact hlt.trans (lt_of_le_of_lt hle hg)
  refine Nat.lt_of_le_of_ne hsub.length_le fun heq => ?_
  have hmem : f ∈ levelfiles.filter fun g => f.largest < g.smallest := by
    rw [hsub.eq_of_length heq]
    simp [hf, hlt]
  simp only [List.mem_filter, decide_eq_true_eq] at hmem
  exact absurd hle (not_le.2 hmem.2)

/-- The loop of `addBoundaryInputs`.  Each file it adds ends after the last one, as the range of a file is not
empty. -/
def addBoundaryFiles (levelfiles compactionfiles : List (FileMetaData K V)) (largestkey : InternalKey K) :
    List (FileMetaData K V) :=
  match _h : findSmallestBoundaryFile levelfiles largestkey with
  | none => compactionfiles
  | some f =>
    if _hle : f.smallest ≤ f.largest then addBoundaryFiles levelfiles (compactionfiles ++ [f]) f.largest
    else compactionfiles ++ [f]
termination_by (levelfiles.filter fun g => largestkey < g.smallest).length
decreasing_by exact length_filter_after _h _hle

def addBoundaryInputs (levelfiles compactionfiles : List (FileMetaData K V)) : List (FileMetaData K V) :=
  match findLargestKey compactionfiles with
  | none => compactionfiles
  | some largestkey => addBoundaryFiles levelfiles compactionfiles largestkey

namespace VersionSet

/-- The inputs of the compaction when those of `level` are `inputs0`, before they are grown. -/
def otherInputs (v : Version K V) (level : ℕ) (inputs0 : List (FileMetaData K V)) : List (FileMetaData K V) :=
  let range := GetRange inputs0
  v.GetOverlappingInputs (level + 1) range.1 range.2

/-- Grows the inputs in `level` without changing the number of files in `level + 1`. -/
def expandInputs (options : Options) (v : Version K V) (level : ℕ) (inputs0 inputs1 : List (FileMetaData K V)) :
    List (FileMetaData K V) × List (FileMetaData K V) :=
  if inputs1.isEmpty then (inputs0, inputs1)
  else
    let all := GetRange2 inputs0 inputs1
    let expanded0 := addBoundaryInputs (v.files level) (v.GetOverlappingInputs level all.1 all.2)
    if inputs0.length < expanded0.length ∧
        TotalFileSize inputs1 + TotalFileSize expanded0 < ExpandedCompactionByteSizeLimit options then
      let expanded1 := otherInputs v level expanded0
      if expanded1.length = inputs1.length then (expanded0, expanded1) else (inputs0, inputs1)
    else (inputs0, inputs1)

/-- The compaction of the files `picked` of the level, and the key after which the next one of the level starts. -/
def SetupOtherInputs (options : Options) (v : Version K V) (level : ℕ) (picked : List (FileMetaData K V)) :
    Compaction K V × Option (InternalKey K) :=
  let inputs0 := addBoundaryInputs (v.files level) picked
  let inputs := expandInputs options v level inputs0 (otherInputs v level inputs0)
  let all := GetRange2 inputs.1 inputs.2
  let largest := (GetRange inputs.1).2
  ({  level := level
      maxoutputfilesize := MaxFileSizeForLevel options level
      inputversion := v
      edit := largest.elim .empty (VersionEdit.empty.SetCompactPointer level)
      inputs0 := inputs.1
      inputs1 := inputs.2
      grandparents := if level + 2 < kNumLevels then v.GetOverlappingInputs (level + 2) all.1 all.2 else []
      grandparentindex := 0
      seenkey := false
      overlappedbytes := 0
      levelptrs := fun _ => 0 }, largest)

/-- The file of the level with which an automatic compaction starts: the first one after the compaction pointer, and
the first one of the level when there is none. -/
def firstInput (v : Version K V) (compactPointer : ℕ → Option (InternalKey K)) (level : ℕ) :
    Option (FileMetaData K V) :=
  ((v.files level).find? fun f => (compactPointer level).all fun pointer => decide (pointer < f.largest)).or
    (v.files level).head?

/-- The file and the level to compact: too much data in a level goes before too many seeks of a file. -/
def seedInput (v : Version K V) (compactPointer : ℕ → Option (InternalKey K)) : Option (FileMetaData K V × ℕ) :=
  let best := v.Finalize
  if 1 ≤ best.2 then best.1.bind fun level => (firstInput v compactPointer level).map fun f => (f, level)
  else v.filetocompact

/-- Files of level 0 may overlap, so the overlapping ones are picked up with the file. -/
def pickedInputs (v : Version K V) (level : ℕ) (f : FileMetaData K V) : List (FileMetaData K V) :=
  if level = 0 then
    let range := GetRange [f]
    v.GetOverlappingInputs 0 range.1 range.2
  else [f]

def PickCompaction (options : Options) (v : Version K V) (compactPointer : ℕ → Option (InternalKey K)) :
    Option (Compaction K V × Option (InternalKey K)) :=
  (seedInput v compactPointer).map fun (f, level) => SetupOtherInputs options v level (pickedInputs v level f)

/-- The files up to the one with which their total size reaches the limit. -/
def truncateInputs (limit : ℕ) (total : ℕ) : List (FileMetaData K V) → List (FileMetaData K V)
  | [] => []
  | f :: inputs => if limit ≤ total + f.filesize then [f] else f :: truncateInputs limit (total + f.filesize) inputs

def CompactRange (options : Options) (v : Version K V) (level : ℕ) (begin «end» : Option (InternalKey K)) :
    Option (Compaction K V × Option (InternalKey K)) :=
  let inputs := v.GetOverlappingInputs level begin «end»
  if inputs.isEmpty then none
  else
    let inputs := if 0 < level then truncateInputs (MaxFileSizeForLevel options level) 0 inputs else inputs
    some (SetupOtherInputs options v level inputs)

end VersionSet

namespace Compaction

def numInputFiles (c : Compaction K V) (which : ℕ) : ℕ :=
  if which = 0 then c.inputs0.length else c.inputs1.length

def isTrivialMove (options : Options) (c : Compaction K V) : Bool :=
  c.numInputFiles 0 = 1 ∧ c.numInputFiles 1 = 0 ∧ TotalFileSize c.grandparents ≤ MaxGrandParentOverlapBytes options

def addInputDeletions (c : Compaction K V) (edit : VersionEdit K V) : VersionEdit K V :=
  let deleted := c.inputs0.foldl (fun edit f => edit.DeleteFile c.level f.number) edit
  c.inputs1.foldl (fun edit f => edit.DeleteFile (c.level + 1) f.number) deleted

/-- Moves the cursor of a level on to the first file that does not end before the key; the flag says whether the key
falls in the range of this file. -/
def advance (files : List (FileMetaData K V)) (userkey : K) (ptr : ℕ) : ℕ × Bool :=
  match _h : files[ptr]? with
  | none => (ptr, false)
  | some f =>
    if userkey ≤ f.largest.userkey then (ptr, decide (f.smallest.userkey ≤ userkey))
    else advance files userkey (ptr + 1)
termination_by files.length - ptr
decreasing_by
  have := (List.getElem?_eq_some_iff.1 _h).1
  omega

/-- Looks for the key in the levels, with a cursor each. -/
def searchLevels (v : Version K V) (userkey : K) : List ℕ → (ℕ → ℕ) → Bool × (ℕ → ℕ)
  | [], levelptrs => (true, levelptrs)
  | lvl :: lvls, levelptrs =>
    let next := advance (v.files lvl) userkey (levelptrs lvl)
    let levelptrs := Function.update levelptrs lvl next.1
    if next.2 then (false, levelptrs) else searchLevels v userkey lvls levelptrs

/-- No file of the levels from `level + 2` on has the key in its range. -/
def isBaseLevelForKey (c : Compaction K V) (userkey : K) : Bool × Compaction K V :=
  let searched := searchLevels c.inputversion userkey
    (List.range' (c.level + 2) (kNumLevels - (c.level + 2))) c.levelptrs
  (searched.1, { c with levelptrs := searched.2 })

/-- Moves on over the grandparents that end before the key. -/
def skipGrandparents (c : Compaction K V) (key : InternalKey K) : Compaction K V :=
  match _h : c.grandparents[c.grandparentindex]? with
  | none => c
  | some f =>
    if f.largest < key then
      let seen := if c.seenkey then c.overlappedbytes + f.filesize else c.overlappedbytes
      skipGrandparents { c with grandparentindex := c.grandparentindex + 1, overlappedbytes := seen } key
    else c
termination_by c.grandparents.length - c.grandparentindex
decreasing_by
  have := (List.getElem?_eq_some_iff.1 _h).1
  omega

/-- The output is to be ended before the key, as it overlaps too much of the level below it. -/
def shouldStopBefore (options : Options) (c : Compaction K V) (key : InternalKey K) : Bool × Compaction K V :=
  let c := { c.skipGrandparents key with seenkey := true }
  if MaxGrandParentOverlapBytes options < c.overlappedbytes then (true, { c with overlappedbytes := 0 })
  else (false, c)

end Compaction

end RedisDb
