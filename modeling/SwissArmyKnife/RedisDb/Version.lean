import Mathlib.Data.List.Sort
import Mathlib.Data.Rat.Defs
import SwissArmyKnife.Lib.Search
import SwissArmyKnife.RedisDb.DbFormat

/-!
# Versions

A version lists the table files of each level.  A table file is modelled with the entries it holds, in the order of
their internal keys.  Level 0 may hold files that overlap; in the other levels a file is found by binary search.
-/

namespace RedisDb

variable {K V : Type*} [LinearOrder K]

structure Options where
  maxfilesize : ℕ

structure FileMetaData (K V : Type*) where
  number : ℕ
  filesize : ℕ
  smallest : InternalKey K
  largest : InternalKey K
  entries : List (Entry K V)

structure Version (K V : Type*) where
  files : ℕ → List (FileMetaData K V)
  /-- The file to compact because of its seeks, with its level. -/
  filetocompact : Option (FileMetaData K V × ℕ)

def TargetFileSize (options : Options) : ℕ := options.maxfilesize

def MaxGrandParentOverlapBytes (options : Options) : ℕ := 10 * TargetFileSize options

def ExpandedCompactionByteSizeLimit (options : Options) : ℕ := 25 * TargetFileSize options

def MaxFileSizeForLevel (options : Options) (_level : ℕ) : ℕ := TargetFileSize options

def TotalFileSize (files : List (FileMetaData K V)) : ℕ := (files.map FileMetaData.filesize).sum

/-! ### Searching a level -/

/-- The index of the first file whose largest key is not before the key. -/
def FindFile (files : List (FileMetaData K V)) (key : InternalKey K) : ℕ :=
  Search.bisect (Search.passesAt files fun f => !decide (f.largest < key)) 0 files.length

def AfterFile (userkey : Option K) (f : FileMetaData K V) : Bool :=
  userkey.any fun u => decide (f.largest.userkey < u)

def BeforeFile (userkey : Option K) (f : FileMetaData K V) : Bool :=
  userkey.any fun u => decide (u < f.smallest.userkey)

def SomeFileOverlapsRange (disjointSortedFiles : Bool) (files : List (FileMetaData K V))
    (smallestuserkey largestuserkey : Option K) : Bool :=
  if disjointSortedFiles then
    let index := match smallestuserkey with
      | some u => FindFile files ⟨u, kMaxSequenceNumber, kValueTypeForSeek⟩
      | none => 0
    match files[index]? with
    | none => false
    | some f => !BeforeFile largestuserkey f
  else files.any fun f => !(AfterFile smallestuserkey f || BeforeFile largestuserkey f)

namespace Version

end Version

/-! ### Reading -/

inductive SaverState (V : Type*) where
  | kNotFound
  | kFound (value : V)
  | kDeleted

def SaveValue (userkey : K) (e : Entry K V) : SaverState V :=
  if e.key.userkey = userkey then
    match e.key.type with
    | .kTypeValue => .kFound e.value
    | .kTypeDeletion => .kDeleted
  else .kNotFound

/-- The first entry of the table that is not before the key. -/
def FileMetaData.seek (f : FileMetaData K V) (ikey : InternalKey K) : Option (Entry K V) :=
  f.entries.find? fun e => ikey ≤ e.key

def TableCache.Get (f : FileMetaData K V) (ikey : InternalKey K) : SaverState V :=
  match f.seek ikey with
  | some e => SaveValue ikey.userkey e
  | none => .kNotFound

namespace Version

/-- The files of a level to search, in the order in which they are searched. -/
def filesToSearch (v : Version K V) (ikey : InternalKey K) (level : ℕ) : List (FileMetaData K V) :=
  if level = 0 then
    ((v.files 0).filter fun f => f.smallest.userkey ≤ ikey.userkey ∧ ikey.userkey ≤ f.largest.userkey).insertionSort
      fun a b => b.number ≤ a.number
  else
    match (v.files level)[FindFile (v.files level) ikey]? with
    | none => []
    | some f => if ikey.userkey < f.smallest.userkey then [] else [f]

/-- Searches the files one after the other.  When a second file is read, the first one is charged for the seek. -/
def searchFiles (ikey : InternalKey K) : List (FileMetaData K V × ℕ) → Option (FileMetaData K V × ℕ) →
    Option (FileMetaData K V × ℕ) → Option V × Option (FileMetaData K V × ℕ)
  | [], _, seekFile => (none, seekFile)
  | (f, level) :: rest, lastfileread, seekFile =>
    let charged := if lastfileread.isSome && seekFile.isNone then lastfileread else seekFile
    match TableCache.Get f ikey with
    | .kNotFound => searchFiles ikey rest (some (f, level)) charged
    | .kFound value => (some value, charged)
    | .kDeleted => (none, charged)

/-- The value, or `none` for `NotFound`; and the file to charge for the seeks, with its level. -/
def Get (v : Version K V) (ikey : InternalKey K) : Option V × Option (FileMetaData K V × ℕ) :=
  searchFiles ikey
    ((List.range kNumLevels).flatMap fun level => (v.filesToSearch ikey level).map fun f => (f, level)) none none

/-! ### Choosing files -/

/-- The file shares a user key with the range. -/
def overlapsRange (userBegin userEnd : Option K) (f : FileMetaData K V) : Bool :=
  !(userBegin.any fun u => decide (f.largest.userkey < u)) && !(userEnd.any fun u => decide (u < f.smallest.userkey))

/-- The file extends beyond the range. -/
def widens (userBegin userEnd : Option K) (f : FileMetaData K V) : Bool :=
  (userBegin.any fun u => decide (f.smallest.userkey < u)) || (userEnd.any fun u => decide (u < f.largest.userkey))

/-- The range with which the scan starts again: one bound is moved at a time. -/
def widened (userBegin userEnd : Option K) (f : FileMetaData K V) : Option K × Option K :=
  if userBegin.any fun u => decide (f.smallest.userkey < u) then (some f.smallest.userkey, userEnd)
  else (userBegin, some f.largest.userkey)

/-- The files of the level that begin before the range or end after it. -/
private def outside (files : List (FileMetaData K V)) (range : Option K × Option K) : ℕ :=
  (files.filter fun f => range.1.any fun u => decide (f.smallest.userkey < u)).length +
    (files.filter fun f => range.2.any fun u => decide (u < f.largest.userkey)).length

private theorem length_filter_lt {α : Type*} {l : List α} {p q : α → Bool} (himp : ∀ a ∈ l, p a → q a) {a : α}
    (ha : a ∈ l) (hp : ¬ p a) (hq : q a) : (l.filter p).length < (l.filter q).length := by
  rw [← List.countP_eq_length_filter, ← List.countP_eq_length_filter]
  refine Nat.lt_of_le_of_ne (List.countP_mono_left himp) fun heq => hp ?_
  have hall : ∀ b ∈ l.filter q, p b := by
    have hcount : (l.filter q).countP p = (l.filter q).length := by
      rw [List.countP_filter, ← List.countP_eq_length_filter, ← heq]
      refine List.countP_congr fun b hb => ?_
      simp only [Bool.and_eq_true, and_iff_left_iff_imp]
      exact himp b hb
    exact List.countP_eq_length.1 hcount
  exact hall a (List.mem_filter.2 ⟨ha, hq⟩)

private theorem outside_widened {files : List (FileMetaData K V)} {userBegin userEnd : Option K}
    {f : FileMetaData K V} (hmem : f ∈ files) (hwidens : widens userBegin userEnd f) :
    outside files (widened userBegin userEnd f) < outside files (userBegin, userEnd) := by
  unfold outside widened
  by_cases hb : userBegin.any fun u => decide (f.smallest.userkey < u)
  · rw [if_pos hb]
    refine Nat.add_lt_add_right (length_filter_lt (a := f) (fun g _ hg => ?_) hmem (by simp) hb) _
    obtain ⟨u, rfl⟩ := Option.isSome_iff_exists.1 (Option.isSome_of_any hb)
    simp only [Option.any_some, decide_eq_true_eq] at hg hb ⊢
    exact hg.trans hb
  · rw [if_neg hb]
    have he : userEnd.any fun u => decide (u < f.largest.userkey) := by
      simpa [widens, hb] using hwidens
    refine Nat.add_lt_add_left (length_filter_lt (a := f) (fun g _ hg => ?_) hmem (by simp) he) _
    obtain ⟨u, rfl⟩ := Option.isSome_iff_exists.1 (Option.isSome_of_any he)
    simp only [Option.any_some, decide_eq_true_eq] at hg he ⊢
    exact he.trans hg

/-- The scan of level 0: a file that overlaps the range and extends beyond it widens the range, and the scan starts
again with no inputs. -/
def overlappingInputsLevel0 (files : List (FileMetaData K V)) (userBegin userEnd : Option K) :
    List (FileMetaData K V) :=
  match _h : files.find? fun f => overlapsRange userBegin userEnd f && widens userBegin userEnd f with
  | none => files.filter (overlapsRange userBegin userEnd)
  | some f =>
    overlappingInputsLevel0 files (widened userBegin userEnd f).1 (widened userBegin userEnd f).2
termination_by outside files (userBegin, userEnd)
decreasing_by
  have hsome := List.find?_some _h
  simp only [Bool.and_eq_true] at hsome
  exact outside_widened (List.mem_of_find?_eq_some _h) hsome.2

/-- The files of the level that overlap the range; `none` is before all keys, or after all keys. -/
def GetOverlappingInputs (v : Version K V) (level : ℕ) (begin «end» : Option (InternalKey K)) :
    List (FileMetaData K V) :=
  let userBegin := begin.map InternalKey.userkey
  let userEnd := «end».map InternalKey.userkey
  if level = 0 then overlappingInputsLevel0 (v.files 0) userBegin userEnd
  else (v.files level).filter (overlapsRange userBegin userEnd)

/-! ### The level to compact -/

/-- Ten megabytes for the levels 0 and 1, ten times as much for every two levels more. -/
def MaxBytesForLevel : ℕ → ℕ
  | 0 => 10 * 1048576
  | 1 => 10 * 1048576
  | level + 2 => 10 * MaxBytesForLevel (level + 1)

/-- The share of its limit that a level has reached. -/
def score (v : Version K V) (level : ℕ) : ℚ :=
  if level = 0 then (v.files 0).length / kL0_CompactionTrigger
  else TotalFileSize (v.files level) / MaxBytesForLevel level

/-- The level to compact next, with its score. -/
def Finalize (v : Version K V) : Option ℕ × ℚ :=
  (List.range (kNumLevels - 1)).foldl
    (fun best level => if best.2 < v.score level then (some level, v.score level) else best) (none, -1)

end Version

end RedisDb
