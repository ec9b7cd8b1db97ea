import Mathlib.Data.List.Find
import Mathlib.Data.Set.Basic
import SwissArmyKnife.RedisDb.CompactionInputs

/-!
# The user keys of files

A file covers the user keys between its smallest and its largest one.  `SomeFileOverlapsRange` finds out whether some
file covers a user key of a range (`someFileOverlapsRange_iff`); for files in order it looks at one file only, the
first one that does not end before all internal keys of the range's first user key.
-/

namespace RedisDb

variable {K V : Type*} [LinearOrder K]

namespace FileMetaData

def userkeys (f : FileMetaData K V) : Set K := {u | f.smallest.userkey ≤ u ∧ u ≤ f.largest.userkey}

end FileMetaData

/-- The user keys between two bounds; `none` is before all keys, or after all keys. -/
def userkeysBetween (smallestuserkey largestuserkey : Option K) : Set K :=
  {u | (∀ s ∈ smallestuserkey, s ≤ u) ∧ ∀ l ∈ largestuserkey, u ≤ l}

/-! ### Overlap -/

theorem afterFile_eq_false {userkey : Option K} {f : FileMetaData K V} :
    AfterFile userkey f = false ↔ ∀ u ∈ userkey, u ≤ f.largest.userkey := by
  cases userkey <;> simp [AfterFile]

theorem beforeFile_eq_false {userkey : Option K} {f : FileMetaData K V} :
    BeforeFile userkey f = false ↔ ∀ u ∈ userkey, f.smallest.userkey ≤ u := by
  cases userkey <;> simp [BeforeFile]

/-- A file covers a key of the range when it neither ends before the range nor begins after it. -/
theorem FileMetaData.userkeys_inter_nonempty {f : FileMetaData K V} {smallestuserkey largestuserkey : Option K}
    (hf : f.smallest ≤ f.largest) (hle : ∀ s ∈ smallestuserkey, ∀ l ∈ largestuserkey, s ≤ l) :
    (f.userkeys ∩ userkeysBetween smallestuserkey largestuserkey).Nonempty ↔
      AfterFile smallestuserkey f = false ∧ BeforeFile largestuserkey f = false := by
  have hrange := InternalKey.userkey_le hf
  rw [afterFile_eq_false, beforeFile_eq_false]
  constructor
  · rintro ⟨u, ⟨hsmall, hlarge⟩, hbegin, hend⟩
    exact ⟨fun s hs => (hbegin s hs).trans hlarge, fun l hl => hsmall.trans (hend l hl)⟩
  · rintro ⟨hafter, hbefore⟩
    -- The greater one of the two lower bounds is covered.
    cases smallestuserkey with
    | none => exact ⟨_, ⟨le_rfl, hrange⟩, by simp, hbefore⟩
    | some s =>
      refine ⟨max s f.smallest.userkey, ⟨le_max_right _ _, max_le (hafter s rfl) hrange⟩, ?_, fun l hl => ?_⟩
      · intro s' hs'
        obtain rfl := Option.mem_some.1 hs'
        exact le_max_left _ _
      · exact max_le (hle s rfl l hl) (hbefore l hl)

/-- No internal key of the user key comes before the one with the greatest sequence number. -/
theorem InternalKey.lt_seek_iff {k : InternalKey K} (hseq : k.sequence ≤ kMaxSequenceNumber) {u : K} :
    k < ⟨u, kMaxSequenceNumber, kValueTypeForSeek⟩ ↔ k.userkey < u := by
  rw [InternalKey.lt_iff]
  constructor
  · rintro (hlt | ⟨-, htag⟩)
    · exact hlt
    · have hle := k.type.toNat_le
      have hseek : kValueTypeForSeek.toNat = 1 := rfl
      simp only [InternalKey.tag, packSequenceAndType, hseek] at htag
      omega
  · exact Or.inl

variable {files : List (FileMetaData K V)}

/-- The file with the index that `FindFile` returns is the first one that does not end before the user key. -/
theorem getElem?_findFile (hseq : ∀ f ∈ files, f.largest.sequence ≤ kMaxSequenceNumber)
    (hmono : files.Pairwise fun f g => f.largest ≤ g.largest) (u : K) :
    files[FindFile files ⟨u, kMaxSequenceNumber, kValueTypeForSeek⟩]? =
      files.find? fun f => !AfterFile (some u) f := by
  have hfind := Search.getElem?_bisect (l := files)
    (p := fun f => !decide (f.largest < ⟨u, kMaxSequenceNumber, kValueTypeForSeek⟩)) (hmono.imp fun hle hf => by
      simp only [Bool.not_eq_eq_eq_not, Bool.not_true, decide_eq_false_iff_not, not_lt] at hf ⊢
      exact hf.trans hle)
  refine hfind.trans (List.find?_congr fun f hf => ?_)
  simp [InternalKey.lt_seek_iff (hseq f hf), AfterFile]

/-- The file that a sorted level is asked about covers a key of the range when some file of the level does. -/
private theorem someFileOverlapsRange_sorted (hrange : ∀ f ∈ files, f.smallest ≤ f.largest)
    (hseq : ∀ f ∈ files, f.largest.sequence ≤ kMaxSequenceNumber)
    (hsorted : files.Pairwise fun f g => f.largest ≤ g.smallest) (smallestuserkey largestuserkey : Option K) :
    SomeFileOverlapsRange true files smallestuserkey largestuserkey = true ↔
      ∃ f ∈ files, AfterFile smallestuserkey f = false ∧ BeforeFile largestuserkey f = false := by
  have hmono : files.Pairwise fun f g => f.largest ≤ g.largest :=
    hsorted.imp_of_mem fun _ hg hle => hle.trans (hrange _ hg)
  have hindex : SomeFileOverlapsRange true files smallestuserkey largestuserkey =
      (files.find? fun f => !AfterFile smallestuserkey f).any fun f => !BeforeFile largestuserkey f := by
    cases smallestuserkey with
    | none =>
      have hfirst : files[0]? = files.find? fun f => !AfterFile none f := by cases files <;> simp [AfterFile]
      rw [← hfirst]
      unfold SomeFileOverlapsRange
      rw [if_pos rfl]
      dsimp only
      cases files[0]? <;> rfl
    | some s =>
      rw [← getElem?_findFile hseq hmono s]
      unfold SomeFileOverlapsRange
      rw [if_pos rfl]
      dsimp only
      cases files[FindFile files ⟨s, kMaxSequenceNumber, kValueTypeForSeek⟩]? <;> rfl
  rw [hindex]
  cases hfind : files.find? fun f => !AfterFile smallestuserkey f with
  | none =>
    have hafter := List.find?_eq_none.1 hfind
    simp only [Option.any_none, Bool.false_eq_true, false_iff]
    rintro ⟨f, hf, hnot, -⟩
    exact hafter f hf (by simp [hnot])
  | some f =>
    obtain ⟨hnot, before, after, rfl, hbefore⟩ := List.find?_eq_some_iff_append.1 hfind
    simp only [Bool.not_eq_eq_eq_not, Bool.not_true] at hnot
    simp only [Option.any_some, Bool.not_eq_eq_eq_not, Bool.not_true]
    constructor
    · exact fun hbefore => ⟨f, by simp, hnot, hbefore⟩
    · rintro ⟨g, hg, hgafter, hgbefore⟩
      rcases List.mem_append.1 hg with hg | hg
      · have := hbefore g hg
        simp [hgafter] at this
      · rcases List.mem_cons.1 hg with rfl | hg
        · exact hgbefore
        · -- A file after the first one does not begin before it.
          have hle := (List.pairwise_cons.1 (List.pairwise_append.1 hsorted).2.1).1 g hg
          have hkey := InternalKey.userkey_le ((hrange f (by simp)).trans hle)
          rw [beforeFile_eq_false] at hgbefore ⊢
          exact fun l hl => hkey.trans (hgbefore l hl)

private theorem exists_userkeys_inter (hrange : ∀ f ∈ files, f.smallest ≤ f.largest)
    {smallestuserkey largestuserkey : Option K} (hle : ∀ s ∈ smallestuserkey, ∀ l ∈ largestuserkey, s ≤ l) :
    (∃ f ∈ files, (f.userkeys ∩ userkeysBetween smallestuserkey largestuserkey).Nonempty) ↔
      ∃ f ∈ files, AfterFile smallestuserkey f = false ∧ BeforeFile largestuserkey f = false :=
  exists_congr fun f => and_congr_right fun hf => FileMetaData.userkeys_inter_nonempty (hrange f hf) hle

private theorem someFileOverlapsRange_scan {smallestuserkey largestuserkey : Option K} :
    SomeFileOverlapsRange false files smallestuserkey largestuserkey = true ↔
      ∃ f ∈ files, AfterFile smallestuserkey f = false ∧ BeforeFile largestuserkey f = false := by
  simp [SomeFileOverlapsRange]

/-- Overlap is the same for the scan of all files and for the search of files that are in order, where neighbours may
share a user key. -/
theorem someFileOverlapsRange_iff (files : List (FileMetaData K V)) (hrange : ∀ f ∈ files, f.smallest ≤ f.largest)
    (smallestuserkey largestuserkey : Option K) (hle : ∀ s ∈ smallestuserkey, ∀ l ∈ largestuserkey, s ≤ l) :
    (SomeFileOverlapsRange false files smallestuserkey largestuserkey = true ↔
        ∃ f ∈ files, (f.userkeys ∩ userkeysBetween smallestuserkey largestuserkey).Nonempty) ∧
      ((∀ f ∈ files, f.largest.sequence ≤ kMaxSequenceNumber) →
        (files.Pairwise fun f g => f.largest ≤ g.smallest) →
          (SomeFileOverlapsRange true files smallestuserkey largestuserkey = true ↔
            ∃ f ∈ files, (f.userkeys ∩ userkeysBetween smallestuserkey largestuserkey).Nonempty)) := by
  rw [exists_userkeys_inter hrange hle]
  exact ⟨someFileOverlapsRange_scan, fun hseq hsorted => someFileOverlapsRange_sorted hrange hseq hsorted _ _⟩

/-- Two files that share the user key 2. -/
def boundaryFiles : List (FileMetaData ℕ ℕ) :=
  [⟨1, 0, ⟨1, 100, .kTypeValue⟩, ⟨2, 100, .kTypeValue⟩, []⟩, ⟨2, 0, ⟨2, 50, .kTypeValue⟩, ⟨3, 50, .kTypeValue⟩, []⟩]

theorem someFileOverlapsRange_iff_boundary :
    SomeFileOverlapsRange true boundaryFiles (some 2) (some 2) = true ↔
      ∃ f ∈ boundaryFiles, (f.userkeys ∩ userkeysBetween (some 2) (some 2)).Nonempty :=
  (someFileOverlapsRange_iff boundaryFiles (by decide) (some 2) (some 2) (by simp)).2 (by decide) (by decide)

end RedisDb
