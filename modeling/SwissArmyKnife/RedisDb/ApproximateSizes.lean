import Mathlib.Algebra.Order.BigOperators.Group.List
import Mathlib.Algebra.Order.Group.Nat
import SwissArmyKnife.RedisDb.VersionReads

/-!
# Approximate sizes

`VersionSet::ApproximateOffsetOf` adds up what each file has before a key.  For a file that has the key in its range
it asks the table of the file, which `TableCache::NewIterator` is to hand out through its last parameter.  The
parameter is a copy, and the pointer of the caller stays null, so such a file adds nothing
(`approximateOffsetOf_iff`).

Offsets and sizes are those of files, and are natural numbers here.
-/

namespace RedisDb

variable {K V : Type*} [LinearOrder K]

/-- What `Table::ApproximateOffsetOf` reads: the keys of the index block, each with the offset of its block handle
when the handle can be decoded, and the offset of the metaindex block. -/
structure Table (K : Type*) where
  index : List (InternalKey K × Option ℕ)
  metaindexhandle : ℕ
deriving DecidableEq

def Table.ApproximateOffsetOf (t : Table K) (key : InternalKey K) : ℕ :=
  match t.index.find? fun e => key ≤ e.1 with
  | some (_, some offset) => offset
  | some (_, none) => t.metaindexhandle
  | none => t.metaindexhandle

/-- `findTable` is the table that `FindTable` has in the cache or opens, when it does.  The result is the parameter at
the end. -/
def TableCache.NewIterator (findTable : FileMetaData K V → Option (Table K)) (f : FileMetaData K V)
    (tableptr : Option (Table K)) : Option (Table K) :=
  match findTable f with
  | none => tableptr
  | some table => if tableptr.isSome then some table else tableptr

namespace Version

variable (findTable : FileMetaData K V → Option (Table K))

/-- The part of a file that has the key in its range.  `NewIterator` gets a copy of `table`. -/
def offsetInTable (f : FileMetaData K V) (ikey : InternalKey K) : ℕ :=
  let table : Option (Table K) := none
  let _tableptr := TableCache.NewIterator findTable f table
  match table with
  | some table => table.ApproximateOffsetOf ikey
  | none => 0

/-- The loop over the files of a level. -/
def offsetInLevel (level : ℕ) (ikey : InternalKey K) : List (FileMetaData K V) → ℕ
  | [] => 0
  | f :: files =>
    if f.largest ≤ ikey then f.filesize + offsetInLevel level ikey files
    else if ikey < f.smallest then
      -- No further file of a sorted level has data before the key.
      if 0 < level then 0 else offsetInLevel level ikey files
    else offsetInTable findTable f ikey + offsetInLevel level ikey files

def ApproximateOffsetOf (v : Version K V) (ikey : InternalKey K) : ℕ :=
  ((List.range kNumLevels).map fun level => offsetInLevel findTable level ikey (v.files level)).sum

def approximateSize (v : Version K V) (start limit : K) : ℕ :=
  let start := v.ApproximateOffsetOf findTable ⟨start, kMaxSequenceNumber, kValueTypeForSeek⟩
  let limit := v.ApproximateOffsetOf findTable ⟨limit, kMaxSequenceNumber, kValueTypeForSeek⟩
  if start ≤ limit then limit - start else 0

def GetApproximateSizes (v : Version K V) (range : List (K × K)) : List ℕ :=
  range.map fun r => v.approximateSize findTable r.1 r.2

/-! ### What the offset should be -/

/-- What a file has before a key. -/
def fileOffset (ikey : InternalKey K) (f : FileMetaData K V) : ℕ :=
  if f.largest ≤ ikey then f.filesize
  else if f.smallest ≤ ikey then (findTable f).elim 0 fun t => t.ApproximateOffsetOf ikey
  else 0

/-- The sum over all files of the version. -/
def definedOffset (v : Version K V) (ikey : InternalKey K) : ℕ :=
  ((List.range kNumLevels).map fun level => ((v.files level).map (fileOffset findTable ikey)).sum).sum

end Version

/-- A data block with the key and the offset that the index has for it. -/
structure DataBlock (K V : Type*) where
  entries : List (Entry K V)
  indexkey : InternalKey K
  offset : ℕ

/-- The table consists of these data blocks: the index key of a block is not before its entries, and before those of
the blocks behind it.  No entry has the sequence number of a key to seek. -/
structure HasBlocks (f : FileMetaData K V) (t : Table K) (blocks : List (DataBlock K V)) : Prop where
  entries : f.entries = blocks.flatMap DataBlock.entries
  index : t.index = blocks.map fun b => (b.indexkey, some b.offset)
  le_indexkey : ∀ b ∈ blocks, ∀ e ∈ b.entries, e.key ≤ b.indexkey
  indexkey_lt : blocks.Pairwise fun a b => ∀ e ∈ b.entries, a.indexkey < e.key
  offsets : blocks.Pairwise fun a b => a.offset < b.offset
  metaindex : ∀ b ∈ blocks, b.offset < t.metaindexhandle
  sequence_lt : ∀ e ∈ f.entries, e.sequence < kMaxSequenceNumber

/-- A key to which the table gives the offset 0 is not after the index key of the first block. -/
theorem HasBlocks.le_indexkey_of_offset {f : FileMetaData K V} {t : Table K} {b : DataBlock K V}
    {blocks : List (DataBlock K V)} (h : HasBlocks f t (b :: blocks)) {ikey : InternalKey K}
    (hzero : t.ApproximateOffsetOf ikey = 0) : ikey ≤ b.indexkey := by
  by_contra hnot
  unfold Table.ApproximateOffsetOf at hzero
  rw [h.index, List.map_cons, List.find?_cons_of_neg (by simpa using hnot)] at hzero
  have hmeta := h.metaindex b List.mem_cons_self
  cases hfind : (blocks.map fun b => (b.indexkey, some b.offset)).find? fun e => decide (ikey ≤ e.1) with
  | none =>
    rw [hfind] at hzero
    dsimp only at hzero
    omega
  | some e =>
    obtain ⟨c, hc, rfl⟩ := List.mem_map.1 (List.mem_of_find?_eq_some hfind)
    rw [hfind] at hzero
    dsimp only at hzero
    have hlt := (List.pairwise_cons.1 h.offsets).1 c hc
    omega

/-- The block that is within a range whose limits are in the file is not the first one, since the start of the range
is before all entries of its user key. -/
theorem HasBlocks.ne_first {f : FileMetaData K V} (hf : f.Ok) {t : Table K} {b : DataBlock K V}
    {blocks : List (DataBlock K V)} (h : HasBlocks f t (b :: blocks)) (hne : b.entries ≠ []) {start : K}
    (hstart : f.smallest ≤ ⟨start, kMaxSequenceNumber, kValueTypeForSeek⟩)
    (hin : ∀ e ∈ b.entries, ⟨start, kMaxSequenceNumber, kValueTypeForSeek⟩ ≤ e.key) : False := by
  obtain ⟨e, l, hentries⟩ := List.exists_cons_of_ne_nil hne
  have hfirst : e.key = f.smallest := by
    have hsmallest := hf.smallest_eq
    rw [h.entries, List.flatMap_cons, hentries] at hsmallest
    simpa using hsmallest
  have he : e ∈ f.entries := by
    rw [h.entries, List.flatMap_cons, hentries]
    exact List.mem_cons_self
  have hkey : e.key = ⟨start, kMaxSequenceNumber, kValueTypeForSeek⟩ :=
    le_antisymm (hfirst ▸ hstart) (hin e (hentries ▸ List.mem_cons_self))
  have hlt := h.sequence_lt e he
  rw [Entry.sequence, hkey] at hlt
  exact absurd hlt (Nat.lt_irrefl _)

namespace Version

variable {findTable : FileMetaData K V → Option (Table K)}

/-- Offsets are the defined ones and grow with the key, and a range with a data block has a size. -/
structure SizesOk (findTable : FileMetaData K V → Option (Table K)) (v : Version K V) : Prop where
  offset_eq : ∀ ikey, v.ApproximateOffsetOf findTable ikey = v.definedOffset findTable ikey
  mono : ∀ ikey ikey' : InternalKey K, ikey ≤ ikey' →
    v.ApproximateOffsetOf findTable ikey ≤ v.ApproximateOffsetOf findTable ikey'
  /-- A range with its limits in a file that contains a data block of the file with its entries has a size. -/
  size_ne_zero : ∀ level, ∀ f ∈ v.files level, ∀ t ∈ findTable f, ∀ blocks, HasBlocks f t blocks →
    ∀ b ∈ blocks, b.entries ≠ [] → ∀ (range : List (K × K)) (i : ℕ) (start limit : K),
    range[i]? = some (start, limit) → f.smallest ≤ ⟨start, kMaxSequenceNumber, kValueTypeForSeek⟩ →
    ⟨limit, kMaxSequenceNumber, kValueTypeForSeek⟩ < f.largest →
    (∀ e ∈ b.entries, ⟨start, kMaxSequenceNumber, kValueTypeForSeek⟩ ≤ e.key ∧
      e.key < ⟨limit, kMaxSequenceNumber, kValueTypeForSeek⟩) →
    (v.GetApproximateSizes findTable range)[i]? ≠ some 0

/-! ### What the loop adds up -/

/-- The size of a file that is before a key. -/
def wholeOffset (ikey : InternalKey K) (f : FileMetaData K V) : ℕ := if f.largest ≤ ikey then f.filesize else 0

/-- A file with the key in its range adds nothing. -/
theorem offsetInTable_eq_zero (f : FileMetaData K V) (ikey : InternalKey K) : offsetInTable findTable f ikey = 0 :=
  rfl

/-- The loop over a level adds up the files before the key; in a sorted level none comes after the one where it
breaks. -/
theorem offsetInLevel_eq {level : ℕ} {files : List (FileMetaData K V)} (hrange : ∀ f ∈ files, f.smallest ≤ f.largest)
    (hsorted : 0 < level → files.Pairwise fun f g => f.largest < g.smallest) (ikey : InternalKey K) :
    offsetInLevel findTable level ikey files = (files.map (wholeOffset ikey)).sum := by
  induction files with
  | nil => rfl
  | cons f files ih =>
    have hrest := ih (fun g hg => hrange g (List.mem_cons_of_mem f hg)) (fun hlevel => (hsorted hlevel).of_cons)
    rw [offsetInLevel, List.map_cons, List.sum_cons, wholeOffset]
    by_cases hle : f.largest ≤ ikey
    · rw [if_pos hle, if_pos hle, hrest]
    · rw [if_neg hle, if_neg hle, Nat.zero_add]
      by_cases hlt : ikey < f.smallest
      · rw [if_pos hlt]
        by_cases hlevel : 0 < level
        · rw [if_pos hlevel]
          symm
          refine List.sum_eq_zero ?_
          intro n hn
          obtain ⟨g, hg, rfl⟩ := List.mem_map.1 hn
          have hafter := (List.pairwise_cons.1 (hsorted hlevel)).1 g hg
          have hlargest : ikey < g.largest := calc
            ikey < f.smallest := hlt
            _ ≤ f.largest := hrange f List.mem_cons_self
            _ < g.smallest := hafter
            _ ≤ g.largest := hrange g (List.mem_cons_of_mem f hg)
          exact if_neg hlargest.not_ge
        · rw [if_neg hlevel, hrest]
      · rw [if_neg hlt, offsetInTable_eq_zero, Nat.zero_add, hrest]

variable {v : Version K V}

theorem Sorted.approximateOffsetOf_eq (hv : v.Sorted) (ikey : InternalKey K) :
    v.ApproximateOffsetOf findTable ikey =
      ((List.range kNumLevels).map fun level => ((v.files level).map (wholeOffset ikey)).sum).sum := by
  unfold ApproximateOffsetOf
  congr 1
  refine List.map_congr_left ?_
  intro level _
  exact offsetInLevel_eq (fun f hf => (hv.ok level f hf).range) (hv.disjoint level) ikey

theorem Sorted.approximateOffsetOf_mono (hv : v.Sorted) {ikey ikey' : InternalKey K} (hle : ikey ≤ ikey') :
    v.ApproximateOffsetOf findTable ikey ≤ v.ApproximateOffsetOf findTable ikey' := by
  rw [hv.approximateOffsetOf_eq, hv.approximateOffsetOf_eq]
  refine List.sum_le_sum fun level _ => List.sum_le_sum fun f _ => ?_
  unfold wholeOffset
  by_cases hf : f.largest ≤ ikey
  · rw [if_pos hf, if_pos (hf.trans hle)]
  · rw [if_neg hf]
    exact Nat.zero_le _

/-- A file that has the key in its range is the only difference. -/
theorem wholeOffset_le (ikey : InternalKey K) (f : FileMetaData K V) :
    wholeOffset ikey f ≤ fileOffset findTable ikey f := by
  unfold wholeOffset fileOffset
  split
  · exact Nat.le_refl _
  · exact Nat.zero_le _

/-- The tables would add nothing either. -/
def TablesAddNothing (findTable : FileMetaData K V → Option (Table K)) (v : Version K V) : Prop :=
  ∀ level < kNumLevels, ∀ f ∈ v.files level, ∀ t ∈ findTable f, ∀ ikey, f.smallest ≤ ikey → ikey < f.largest →
    t.ApproximateOffsetOf ikey = 0

theorem TablesAddNothing.wholeOffset_eq (h : TablesAddNothing findTable v) {level : ℕ} (hlevel : level < kNumLevels)
    {f : FileMetaData K V} (hf : f ∈ v.files level) (ikey : InternalKey K) :
    wholeOffset ikey f = fileOffset findTable ikey f := by
  unfold wholeOffset fileOffset
  by_cases hle : f.largest ≤ ikey
  · rw [if_pos hle, if_pos hle]
  · rw [if_neg hle, if_neg hle]
    split
    · rename_i hsmall
      cases ht : findTable f with
      | none => rfl
      | some t => exact (h level hlevel f hf t ht ikey hsmall (not_le.1 hle)).symm
    · rfl

/-- When the offset is as defined for all keys, the tables add nothing. -/
theorem tablesAddNothing_of_offset (hv : v.Sorted)
    (h : ∀ ikey, v.ApproximateOffsetOf findTable ikey = v.definedOffset findTable ikey) :
    TablesAddNothing findTable v := by
  intro level hlevel f hf t ht ikey hsmall hlarge
  by_contra hne
  refine Nat.ne_of_lt ?_ (h ikey)
  rw [hv.approximateOffsetOf_eq]
  refine List.sum_lt_sum _ _ (fun l _ => List.sum_le_sum fun g _ => wholeOffset_le ikey g) ?_
  refine ⟨level, List.mem_range.2 hlevel, ?_⟩
  refine List.sum_lt_sum _ _ (fun g _ => wholeOffset_le ikey g) ⟨f, hf, ?_⟩
  unfold wholeOffset fileOffset
  rw [if_neg hlarge.not_ge, if_neg hlarge.not_ge, if_pos hsmall, ht]
  exact Nat.pos_of_ne_zero hne

/-- `ApproximateOffsetOf` is what it should be exactly when the tables that it does not ask would add nothing. -/
theorem approximateOffsetOf_iff (v : Version K V) (hv : v.Sorted) (findTable : FileMetaData K V → Option (Table K)) :
    SizesOk findTable v ↔ TablesAddNothing findTable v := by
  constructor
  · exact fun h => tablesAddNothing_of_offset hv h.offset_eq
  · intro h
    refine ⟨?_, fun ikey ikey' hle => hv.approximateOffsetOf_mono hle, ?_⟩
    · intro ikey
      rw [hv.approximateOffsetOf_eq]
      unfold definedOffset
      congr 1
      refine List.map_congr_left fun level hlevel => ?_
      congr 1
      exact List.map_congr_left fun f hf => h.wholeOffset_eq (List.mem_range.1 hlevel) hf ikey
    · -- There is no such range: its limit is not after the first block, and the first block is not in it.
      intro level f hf t ht blocks hblocks b hb hentries range i start limit _ hstart hlimit hin _
      have hlevel : level < kNumLevels := by
        by_contra hdeep
        simp [hv.deepest level (not_lt.1 hdeep)] at hf
      obtain ⟨e, he⟩ := List.exists_mem_of_ne_nil _ hentries
      have hsmall := hstart.trans ((hin e he).1.trans (hin e he).2.le)
      have hzero := h level hlevel f hf t ht _ hsmall hlimit
      cases blocks with
      | nil => simp at hb
      | cons first blocks =>
        have hfirst := hblocks.le_indexkey_of_offset hzero
        rcases List.mem_cons.1 hb with rfl | hb
        · exact hblocks.ne_first (hv.ok level f hf) hentries hstart fun e he => (hin e he).1
        · have hafter := (List.pairwise_cons.1 hblocks.indexkey_lt).1 b hb e he
          exact absurd ((hin e he).2.trans_le hfirst) hafter.not_gt

/-- A file with two data blocks, at the offsets 0 and 100. -/
def twoBlockFile : FileMetaData ℕ ℕ :=
  ⟨7, 200, ⟨1, 5, .kTypeValue⟩, ⟨9, 5, .kTypeValue⟩,
    [⟨⟨1, 5, .kTypeValue⟩, 10⟩, ⟨⟨4, 5, .kTypeValue⟩, 40⟩, ⟨⟨9, 5, .kTypeValue⟩, 90⟩]⟩

def oneFile (f : FileMetaData ℕ ℕ) : Version ℕ ℕ := ⟨fun level => if level = 1 then [f] else [], none⟩

theorem sorted_oneFile {f : FileMetaData ℕ ℕ} (hf : f.Ok) : (oneFile f).Sorted := by
  refine ⟨?_, ?_, ?_, ?_⟩
  · intro level g hg
    by_cases hlevel : level = 1
    · simp only [oneFile, if_pos hlevel, List.mem_singleton] at hg
      exact hg ▸ hf
    · simp [oneFile, hlevel] at hg
  · intro level _
    by_cases hlevel : level = 1 <;> simp [oneFile, hlevel]
  · intro level
    by_cases hlevel : level = 1 <;> simp [oneFile, hlevel]
  · intro level hlevel
    have hne : level ≠ 1 := by
      rintro rfl
      exact absurd hlevel (by decide)
    simp [oneFile, hne]

theorem twoBlockFile_ok : twoBlockFile.Ok := ⟨by decide, rfl, rfl, by decide⟩

/-- When the file has one data block, the offsets of its keys are 0. -/
theorem approximateOffsetOf_oneBlock :
    SizesOk (fun _ => some ⟨[(⟨9, 5, .kTypeValue⟩, some 0)], 180⟩) (oneFile twoBlockFile) := by
  refine (approximateOffsetOf_iff (oneFile twoBlockFile) (sorted_oneFile twoBlockFile_ok) _).2 ?_
  intro level _ f hf t ht ikey _ hlarge
  obtain rfl := Option.some.inj ht
  have hf : f = twoBlockFile := by
    by_cases hlevel : level = 1
    · simpa [oneFile, hlevel] using hf
    · simp [oneFile, hlevel] at hf
  have hle : ikey ≤ ⟨9, 5, .kTypeValue⟩ := (hf ▸ hlarge).le
  simp [Table.ApproximateOffsetOf, hle]

/-- The key of the second block should have the offset of that block. -/
theorem approximateOffsetOf_twoBlocks : ¬ ∀ (v : Version ℕ ℕ) (findTable : FileMetaData ℕ ℕ → Option (Table ℕ)),
    v.Sorted → SizesOk findTable v := by
  intro h
  have hoffset := (h (oneFile twoBlockFile)
    (fun _ => some ⟨[(⟨2, 5, .kTypeValue⟩, some 0), (⟨9, 5, .kTypeValue⟩, some 100)], 180⟩)
    (sorted_oneFile twoBlockFile_ok)).offset_eq ⟨4, 5, .kTypeValue⟩
  revert hoffset
  decide

end Version

end RedisDb
