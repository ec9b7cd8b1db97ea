import Mathlib.Data.List.Pairwise
import SwissArmyKnife.Lib.Mvcc
import SwissArmyKnife.RedisDb.Version

/-!
# What a version contains and what its reads find

A version is a multi-version set of the entries of its files.  When the levels below level 0 are sorted and every
layer is newer than the ones below it, `Version.Get` finds the newest entry that the read may see (`get_reads`).
-/

namespace RedisDb

variable {K V : Type*}

namespace FileMetaData

def contents (f : FileMetaData K V) : Set (Entry K V) := {e | e ∈ f.entries}

variable [LinearOrder K]

/-- The entries are in the order of their keys, and the file knows its first and its last key. -/
structure Ok (f : FileMetaData K V) : Prop where
  sorted : f.entries.Pairwise fun a b => a.key < b.key
  smallest_eq : f.entries.head?.map Entry.key = some f.smallest
  largest_eq : f.entries.getLast?.map Entry.key = some f.largest
  sequence_le : ∀ e ∈ f.entries, e.sequence ≤ kMaxSequenceNumber

/-- The files do not overlap. -/
def Apart (f g : FileMetaData K V) : Prop := f.largest < g.smallest ∨ g.largest < f.smallest

theorem Apart.symm {f g : FileMetaData K V} (h : f.Apart g) : g.Apart f := Or.symm h

variable {f : FileMetaData K V}

theorem Ok.exists_smallest (h : f.Ok) : ∃ e ∈ f.entries, e.key = f.smallest := by
  obtain ⟨e, he, hkey⟩ := Option.map_eq_some_iff.1 h.smallest_eq
  exact ⟨e, List.mem_of_mem_head? he, hkey⟩

theorem Ok.exists_largest (h : f.Ok) : ∃ e ∈ f.entries, e.key = f.largest := by
  obtain ⟨e, he, hkey⟩ := Option.map_eq_some_iff.1 h.largest_eq
  exact ⟨e, List.mem_of_mem_getLast? he, hkey⟩

theorem Ok.smallest_le (h : f.Ok) {e : Entry K V} (he : e ∈ f.entries) : f.smallest ≤ e.key := by
  obtain ⟨a, ha, hkey⟩ := Option.map_eq_some_iff.1 h.smallest_eq
  have hsorted := h.sorted
  obtain ⟨l, hl⟩ : ∃ l, f.entries = a :: l := List.head?_eq_some_iff.1 ha
  rw [hl] at he hsorted
  rcases List.mem_cons.1 he with rfl | he
  · exact hkey.ge
  · exact hkey ▸ ((List.pairwise_cons.1 hsorted).1 e he).le

theorem Ok.le_largest (h : f.Ok) {e : Entry K V} (he : e ∈ f.entries) : e.key ≤ f.largest := by
  obtain ⟨a, ha, hkey⟩ := Option.map_eq_some_iff.1 h.largest_eq
  have hsorted := h.sorted
  obtain ⟨l, hl⟩ : ∃ l, f.entries = l ++ [a] := List.getLast?_eq_some_iff.1 ha
  rw [hl] at he hsorted
  rcases List.mem_append.1 he with he | he
  · exact hkey ▸ ((List.pairwise_append.1 hsorted).2.2 e he a (List.mem_singleton_self a)).le
  · exact (List.mem_singleton.1 he ▸ hkey).le

theorem Ok.range (h : f.Ok) : f.smallest ≤ f.largest := by
  obtain ⟨e, he, hkey⟩ := h.exists_smallest
  exact hkey ▸ h.le_largest he

theorem Ok.userkey_mem (h : f.Ok) {e : Entry K V} (he : e ∈ f.entries) :
    f.smallest.userkey ≤ e.userkey ∧ e.userkey ≤ f.largest.userkey :=
  ⟨InternalKey.userkey_le (h.smallest_le he), InternalKey.userkey_le (h.le_largest he)⟩

/-- The entry that answers a read, when the file has one. -/
def hit (f : FileMetaData K V) (ikey : InternalKey K) : Option (Entry K V) :=
  (f.seek ikey).filter fun e => e.key.userkey = ikey.userkey

theorem tableCache_get (f : FileMetaData K V) (ikey : InternalKey K) :
    TableCache.Get f ikey = match f.hit ikey with
      | none => .kNotFound
      | some e => match e.result with
        | some value => .kFound value
        | none => .kDeleted := by
  unfold TableCache.Get hit
  cases f.seek ikey with
  | none => rfl
  | some e =>
    by_cases hkey : e.key.userkey = ikey.userkey
    · rw [Option.filter_some, if_pos (decide_eq_true hkey)]
      cases htype : e.key.type <;> simp [SaveValue, hkey, Entry.result, htype]
    · rw [Option.filter_some, if_neg (by simpa using hkey)]
      simp [SaveValue, hkey]

theorem Ok.found_hit (h : f.Ok) (u : K) (s : ℕ) :
    Mvcc.Found Entry.userkey Entry.tag f.contents u (seekTag s) (f.hit (LookupKey u s)) := by
  unfold hit seek
  cases hfind : f.entries.find? fun e => decide (LookupKey u s ≤ e.key) with
  | none =>
    intro e he hkey
    have hnot := List.find?_eq_none.1 hfind e he
    simp only [decide_eq_true_eq, lookupKey_le_iff] at hnot
    exact Nat.lt_of_not_le fun hle => hnot (Or.inr ⟨hkey.symm, hle⟩)
  | some e =>
    rw [Option.filter_some, userkey_lookupKey]
    obtain ⟨hle, before, after, hsplit, hbefore⟩ := List.find?_eq_some_iff_append.1 hfind
    simp only [decide_eq_true_eq, lookupKey_le_iff] at hle
    have hmem : e ∈ f.entries := List.mem_of_find?_eq_some hfind
    -- An entry of the key that the read may see is not before the key, so it is not before `e`.
    have hfirst : ∀ e' ∈ f.contents, e'.userkey = u → e'.tag ≤ seekTag s → e.key ≤ e'.key := by
      intro e' he' hkey hseek
      have hle' : LookupKey u s ≤ e'.key := lookupKey_le_iff.2 (Or.inr ⟨hkey.symm, hseek⟩)
      have hsorted := h.sorted
      rw [contents, Set.mem_ofPred_eq, hsplit] at he'
      rw [hsplit] at hsorted
      rcases List.mem_append.1 he' with he' | he'
      · exact absurd hle' (by simpa using hbefore e' he')
      · rcases List.mem_cons.1 he' with rfl | he'
        · exact le_rfl
        · exact ((List.pairwise_cons.1 (List.pairwise_append.1 hsorted).2.1).1 e' he').le
    by_cases hkey : e.key.userkey = u
    · rw [if_pos (decide_eq_true hkey)]
      refine ⟨hmem, hkey, ?_, fun e' he' hkey' hseek => ?_⟩
      · exact hle.elim (fun hlt => absurd hkey hlt.ne') And.right
      · have := hfirst e' he' hkey' hseek
        rw [InternalKey.le_iff] at this
        exact this.elim (fun hlt => absurd (hkey.trans hkey'.symm) hlt.ne) And.right
    · rw [if_neg (by simpa using hkey)]
      intro e' he' hkey'
      refine Nat.lt_of_not_le fun hseek => ?_
      have hlt : u < e.key.userkey := hle.elim id fun h => absurd h.1.symm hkey
      have hle' := InternalKey.userkey_le (hfirst e' he' hkey' hseek)
      exact absurd (hkey' ▸ hle') (not_le.2 hlt)

end FileMetaData

namespace Version

def levelContents (v : Version K V) (level : ℕ) : Set (Entry K V) := {e | ∃ f ∈ v.files level, e ∈ f.contents}

def contents (v : Version K V) : Set (Entry K V) := {e | ∃ level, e ∈ v.levelContents level}

variable [LinearOrder K]

/-- The files of the levels below level 0 are in order and do not overlap. -/
structure Sorted (v : Version K V) : Prop where
  ok : ∀ level, ∀ f ∈ v.files level, f.Ok
  disjoint : ∀ level, 0 < level → (v.files level).Pairwise fun f g => f.largest < g.smallest
  numbers : ∀ level, (v.files level).Pairwise fun f g => f.number ≠ g.number
  deepest : ∀ level, kNumLevels ≤ level → v.files level = []

/-- Every level is newer than the ones below it, and in level 0 files with larger numbers are newer. -/
structure Layered (time : Entry K V → ℕ) (v : Version K V) : Prop where
  levels : ∀ level below, level < below →
    Mvcc.Newer Entry.userkey time (v.levelContents level) (v.levelContents below)
  level0 : ∀ f ∈ v.files 0, ∀ g ∈ v.files 0, g.number < f.number → Mvcc.Newer Entry.userkey time f.contents g.contents

omit [LinearOrder K] in
theorem Layered.tag {v : Version K V} (h : v.Layered Entry.sequence) : v.Layered Entry.tag where
  levels level below hlt a ha b hb hkey :=
    InternalKey.tag_lt_of_sequence_lt (h.levels level below hlt a ha b hb hkey)
  level0 f hf g hg hlt a ha b hb hkey := InternalKey.tag_lt_of_sequence_lt (h.level0 f hf g hg hlt a ha b hb hkey)

/-- The entry that a search of the level finds. -/
def levelHit (v : Version K V) (ikey : InternalKey K) (level : ℕ) : Option (Entry K V) :=
  (v.filesToSearch ikey level).findSome? fun f => f.hit ikey

private theorem searchFiles_fst (ikey : InternalKey K) (files : List (FileMetaData K V × ℕ))
    (lastfileread seekFile : Option (FileMetaData K V × ℕ)) :
    (searchFiles ikey files lastfileread seekFile).1 = (files.findSome? fun f => f.1.hit ikey).bind Entry.result := by
  induction files generalizing lastfileread seekFile with
  | nil => rfl
  | cons f files ih =>
    rw [searchFiles, FileMetaData.tableCache_get, List.findSome?_cons]
    cases hhit : f.1.hit ikey with
    | none => exact ih _ _
    | some e => cases hresult : e.result <;> simp [hresult]

private theorem findSome?_levels {α β γ : Type*} (levels : List α) (files : α → List β) (search : β → Option γ) :
    (levels.flatMap files).findSome? search = levels.findSome? fun level => (files level).findSome? search := by
  induction levels with
  | nil => rfl
  | cons level levels ih =>
    rw [List.flatMap_cons, List.findSome?_append, List.findSome?_cons, ih]
    cases (files level).findSome? search <;> rfl

theorem get_eq (v : Version K V) (ikey : InternalKey K) :
    (v.Get ikey).1 = ((List.range kNumLevels).findSome? (v.levelHit ikey)).bind Entry.result := by
  rw [Get, searchFiles_fst, findSome?_levels]
  simp only [List.findSome?_map, Function.comp_def]
  rfl

variable {v : Version K V}

theorem Sorted.eq_of_number (hv : v.Sorted) {level : ℕ} {f g : FileMetaData K V} (hf : f ∈ v.files level)
    (hg : g ∈ v.files level) (h : f.number = g.number) : f = g := by
  by_contra hne
  have : Std.Symm fun f g : FileMetaData K V => f.number ≠ g.number := ⟨fun _ _ h => h.symm⟩
  exact (hv.numbers level).forall hf hg hne h

/-- Different files of a level below level 0 do not overlap. -/
theorem Sorted.apart (hv : v.Sorted) {level : ℕ} (hlevel : 0 < level) {f g : FileMetaData K V}
    (hf : f ∈ v.files level) (hg : g ∈ v.files level) (hne : f ≠ g) : f.Apart g := by
  have hpair : (v.files level).Pairwise FileMetaData.Apart := (hv.disjoint level hlevel).imp Or.inl
  have : Std.Symm fun f g : FileMetaData K V => f.Apart g := ⟨fun _ _ h => h.symm⟩
  exact hpair.forall hf hg hne

theorem Sorted.largest_mono (h : v.Sorted) {level : ℕ} (hlevel : 0 < level) :
    (v.files level).Pairwise fun f g => f.largest ≤ g.largest :=
  (h.disjoint level hlevel).imp_of_mem fun _ hg hlt => hlt.le.trans (h.ok level _ hg).range

theorem findFile_eq (h : v.Sorted) {level : ℕ} (hlevel : 0 < level) (ikey : InternalKey K) :
    (v.files level)[FindFile (v.files level) ikey]? = (v.files level).find? fun f => !decide (f.largest < ikey) := by
  refine Search.getElem?_bisect ((h.largest_mono hlevel).imp fun hle hf => ?_)
  simp only [Bool.not_eq_eq_eq_not, Bool.not_true, decide_eq_false_iff_not, not_lt] at hf ⊢
  exact hf.trans hle

/-- In a sorted level the only file to search is the first one that does not end before the key. -/
private theorem found_sorted {files : List (FileMetaData K V)} (hok : ∀ f ∈ files, f.Ok)
    (hdisjoint : files.Pairwise fun f g => f.largest < g.smallest) (u : K) (s : ℕ) :
    Mvcc.Found Entry.userkey Entry.tag {e | ∃ f ∈ files, e ∈ f.contents} u (seekTag s)
      ((files.find? fun f => !decide (f.largest < LookupKey u s)).bind fun f =>
        if u < f.smallest.userkey then none else f.hit (LookupKey u s)) := by
  cases hfind : files.find? fun f => !decide (f.largest < LookupKey u s) with
  | none =>
    rintro e ⟨f, hf, he⟩ hkey
    have hlt : f.largest < LookupKey u s := by simpa using List.find?_eq_none.1 hfind f hf
    refine Nat.lt_of_not_le fun hseek => ?_
    have hle : LookupKey u s ≤ e.key := lookupKey_le_iff.2 (Or.inr ⟨hkey.symm, hseek⟩)
    exact absurd ((hok f hf).le_largest he) (not_le.2 (lt_of_lt_of_le hlt hle))
  | some f =>
    obtain ⟨hle, before, after, rfl, hbefore⟩ := List.find?_eq_some_iff_append.1 hfind
    simp only [Bool.not_eq_eq_eq_not, Bool.not_true, decide_eq_false_iff_not, not_lt] at hle hbefore
    have hf : f.Ok := hok f (by simp)
    have hafter : ∀ g ∈ after, f.largest < g.smallest :=
      (List.pairwise_cons.1 (List.pairwise_append.1 hdisjoint).2.1).1
    -- What the read may see of the files before `f` would end before the key.
    have hskip : ∀ g ∈ before, ∀ e ∈ g.contents, e.userkey = u → seekTag s < e.tag := by
      intro g hg e he hkey
      have hlt : g.largest < LookupKey u s := by simpa using hbefore g hg
      refine Nat.lt_of_not_le fun hseek => ?_
      have hle : LookupKey u s ≤ e.key := lookupKey_le_iff.2 (Or.inr ⟨hkey.symm, hseek⟩)
      exact absurd ((hok g (by simp [hg])).le_largest he) (not_le.2 (lt_of_lt_of_le hlt hle))
    have hlarger : ∀ g ∈ after, ∀ e ∈ g.contents, f.largest < e.key := fun g hg e he =>
      lt_of_lt_of_le (hafter g hg) ((hok g (by simp [hg])).smallest_le he)
    rw [Option.bind_some]
    split
    · rename_i hsmall
      rintro e ⟨g, hg, he⟩ hkey
      have hnot : ∀ e : Entry K V, f.smallest ≤ e.key → e.userkey ≠ u := fun e hle hkey =>
        absurd (InternalKey.userkey_le hle) (not_le.2 (lt_of_eq_of_lt hkey hsmall))
      rcases List.mem_append.1 hg with hg | hg
      · exact hskip g hg e he hkey
      · rcases List.mem_cons.1 hg with rfl | hg
        · exact absurd hkey (hnot e (hf.smallest_le he))
        · exact absurd hkey (hnot e (hf.range.trans (hlarger g hg e he).le))
    · have hfound := hf.found_hit u s
      cases hhit : f.hit (LookupKey u s) with
      | some e =>
        rw [hhit] at hfound
        refine ⟨⟨f, by simp, hfound.mem⟩, hfound.key_eq, hfound.le, ?_⟩
        rintro e' ⟨g, hg, he'⟩ hkey hseek
        rcases List.mem_append.1 hg with hg | hg
        · exact absurd hseek (Nat.not_le.2 (hskip g hg e' he' hkey))
        · rcases List.mem_cons.1 hg with rfl | hg
          · exact hfound.newest e' he' hkey hseek
          · have hlt := lt_of_le_of_lt (hf.le_largest hfound.mem) (hlarger g hg e' he')
            exact ((InternalKey.lt_iff_tag (hfound.key_eq.trans hkey.symm)).1 hlt).le
      | none =>
        rw [hhit] at hfound
        rintro e ⟨g, hg, he⟩ hkey
        rcases List.mem_append.1 hg with hg | hg
        · exact hskip g hg e he hkey
        · rcases List.mem_cons.1 hg with rfl | hg
          · exact hfound e he hkey
          · -- The last entry of `f` would be an entry of the key that the read may see.
            obtain ⟨last, hlast, hlargest⟩ := hf.exists_largest
            have hlt := InternalKey.userkey_le (hlarger g hg e he).le
            rw [lookupKey_le_iff] at hle
            rcases hle with hle | ⟨hle, hseek⟩
            · exact absurd hkey (lt_of_lt_of_le hle hlt).ne'
            · have := hfound last hlast (by rw [Entry.userkey, hlargest, hle])
              rw [Entry.tag, hlargest] at this
              exact absurd hseek (Nat.not_le.2 this)

private theorem found_level0 (h : v.Sorted) (hlayered : v.Layered Entry.tag) (u : K) (s : ℕ) :
    Mvcc.Found Entry.userkey Entry.tag (v.levelContents 0) u (seekTag s) (v.levelHit (LookupKey u s) 0) := by
  have hmem : ∀ f, f ∈ v.filesToSearch (LookupKey u s) 0 ↔
      f ∈ v.files 0 ∧ f.smallest.userkey ≤ u ∧ u ≤ f.largest.userkey := fun f => by
    rw [filesToSearch, if_pos rfl, List.mem_insertionSort, List.mem_filter]
    exact and_congr_right fun _ => decide_eq_true_iff
  have hnewer : (v.filesToSearch (LookupKey u s) 0).Pairwise fun f g =>
      Mvcc.Newer Entry.userkey Entry.tag f.contents g.contents := by
    have hsorted : (v.filesToSearch (LookupKey u s) 0).Pairwise fun f g => g.number ≤ f.number :=
      List.pairwise_insertionSort _ _
    have hnumbers : (v.filesToSearch (LookupKey u s) 0).Pairwise fun f g => f.number ≠ g.number :=
      ((List.perm_insertionSort _ _).pairwise_iff fun h => h.symm).2
        ((h.numbers 0).sublist List.filter_sublist)
    refine (hsorted.and hnumbers).imp_of_mem fun {f g} hf hg hle => ?_
    exact hlayered.level0 f ((hmem f).1 hf).1 g ((hmem g).1 hg).1 (Nat.lt_of_le_of_ne hle.1 hle.2.symm)
  refine (Mvcc.found_findSome? hnewer fun f hf => (h.ok 0 f ((hmem f).1 hf).1).found_hit u s).of_subset ?_ ?_
  · rintro e ⟨f, hf, he⟩
    exact ⟨f, ((hmem f).1 hf).1, he⟩
  · rintro e ⟨f, hf, he⟩ hkey
    have hrange := (h.ok 0 f hf).userkey_mem he
    rw [hkey] at hrange
    exact ⟨f, (hmem f).2 ⟨hf, hrange⟩, he⟩

theorem found_levelHit (h : v.Sorted) (hlayered : v.Layered Entry.tag) (level : ℕ) (u : K) (s : ℕ) :
    Mvcc.Found Entry.userkey Entry.tag (v.levelContents level) u (seekTag s) (v.levelHit (LookupKey u s) level) := by
  rcases Nat.eq_zero_or_pos level with rfl | hlevel
  · exact found_level0 h hlayered u s
  · have hhit : v.levelHit (LookupKey u s) level =
        ((v.files level).find? fun f => !decide (f.largest < LookupKey u s)).bind fun f =>
          if u < f.smallest.userkey then none else f.hit (LookupKey u s) := by
      rw [levelHit, filesToSearch, if_neg hlevel.ne', findFile_eq h hlevel]
      cases (v.files level).find? fun f => !decide (f.largest < LookupKey u s) with
      | none => rfl
      | some f =>
        by_cases hsmall : u < f.smallest.userkey
        · simp [hsmall]
        · simp [hsmall]
    rw [hhit]
    exact found_sorted (h.ok level) (h.disjoint level hlevel) u s

/-- A read finds the newest entry that it may see. -/
theorem get_reads (h : v.Sorted) (hlayered : v.Layered Entry.tag) (u : K) (s : ℕ) :
    Mvcc.Reads Entry.userkey Entry.tag Entry.result v.contents u (seekTag s) (v.Get (LookupKey u s)).1 := by
  rw [get_eq]
  have hnewer : (List.range kNumLevels).Pairwise fun level below =>
      Mvcc.Newer Entry.userkey Entry.tag (v.levelContents level) (v.levelContents below) :=
    List.pairwise_lt_range.imp fun hlt => hlayered.levels _ _ hlt
  refine Mvcc.Found.reads ((Mvcc.found_findSome? hnewer fun level _ => found_levelHit h hlayered level u s).of_subset
    ?_ ?_)
  · rintro e ⟨level, -, he⟩
    exact ⟨level, he⟩
  · rintro e ⟨level, he⟩ -
    refine ⟨level, List.mem_range.2 (Nat.lt_of_not_le fun hle => ?_), he⟩
    obtain ⟨f, hf, -⟩ := he
    rw [h.deepest level hle] at hf
    exact absurd hf List.not_mem_nil

private theorem eq_of_key_eq {f : FileMetaData K V} (hf : f.Ok) {a b : Entry K V} (ha : a ∈ f.entries)
    (hb : b ∈ f.entries) (hkey : a.key = b.key) : a = b := by
  by_contra hne
  have : Std.Symm fun a b : Entry K V => a.key ≠ b.key := ⟨fun _ _ h => h.symm⟩
  exact (hf.sorted.imp fun hlt => hlt.ne).forall ha hb hne hkey

omit [LinearOrder K] in
private theorem false_of_newer {A B : Set (Entry K V)} (h : Mvcc.Newer Entry.userkey Entry.tag A B) {a b : Entry K V}
    (ha : a ∈ A) (hb : b ∈ B) (hkey : a.userkey = b.userkey) (htag : a.tag = b.tag) : False :=
  absurd (h a ha b hb hkey) (by omega)

/-- No two entries of a version have the same key. -/
theorem distinct (h : v.Sorted) (hlayered : v.Layered Entry.tag) :
    Mvcc.Distinct Entry.userkey Entry.tag v.contents := by
  rintro a ⟨i, f, hf, ha⟩ b ⟨j, g, hg, hb⟩ hkey htag
  rcases Nat.lt_trichotomy i j with hlt | rfl | hlt
  · exact (false_of_newer (hlayered.levels i j hlt) ⟨f, hf, ha⟩ ⟨g, hg, hb⟩ hkey htag).elim
  · have hkeys : a.key = b.key := InternalKey.ext_tag hkey htag
    by_cases hfg : f = g
    · subst hfg
      exact eq_of_key_eq (h.ok i f hf) ha hb hkeys
    · rcases Nat.eq_zero_or_pos i with rfl | hi
      · rcases Nat.lt_trichotomy f.number g.number with hlt | heq | hlt
        · exact (false_of_newer (hlayered.level0 g hg f hf hlt) hb ha hkey.symm htag.symm).elim
        · exact absurd (h.eq_of_number hf hg heq) hfg
        · exact (false_of_newer (hlayered.level0 f hf g hg hlt) ha hb hkey htag).elim
      · have hle := (h.ok i f hf).le_largest ha
        have hle' := (h.ok i g hg).le_largest hb
        have hge := (h.ok i f hf).smallest_le ha
        have hge' := (h.ok i g hg).smallest_le hb
        rcases h.apart hi hf hg hfg with hlt | hlt
        · exact absurd hkeys (lt_of_le_of_lt hle (lt_of_lt_of_le hlt hge')).ne
        · exact absurd hkeys (lt_of_le_of_lt hle' (lt_of_lt_of_le hlt hge)).ne'
  · exact (false_of_newer (hlayered.levels j i hlt) ⟨g, hg, hb⟩ ⟨f, hf, ha⟩ hkey.symm htag.symm).elim

/-- The result of `Get` is the only one a read can have. -/
theorem reads_iff (h : v.Sorted) (hlayered : v.Layered Entry.tag) (u : K) (s : ℕ) (r : Option V) :
    Mvcc.Reads Entry.userkey Entry.tag Entry.result v.contents u (seekTag s) r ↔ (v.Get (LookupKey u s)).1 = r :=
  ⟨fun hr => (get_reads h hlayered u s).unique (distinct h hlayered) hr, fun hr => hr ▸ get_reads h hlayered u s⟩

end Version

end RedisDb
