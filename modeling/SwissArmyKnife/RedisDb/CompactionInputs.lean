import SwissArmyKnife.RedisDb.Compaction
import SwissArmyKnife.RedisDb.VersionReads

/-!
# The inputs of a compaction

What holds of the inputs that `PickCompaction` and `CompactRange` choose in a sorted version (`InputsOk`): in the
upper level, the files left out are newer wherever they share a user key with an input; in the lower level, they share
no user key with an input from the upper level.  They may share a user key with an input from the lower level, but
they lie outside the range of all inputs (`Outside`).
-/

namespace RedisDb

variable {K V : Type*} [LinearOrder K] {v : Version K V}

/-- What a compaction of the level needs of its inputs. -/
structure InputsOk (v : Version K V) (level : ℕ) (inputs0 inputs1 : List (FileMetaData K V)) : Prop where
  nonempty : inputs0 ≠ []
  mem0 : ∀ f ∈ inputs0, f ∈ v.files level
  mem1 : ∀ f ∈ inputs1, f ∈ v.files (level + 1)
  numbers0 : inputs0.Pairwise fun f g => f.number ≠ g.number
  sorted0 : 0 < level → inputs0.Pairwise fun f g => f.largest < g.smallest
  sorted1 : inputs1.Pairwise fun f g => f.largest < g.smallest
  newer0 : ∀ f ∈ v.files level, f ∉ inputs0 → ∀ g ∈ inputs0,
    Mvcc.Newer Entry.userkey Entry.tag f.contents g.contents
  apart1 : ∀ f ∈ v.files (level + 1), f ∉ inputs1 → ∀ g ∈ inputs0,
    f.largest.userkey < g.smallest.userkey ∨ g.largest.userkey < f.smallest.userkey

/-- The files left out of the lower level lie outside the range of all inputs, so no output overlaps them. -/
def Outside (v : Version K V) (level : ℕ) (inputs0 inputs1 : List (FileMetaData K V)) : Prop :=
  ∀ f ∈ v.files (level + 1), f ∉ inputs1 →
    (∀ g ∈ inputs0 ++ inputs1, f.largest < g.smallest) ∨ ∀ g ∈ inputs0 ++ inputs1, g.largest < f.smallest

/-! ### Ranges -/

theorem overlapsRange_eq {userBegin userEnd : Option K} {f : FileMetaData K V} :
    Version.overlapsRange userBegin userEnd f = true ↔
      (∀ u ∈ userBegin, u ≤ f.largest.userkey) ∧ ∀ u ∈ userEnd, f.smallest.userkey ≤ u := by
  cases userBegin <;> cases userEnd <;> simp [Version.overlapsRange]

theorem widens_eq_false {userBegin userEnd : Option K} {f : FileMetaData K V} :
    Version.widens userBegin userEnd f = false ↔
      (∀ u ∈ userBegin, u ≤ f.smallest.userkey) ∧ ∀ u ∈ userEnd, f.largest.userkey ≤ u := by
  cases userBegin <;> cases userEnd <;> simp [Version.widens]

theorem getRange_smallest {inputs : List (FileMetaData K V)} {key : InternalKey K}
    (h : (GetRange inputs).1 = some key) :
    (∃ f ∈ inputs, f.smallest = key) ∧ ∀ f ∈ inputs, key ≤ f.smallest := by
  obtain ⟨hmem, hle⟩ := List.min?_eq_some_iff.1 h
  exact ⟨List.mem_map.1 hmem, fun f hf => hle _ (List.mem_map_of_mem hf)⟩

theorem getRange_largest {inputs : List (FileMetaData K V)} {key : InternalKey K}
    (h : (GetRange inputs).2 = some key) :
    (∃ f ∈ inputs, f.largest = key) ∧ ∀ f ∈ inputs, f.largest ≤ key := by
  obtain ⟨hmem, hle⟩ := List.max?_eq_some_iff.1 h
  exact ⟨List.mem_map.1 hmem, fun f hf => hle _ (List.mem_map_of_mem hf)⟩

theorem exists_getRange {inputs : List (FileMetaData K V)} (h : inputs ≠ []) :
    ∃ smallest largest, GetRange inputs = (some smallest, some largest) := by
  obtain ⟨f, inputs, rfl⟩ := List.exists_cons_of_ne_nil h
  exact ⟨_, _, rfl⟩

/-! ### Files that overlap a range -/

/-- The files of a level below level 0 that overlap a range are a section of the level. -/
theorem overlapping_isInfix (hv : v.Sorted) {level : ℕ} (hlevel : 0 < level) (userBegin userEnd : Option K) :
    (v.files level).filter (Version.overlapsRange userBegin userEnd) <:+: v.files level := by
  unfold Version.overlapsRange
  refine Search.filter_isInfix ?_ ?_
  · refine (hv.largest_mono hlevel).imp fun {f g} hle hf => ?_
    cases userBegin with
    | none => rfl
    | some u =>
      simp only [Option.any_some, Bool.not_eq_eq_eq_not, Bool.not_true, decide_eq_false_iff_not, not_lt] at hf ⊢
      exact hf.trans (InternalKey.userkey_le hle)
  · refine (hv.disjoint level hlevel).imp_of_mem fun {f g} hf _ hlt hg => ?_
    cases userEnd with
    | none => rfl
    | some u =>
      simp only [Option.any_some, Bool.not_eq_eq_eq_not, Bool.not_true, decide_eq_false_iff_not, not_lt] at hg ⊢
      exact (InternalKey.userkey_le ((hv.ok level f hf).range.trans hlt.le)).trans hg

theorem overlapsRange_widened {userBegin userEnd : Option K} {f g : FileMetaData K V}
    (hwidens : Version.widens userBegin userEnd f) (hg : Version.overlapsRange userBegin userEnd g) :
    Version.overlapsRange (Version.widened userBegin userEnd f).1 (Version.widened userBegin userEnd f).2 g := by
  rw [overlapsRange_eq] at hg ⊢
  unfold Version.widened
  split
  · rename_i hlt
    refine ⟨fun u hu => ?_, hg.2⟩
    obtain rfl := Option.mem_some.1 hu
    cases hb : userBegin with
    | none => simp [hb] at hlt
    | some u =>
      simp only [hb, Option.any_some, decide_eq_true_eq] at hlt
      exact hlt.le.trans (hg.1 u hb)
  · rename_i hnot
    refine ⟨hg.1, fun u hu => ?_⟩
    obtain rfl := Option.mem_some.1 hu
    cases he : userEnd with
    | none => simp [Version.widens, he, hnot] at hwidens
    | some u =>
      simp only [Version.widens, he, hnot, Option.any_some, Bool.false_or, decide_eq_true_eq] at hwidens
      exact (hg.2 u he).trans hwidens.le

/-- In level 0 the scan ends with a range that its inputs do not extend. -/
theorem overlappingInputsLevel0_spec (files : List (FileMetaData K V)) (userBegin userEnd : Option K) :
    ∃ b e, Version.overlappingInputsLevel0 files userBegin userEnd = files.filter (Version.overlapsRange b e) ∧
      (∀ f ∈ files, Version.overlapsRange b e f → Version.widens b e f = false) ∧
      ∀ f : FileMetaData K V, Version.overlapsRange userBegin userEnd f → Version.overlapsRange b e f := by
  fun_induction Version.overlappingInputsLevel0 files userBegin userEnd with
  | case1 userBegin userEnd hnone =>
    refine ⟨userBegin, userEnd, rfl, fun f hf hoverlaps => ?_, fun f hf => hf⟩
    simpa [hoverlaps] using List.find?_eq_none.1 hnone f hf
  | case2 userBegin userEnd f hsome ih =>
    obtain ⟨b, e, heq, hclosed, hgrows⟩ := ih
    have hfound := List.find?_some hsome
    simp only [Bool.and_eq_true] at hfound
    exact ⟨b, e, heq, hclosed, fun g hg => hgrows g (overlapsRange_widened hfound.2 hg)⟩

/-- The files with which `SetupOtherInputs` starts: in level 0 all that overlap their range, in another level a
section of the level. -/
structure Picked (v : Version K V) (level : ℕ) (picked : List (FileMetaData K V)) : Prop where
  nonempty : picked ≠ []
  closed : level = 0 → ∃ b e, picked = (v.files 0).filter (Version.overlapsRange b e) ∧
    ∀ f ∈ picked, Version.widens b e f = false
  isInfix : 0 < level → picked <:+: v.files level

theorem picked_overlapping (hv : v.Sorted) (level : ℕ) {begin «end» : Option (InternalKey K)}
    (h : v.GetOverlappingInputs level begin «end» ≠ []) :
    Picked v level (v.GetOverlappingInputs level begin «end») := by
  refine ⟨h, fun hlevel => ?_, fun hlevel => ?_⟩
  · subst hlevel
    obtain ⟨b, e, heq, hclosed, -⟩ :=
      overlappingInputsLevel0_spec (v.files 0) (begin.map InternalKey.userkey) («end».map InternalKey.userkey)
    rw [Version.GetOverlappingInputs, if_pos rfl, heq]
    exact ⟨b, e, rfl, fun f hf => hclosed f (List.mem_filter.1 hf).1 (List.mem_filter.1 hf).2⟩
  · rw [Version.GetOverlappingInputs, if_neg hlevel.ne']
    exact overlapping_isInfix hv hlevel _ _

theorem mem_overlapping {level : ℕ} {begin «end» : Option (InternalKey K)} {f : FileMetaData K V}
    (hf : f ∈ v.files level) (h : Version.overlapsRange (begin.map InternalKey.userkey)
      («end».map InternalKey.userkey) f) : f ∈ v.GetOverlappingInputs level begin «end» := by
  unfold Version.GetOverlappingInputs
  split
  · rename_i hlevel
    subst hlevel
    obtain ⟨b, e, heq, -, hgrows⟩ :=
      overlappingInputsLevel0_spec (v.files 0) (begin.map InternalKey.userkey) («end».map InternalKey.userkey)
    rw [heq]
    exact List.mem_filter.2 ⟨hf, hgrows f h⟩
  · exact List.mem_filter.2 ⟨hf, h⟩

/-! ### Boundary files -/

theorem findSmallestBoundaryFile_none {levelfiles : List (FileMetaData K V)} {largestkey : InternalKey K}
    (h : findSmallestBoundaryFile levelfiles largestkey = none) {f : FileMetaData K V} (hf : f ∈ levelfiles)
    (hlt : largestkey < f.smallest) : largestkey.userkey < f.smallest.userkey := by
  refine lt_of_le_of_ne (InternalKey.userkey_le hlt.le) fun heq => ?_
  have hnil := List.argmin_eq_none.1 h
  exact absurd (List.mem_filter.2 ⟨hf, decide_eq_true ⟨hlt, heq.symm⟩⟩) (List.eq_nil_iff_forall_not_mem.1 hnil f)

theorem findSmallestBoundaryFile_some {levelfiles : List (FileMetaData K V)} {largestkey : InternalKey K}
    {f : FileMetaData K V} (h : findSmallestBoundaryFile levelfiles largestkey = some f) :
    f ∈ levelfiles ∧ largestkey < f.smallest ∧ f.smallest.userkey = largestkey.userkey ∧
      ∀ g ∈ levelfiles, largestkey < g.smallest → g.smallest.userkey = largestkey.userkey →
        f.smallest ≤ g.smallest := by
  have hmem := List.mem_filter.1 (List.argmin_mem (Option.mem_def.2 h))
  obtain ⟨hlt, hkey⟩ := of_decide_eq_true hmem.2
  refine ⟨hmem.1, hlt, hkey, fun g hg hglt hgkey => ?_⟩
  exact List.le_of_mem_argmin (List.mem_filter.2 ⟨hg, decide_eq_true ⟨hglt, hgkey⟩⟩) (Option.mem_def.2 h)

/-- In a sorted level the boundary file is the next one. -/
private theorem boundary_next {pre files post : List (FileMetaData K V)} {largestkey : InternalKey K}
    {f : FileMetaData K V} (hok : ∀ g ∈ pre ++ files ++ post, g.Ok)
    (hdisjoint : (pre ++ files ++ post).Pairwise fun g h => g.largest < h.smallest)
    (hmax : ∀ g ∈ files, g.largest ≤ largestkey) (hmem : ∃ g ∈ files, g.largest = largestkey)
    (h : findSmallestBoundaryFile (pre ++ files ++ post) largestkey = some f) : ∃ post', post = f :: post' := by
  obtain ⟨hf, hlt, hkey, hleast⟩ := findSmallestBoundaryFile_some h
  obtain ⟨hfiles, hpost, hcross⟩ := List.pairwise_append.1 hdisjoint
  obtain ⟨last, hlast, rfl⟩ := hmem
  rcases List.mem_append.1 hf with hf | hf
  · refine absurd hlt (not_lt.2 ?_)
    rcases List.mem_append.1 hf with hpre | hin
    · exact ((hok f (by simp [hpre])).range.trans ((List.pairwise_append.1 hfiles).2.2 f hpre last hlast).le).trans
        (hok last (by simp [hlast])).range
    · exact (hok f (by simp [hin])).range.trans (hmax f hin)
  · cases post with
    | nil => exact absurd hf List.not_mem_nil
    | cons g post' =>
      rcases List.mem_cons.1 hf with rfl | hf
      · exact ⟨post', rfl⟩
      · have hglt : last.largest < g.smallest := hcross last (by simp [hlast]) g (List.mem_cons_self ..)
        have hgf : g.largest < f.smallest := (List.pairwise_cons.1 hpost).1 f hf
        have hg : g.Ok := hok g (by simp)
        have hgkey : g.smallest.userkey = last.largest.userkey := by
          refine le_antisymm ?_ (InternalKey.userkey_le hglt.le)
          exact (InternalKey.userkey_le (hg.range.trans hgf.le)).trans hkey.le
        have hle := hleast g (by simp) hglt hgkey
        exact absurd (lt_of_le_of_lt hg.range hgf) (not_lt.2 hle)

private theorem addBoundaryFiles_spec {levelfiles files : List (FileMetaData K V)} {largestkey : InternalKey K}
    (hok : ∀ g ∈ levelfiles, g.Ok) (hdisjoint : levelfiles.Pairwise fun g h => g.largest < h.smallest)
    (hmax : ∀ g ∈ files, g.largest ≤ largestkey) (hmem : ∃ g ∈ files, g.largest = largestkey)
    (hsection : files <:+: levelfiles) :
    files <+: addBoundaryFiles levelfiles files largestkey ∧
      ∃ pre post, levelfiles = pre ++ addBoundaryFiles levelfiles files largestkey ++ post ∧
        ∀ f ∈ post, ∀ g ∈ addBoundaryFiles levelfiles files largestkey, g.largest.userkey < f.smallest.userkey := by
  fun_induction addBoundaryFiles levelfiles files largestkey with
  | case1 files largestkey hnone =>
    refine ⟨List.prefix_rfl, ?_⟩
    obtain ⟨pre, post, hlevel⟩ := hsection
    refine ⟨pre, post, hlevel.symm, fun f hf g hg => ?_⟩
    obtain ⟨last, hlast, rfl⟩ := hmem
    rw [← hlevel] at hdisjoint hnone
    have hlt := (List.pairwise_append.1 hdisjoint).2.2 last (by simp [hlast]) f hf
    exact lt_of_le_of_lt (InternalKey.userkey_le (hmax g hg))
      (findSmallestBoundaryFile_none hnone (by simp [hf]) hlt)
  | case2 files largestkey f hsome hrange ih =>
    obtain ⟨pre, post, hlevel⟩ := hsection
    obtain ⟨post', hpost⟩ : ∃ post', post = f :: post' := by
      rw [← hlevel] at hok hdisjoint hsome
      exact boundary_next hok hdisjoint hmax hmem hsome
    have hlt := (findSmallestBoundaryFile_some hsome).2.1
    obtain ⟨hstart, hspec⟩ := ih
      (fun g hg => by
        rcases List.mem_append.1 hg with hg | hg
        · exact (hmax g hg).trans (hlt.le.trans hrange)
        · exact (List.mem_singleton.1 hg ▸ le_rfl))
      ⟨f, by simp, rfl⟩ ⟨pre, post', by rw [← hlevel, hpost]; simp⟩
    exact ⟨(List.prefix_append ..).trans hstart, hspec⟩
  | case3 files largestkey f hsome hnot => exact absurd (hok f (findSmallestBoundaryFile_some hsome).1).range hnot

/-- What `addBoundaryInputs` makes of the picked files. -/
structure Bounded (v : Version K V) (level : ℕ) (inputs0 : List (FileMetaData K V)) : Prop extends
    Picked v level inputs0 where
  boundary : 0 < level → ∃ pre post, v.files level = pre ++ inputs0 ++ post ∧
    ∀ f ∈ post, ∀ g ∈ inputs0, g.largest.userkey < f.smallest.userkey

private theorem findLargestKey_spec {files : List (FileMetaData K V)} (h : files ≠ []) :
    ∃ largestkey, findLargestKey files = some largestkey ∧ (∀ g ∈ files, g.largest ≤ largestkey) ∧
      ∃ g ∈ files, g.largest = largestkey := by
  obtain ⟨smallest, largest, hrange⟩ := exists_getRange h
  have hlargest : (GetRange files).2 = some largest := by rw [hrange]
  exact ⟨largest, hlargest, (getRange_largest hlargest).2, (getRange_largest hlargest).1⟩

/-- In level 0 there is no boundary file, as the picked files contain all that overlap them. -/
private theorem addBoundaryInputs_level0 (hv : v.Sorted) {picked : List (FileMetaData K V)} (h : Picked v 0 picked) :
    addBoundaryInputs (v.files 0) picked = picked := by
  obtain ⟨largestkey, hlargest, hmax, last, hlast, hkey⟩ := findLargestKey_spec h.nonempty
  obtain ⟨b, e, hpicked, hclosed⟩ := h.closed rfl
  simp only [addBoundaryInputs, hlargest]
  rw [addBoundaryFiles]
  split
  · rfl
  · rename_i f hsome
    obtain ⟨hf, hlt, huser, -⟩ := findSmallestBoundaryFile_some hsome
    have hrange := (hv.ok 0 f hf).range
    have hlast' := widens_eq_false.1 (hclosed last hlast)
    rw [hpicked] at hlast
    obtain ⟨hlastmem, hlastoverlaps⟩ := List.mem_filter.1 hlast
    have hoverlaps : f ∈ picked := by
      rw [hpicked]
      refine List.mem_filter.2 ⟨hf, overlapsRange_eq.2 ⟨fun u hu => ?_, fun u hu => ?_⟩⟩
      · calc u ≤ last.largest.userkey := (overlapsRange_eq.1 hlastoverlaps).1 u hu
          _ = f.smallest.userkey := by rw [hkey, huser]
          _ ≤ f.largest.userkey := InternalKey.userkey_le hrange
      · calc f.smallest.userkey = last.largest.userkey := by rw [hkey, huser]
          _ ≤ u := hlast'.2 u hu
    exact absurd (hlt.trans_le hrange) (not_lt.2 (hmax f hoverlaps))

theorem bounded_addBoundaryInputs (hv : v.Sorted) {level : ℕ} {picked : List (FileMetaData K V)}
    (h : Picked v level picked) :
    Bounded v level (addBoundaryInputs (v.files level) picked) ∧
    picked <+: addBoundaryInputs (v.files level) picked := by
  rcases Nat.eq_zero_or_pos level with rfl | hlevel
  · rw [addBoundaryInputs_level0 hv h]
    exact ⟨⟨h, fun hlt => absurd hlt (Nat.lt_irrefl 0)⟩, List.prefix_rfl⟩
  · obtain ⟨largestkey, hlargest, hmax, hmem⟩ := findLargestKey_spec h.nonempty
    obtain ⟨hstart, pre, post, hfiles, hpost⟩ :=
      addBoundaryFiles_spec (hv.ok level) (hv.disjoint level hlevel) hmax hmem (h.isInfix hlevel)
    have heq : addBoundaryInputs (v.files level) picked = addBoundaryFiles (v.files level) picked largestkey := by
      simp only [addBoundaryInputs, hlargest]
    rw [heq]
    refine ⟨⟨⟨fun hnil => h.nonempty ?_, fun hzero => absurd hzero hlevel.ne', fun _ => ?_⟩, fun _ => ?_⟩, hstart⟩
    · rw [hnil] at hstart
      exact List.prefix_nil.1 hstart
    · exact ⟨pre, post, hfiles.symm⟩
    · exact ⟨pre, post, hfiles, hpost⟩

/-! ### All inputs -/

theorem mem_otherInputs {level : ℕ} {inputs0 : List (FileMetaData K V)} {smallest largest : InternalKey K}
    (hrange : GetRange inputs0 = (some smallest, some largest)) {f : FileMetaData K V} :
    f ∈ VersionSet.otherInputs v level inputs0 ↔ f ∈ v.files (level + 1) ∧
      smallest.userkey ≤ f.largest.userkey ∧ f.smallest.userkey ≤ largest.userkey := by
  simp only [VersionSet.otherInputs, hrange, Version.GetOverlappingInputs,
    Nat.add_eq_zero_iff, one_ne_zero, and_false,
    if_false, List.mem_filter, overlapsRange_eq, Option.map_some, Option.mem_some, forall_eq']

private theorem userkey_ne_of_outside {b e : Option K} {f g : FileMetaData K V} (hf : f.Ok) (hg : g.Ok)
    (hout : ¬ Version.overlapsRange b e f) (hwidens : Version.widens b e g = false) {x y : Entry K V}
    (hx : x ∈ f.contents) (hy : y ∈ g.contents) :
    x.userkey ≠ y.userkey := by
  intro hkey
  rw [widens_eq_false] at hwidens
  refine hout (overlapsRange_eq.2 ⟨fun u hu => ?_, fun u hu => ?_⟩)
  · exact (hwidens.1 u hu).trans ((hg.userkey_mem hy).1.trans (hkey ▸ (hf.userkey_mem hx).2))
  · exact ((hf.userkey_mem hx).1.trans (hkey ▸ (hg.userkey_mem hy).2)).trans (hwidens.2 u hu)

/-- The files of the level that are left out are newer than the inputs, or share no user key with them. -/
theorem Bounded.newer (hv : v.Sorted) {level : ℕ} {inputs0 : List (FileMetaData K V)} (h : Bounded v level inputs0)
    {f : FileMetaData K V} (hf : f ∈ v.files level) (hleft : f ∉ inputs0) {g : FileMetaData K V} (hg : g ∈ inputs0) :
    Mvcc.Newer Entry.userkey Entry.tag f.contents g.contents := by
  intro x hx y hy hkey
  rcases Nat.eq_zero_or_pos level with rfl | hlevel
  · obtain ⟨b, e, rfl, hclosed⟩ := h.closed rfl
    have hout : ¬ Version.overlapsRange b e f := fun hoverlaps => hleft (List.mem_filter.2 ⟨hf, hoverlaps⟩)
    obtain ⟨hgmem, -⟩ := List.mem_filter.1 hg
    exact absurd hkey (userkey_ne_of_outside (hv.ok 0 f hf) (hv.ok 0 g hgmem) hout (hclosed g hg) hx hy)
  · obtain ⟨pre, post, hfiles, hpost⟩ := h.boundary hlevel
    have hdisjoint := hv.disjoint level hlevel
    have hok := hv.ok level
    rw [hfiles] at hf hdisjoint hok
    have hgok : g.Ok := hok g (by simp [hg])
    rcases List.mem_append.1 hf with hf | hf
    · rcases List.mem_append.1 hf with hf | hf
      · have hlt := (List.pairwise_append.1 (List.pairwise_append.1 hdisjoint).1).2.2 f hf g hg
        have hxy : x.key < y.key :=
          lt_of_le_of_lt ((hok f (by simp [hf])).le_largest hx) (lt_of_lt_of_le hlt (hgok.smallest_le hy))
        exact (InternalKey.lt_iff_tag hkey).1 hxy
      · exact absurd hf hleft
    · have hlt := hpost f hf g hg
      have hxy : y.userkey < x.userkey := lt_of_le_of_lt (hgok.userkey_mem hy).2
        (lt_of_lt_of_le hlt ((hok f (by simp [hf])).userkey_mem hx).1)
      exact absurd hkey hxy.ne'

/-- A file left out of the next level ends before the range of the inputs, or begins after it. -/
private theorem left_outside {level : ℕ} {inputs0 : List (FileMetaData K V)} {smallest largest : InternalKey K}
    (hrange : GetRange inputs0 = (some smallest, some largest)) {f : FileMetaData K V} (hf : f ∈ v.files (level + 1))
    (hout : f ∉ VersionSet.otherInputs v level inputs0) :
    f.largest.userkey < smallest.userkey ∨ largest.userkey < f.smallest.userkey := by
  rw [mem_otherInputs hrange] at hout
  by_contra hnot
  rw [not_or, not_lt, not_lt] at hnot
  exact hout ⟨hf, hnot.1, hnot.2⟩

theorem Bounded.inputsOk (hv : v.Sorted) {level : ℕ} {inputs0 : List (FileMetaData K V)}
    (h : Bounded v level inputs0) :
    InputsOk v level inputs0 (VersionSet.otherInputs v level inputs0) := by
  obtain ⟨smallest, largest, hrange⟩ := exists_getRange h.nonempty
  have hsmallest := (getRange_smallest (show (GetRange inputs0).1 = some smallest by rw [hrange])).2
  have hlargest := (getRange_largest (show (GetRange inputs0).2 = some largest by rw [hrange])).2
  have hmem0 : ∀ f ∈ inputs0, f ∈ v.files level := by
    intro f hf
    rcases Nat.eq_zero_or_pos level with rfl | hlevel
    · obtain ⟨b, e, rfl, -⟩ := h.closed rfl
      exact (List.mem_filter.1 hf).1
    · exact (h.isInfix hlevel).subset hf
  refine ⟨h.nonempty, hmem0, fun f hf => ((mem_otherInputs hrange).1 hf).1, ?_, fun hlevel => ?_, ?_,
    fun f hf hout g hg => h.newer hv hf hout hg, fun f hf hout g hg => ?_⟩
  · rcases Nat.eq_zero_or_pos level with rfl | hlevel
    · obtain ⟨b, e, rfl, -⟩ := h.closed rfl
      exact (hv.numbers 0).sublist List.filter_sublist
    · exact (hv.numbers level).sublist (h.isInfix hlevel).sublist
  · exact (hv.disjoint level hlevel).sublist (h.isInfix hlevel).sublist
  · rw [VersionSet.otherInputs, Version.GetOverlappingInputs, if_neg (Nat.succ_ne_zero level)]
    exact (hv.disjoint (level + 1) (Nat.succ_pos level)).sublist List.filter_sublist
  · rcases left_outside hrange hf hout with hlt | hlt
    · exact Or.inl (lt_of_lt_of_le hlt (InternalKey.userkey_le (hsmallest g hg)))
    · exact Or.inr (lt_of_le_of_lt (InternalKey.userkey_le (hlargest g hg)) hlt)

theorem Bounded.outside (hv : v.Sorted) {level : ℕ} {inputs0 : List (FileMetaData K V)}
    (h : Bounded v level inputs0) :
    Outside v level inputs0 (VersionSet.otherInputs v level inputs0) := by
  intro f hf hout
  obtain ⟨smallest, largest, hrange⟩ := exists_getRange h.nonempty
  have hsmallest := (getRange_smallest (show (GetRange inputs0).1 = some smallest by rw [hrange])).2
  have hlargest := (getRange_largest (show (GetRange inputs0).2 = some largest by rw [hrange])).2
  rcases left_outside hrange hf hout with hlt | hlt
  · refine Or.inl fun g hg => ?_
    rcases List.mem_append.1 hg with hg | hg
    · exact InternalKey.lt_of_userkey_lt (lt_of_lt_of_le hlt (InternalKey.userkey_le (hsmallest g hg)))
    · obtain ⟨hgmem, hgle, -⟩ := (mem_otherInputs hrange).1 hg
      refine (hv.apart (Nat.succ_pos level) hf hgmem fun heq => hout (heq ▸ hg)).resolve_right fun hgt => ?_
      have hle := InternalKey.userkey_le (hgt.le.trans (hv.ok _ f hf).range)
      exact absurd (lt_of_le_of_lt hle hlt) (not_lt.2 hgle)
  · refine Or.inr fun g hg => ?_
    rcases List.mem_append.1 hg with hg | hg
    · exact InternalKey.lt_of_userkey_lt (lt_of_le_of_lt (InternalKey.userkey_le (hlargest g hg)) hlt)
    · obtain ⟨hgmem, -, hgle⟩ := (mem_otherInputs hrange).1 hg
      refine (hv.apart (Nat.succ_pos level) hf hgmem fun heq => hout (heq ▸ hg)).resolve_left fun hgt => ?_
      have hle := InternalKey.userkey_le ((hv.ok _ f hf).range.trans hgt.le)
      exact absurd (lt_of_lt_of_le hlt hle) (not_lt.2 hgle)

/-- Growing the inputs keeps what they satisfy. -/
theorem expandInputs_bounded (hv : v.Sorted) (options : Options) {level : ℕ} {inputs0 : List (FileMetaData K V)}
    (h : Bounded v level inputs0) :
    let inputs := VersionSet.expandInputs options v level inputs0 (VersionSet.otherInputs v level inputs0)
    Bounded v level inputs.1 ∧ inputs.2 = VersionSet.otherInputs v level inputs.1 := by
  simp only [VersionSet.expandInputs]
  split
  · exact ⟨h, rfl⟩
  · split
    · rename_i hgrown
      split
      · refine ⟨(bounded_addBoundaryInputs hv (picked_overlapping hv level fun hnil => ?_)).1, rfl⟩
        -- More files than before are some files.
        rw [hnil] at hgrown
        exact absurd hgrown.1 (Nat.not_lt_zero _)
      · exact ⟨h, rfl⟩
    · exact ⟨h, rfl⟩

theorem setupOtherInputs_ok (hv : v.Sorted) (options : Options) {level : ℕ} {picked : List (FileMetaData K V)}
    (h : Picked v level picked) :
    InputsOk v level (VersionSet.SetupOtherInputs options v level picked).1.inputs0
        (VersionSet.SetupOtherInputs options v level picked).1.inputs1 ∧
      Outside v level (VersionSet.SetupOtherInputs options v level picked).1.inputs0
        (VersionSet.SetupOtherInputs options v level picked).1.inputs1 := by
  obtain ⟨hbounded, hother⟩ := expandInputs_bounded hv options (bounded_addBoundaryInputs hv h).1
  have hok := hbounded.inputsOk hv
  have houtside := hbounded.outside hv
  rw [← hother] at hok houtside
  exact ⟨hok, houtside⟩

/-! ### The two ways to choose inputs -/

/-- The compaction comes from `SetupOtherInputs`. -/
def SetUp (options : Options) (v : Version K V) (c : Compaction K V) : Prop :=
  ∃ level picked, level + 1 < kNumLevels ∧ Picked v level picked ∧
    c = (VersionSet.SetupOtherInputs options v level picked).1

/-- The file to compact because of its seeks is a file of its level, and there is a level below it. -/
def SeekOk (v : Version K V) : Prop := ∀ p ∈ v.filetocompact, p.1 ∈ v.files p.2 ∧ p.2 + 1 < kNumLevels

omit [LinearOrder K] in
private theorem finalize_level {best : Option ℕ × ℚ} {levels : List ℕ} {level : ℕ}
    (h : (levels.foldl (fun best level => if best.2 < v.score level then (some level, v.score level) else best)
      best).1 = some level) : level ∈ levels ∨ best.1 = some level := by
  induction levels generalizing best with
  | nil => exact Or.inr h
  | cons l levels ih =>
    rcases ih h with hmem | hbest
    · exact Or.inl (List.mem_cons_of_mem _ hmem)
    · simp only at hbest
      split at hbest
      · obtain rfl := Option.some.inj hbest
        exact Or.inl (List.mem_cons_self ..)
      · exact Or.inr hbest

theorem seedInput_mem (hseek : SeekOk v) {compactPointer : ℕ → Option (InternalKey K)}
    {f : FileMetaData K V} {level : ℕ} (h : VersionSet.seedInput v compactPointer = some (f, level)) :
    f ∈ v.files level ∧ level + 1 < kNumLevels := by
  simp only [VersionSet.seedInput] at h
  split at h
  · obtain ⟨l, hl, hfirst⟩ := Option.bind_eq_some_iff.1 h
    obtain ⟨g, hg, heq⟩ := Option.map_eq_some_iff.1 hfirst
    simp only [Prod.mk.injEq] at heq
    obtain ⟨rfl, rfl⟩ := heq
    refine ⟨?_, ?_⟩
    · rcases Option.or_eq_some_iff.1 hg with hfind | ⟨-, hhead⟩
      · exact List.mem_of_find?_eq_some hfind
      · exact List.mem_of_mem_head? hhead
    · have hrange := (finalize_level hl).resolve_right (by simp)
      have := List.mem_range.1 hrange
      unfold kNumLevels at this ⊢
      omega
  · exact hseek _ h

theorem picked_pickedInputs (hv : v.Sorted) {level : ℕ} {f : FileMetaData K V} (hf : f ∈ v.files level) :
    Picked v level (VersionSet.pickedInputs v level f) := by
  rcases Nat.eq_zero_or_pos level with rfl | hlevel
  · have hmem : f ∈ v.GetOverlappingInputs 0 (some f.smallest) (some f.largest) := by
      have hrange := InternalKey.userkey_le (hv.ok 0 f hf).range
      exact mem_overlapping hf (overlapsRange_eq.2 ⟨by simpa using hrange, by simpa using hrange⟩)
    exact picked_overlapping hv 0 (List.ne_nil_of_mem hmem)
  · rw [VersionSet.pickedInputs, if_neg hlevel.ne']
    refine ⟨List.cons_ne_nil _ _, fun hzero => absurd hzero hlevel.ne', fun _ => ?_⟩
    obtain ⟨pre, post, hfiles⟩ := List.append_of_mem hf
    exact ⟨pre, post, by simp [hfiles]⟩

theorem pickCompaction_setUp (hv : v.Sorted) (hseek : SeekOk v) {options : Options}
    {compactPointer : ℕ → Option (InternalKey K)} {c : Compaction K V} {next : Option (InternalKey K)}
    (h : VersionSet.PickCompaction options v compactPointer = some (c, next)) : SetUp options v c := by
  obtain ⟨⟨f, level⟩, hseed, hc⟩ := Option.map_eq_some_iff.1 h
  obtain ⟨hf, hlevel⟩ := seedInput_mem hseek hseed
  exact ⟨level, _, hlevel, picked_pickedInputs hv hf, (congrArg Prod.fst hc).symm⟩

omit [LinearOrder K] in
private theorem truncateInputs_start (limit total : ℕ) (inputs : List (FileMetaData K V)) :
    VersionSet.truncateInputs limit total inputs <+: inputs ∧
      (inputs ≠ [] → VersionSet.truncateInputs limit total inputs ≠ []) := by
  induction inputs generalizing total with
  | nil => exact ⟨List.prefix_rfl, id⟩
  | cons f inputs ih =>
    rw [VersionSet.truncateInputs]
    split
    · exact ⟨⟨inputs, rfl⟩, fun _ => List.cons_ne_nil _ _⟩
    · exact ⟨(List.prefix_cons_inj f).2 (ih _).1, fun _ => List.cons_ne_nil _ _⟩

theorem compactRange_setUp (hv : v.Sorted) {options : Options} {level : ℕ} (hlevel : level + 1 < kNumLevels)
    {begin «end» : Option (InternalKey K)} {c : Compaction K V} {next : Option (InternalKey K)}
    (h : VersionSet.CompactRange options v level begin «end» = some (c, next)) : SetUp options v c := by
  simp only [VersionSet.CompactRange] at h
  split at h
  · simp at h
  · rename_i hnonempty
    have hnonempty : v.GetOverlappingInputs level begin «end» ≠ [] := by simpa using hnonempty
    have hpicked := picked_overlapping hv level hnonempty
    refine ⟨level, _, hlevel, ?_, (congrArg Prod.fst (Option.some.inj h)).symm⟩
    split
    · rename_i hpos
      obtain ⟨hstart, hne⟩ := truncateInputs_start (MaxFileSizeForLevel options level) 0
        (v.GetOverlappingInputs level begin «end»)
      exact ⟨hne hnonempty, fun hzero => absurd hzero hpos.ne',
        fun hpos => hstart.isInfix.trans (hpicked.isInfix hpos)⟩
    · exact hpicked

theorem SetUp.inputsOk (hv : v.Sorted) {options : Options} {c : Compaction K V} (h : SetUp options v c) :
    c.level + 1 < kNumLevels ∧ c.inputversion = v ∧ c.levelptrs = (fun _ => 0) ∧
      InputsOk v c.level c.inputs0 c.inputs1 := by
  obtain ⟨level, picked, hlevel, hpicked, rfl⟩ := h
  exact ⟨hlevel, rfl, rfl, (setupOtherInputs_ok hv options hpicked).1⟩

theorem SetUp.outside (hv : v.Sorted) {options : Options} {c : Compaction K V} (h : SetUp options v c) :
    Outside v c.level c.inputs0 c.inputs1 := by
  obtain ⟨level, picked, hlevel, hpicked, rfl⟩ := h
  exact (setupOtherInputs_ok hv options hpicked).2

end RedisDb
