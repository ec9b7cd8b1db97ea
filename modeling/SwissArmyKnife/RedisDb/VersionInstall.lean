import Mathlib.Data.List.Chain
import Mathlib.Data.List.Induction
import Mathlib.Data.Prod.Lex
import SwissArmyKnife.RedisDb.VersionBuilder
import SwissArmyKnife.RedisDb.VersionReads

/-!
# Installing an edit

The version that `LogAndApply` makes has the files of the current version that the edit does not delete, and the files
that it adds (`mem_logAndApply`).  It is sorted again, as the assertion of the builder holds, and the assertion holds
when no two of these files overlap in a level below level 0.
-/

namespace RedisDb

variable {K V : Type*} [LinearOrder K]

/-! ### The set of added files -/

/-- What the added files are ordered by. -/
def FileMetaData.orderKey (f : FileMetaData K V) : InternalKey K ×ₗ ℕ := toLex (f.smallest, f.number)

theorem bySmallestKey_eq_true {f g : FileMetaData K V} : BySmallestKey f g = true ↔ f.orderKey < g.orderKey := by
  simp [BySmallestKey, FileMetaData.orderKey, Prod.Lex.toLex_lt_toLex]

theorem bySmallestKey_eq_false {f g : FileMetaData K V} : BySmallestKey f g = false ↔ g.orderKey ≤ f.orderKey := by
  rw [← Bool.not_eq_true, bySmallestKey_eq_true, not_lt]

theorem smallest_le_of_orderKey_le {f g : FileMetaData K V} (h : f.orderKey ≤ g.orderKey) :
    f.smallest ≤ g.smallest := by
  rcases Prod.Lex.toLex_le_toLex.1 h with h | h
  · exact h.le
  · exact h.1.le

omit [LinearOrder K] in
private theorem number_eq_of_orderKey_eq {f g : FileMetaData K V} (h : f.orderKey = g.orderKey) :
    f.number = g.number :=
  congrArg (fun k => (ofLex k).2) h

theorem fileSet_insert_perm {f : FileMetaData K V} {files : List (FileMetaData K V)}
    (h : ∀ g ∈ files, f.number ≠ g.number) : (FileSet.insert f files).Perm (f :: files) := by
  induction files with
  | nil => rfl
  | cons g files ih =>
    rw [FileSet.insert]
    split
    · rfl
    · rename_i hfg
      split
      · exact ((ih fun g' hg' => h g' (List.mem_cons_of_mem _ hg')).cons g).trans (List.Perm.swap f g files)
      · rename_i hgf
        rw [Bool.not_eq_true, bySmallestKey_eq_false] at hfg hgf
        exact absurd (number_eq_of_orderKey_eq (le_antisymm hgf hfg)) (h g (List.mem_cons_self ..))

theorem fileSet_insert_sorted {f : FileMetaData K V} {files : List (FileMetaData K V)}
    (hnumbers : ∀ g ∈ files, f.number ≠ g.number) (h : Merge.Sorted FileMetaData.orderKey files) :
    Merge.Sorted FileMetaData.orderKey (FileSet.insert f files) := by
  induction files with
  | nil => exact List.pairwise_singleton ..
  | cons g files ih =>
    obtain ⟨hg, hfiles⟩ := List.pairwise_cons.1 h
    rw [FileSet.insert]
    split
    · rename_i hfg
      refine List.pairwise_cons.2 ⟨fun g' hg' => ?_, h⟩
      have hle := (bySmallestKey_eq_true.1 hfg).le
      rcases List.mem_cons.1 hg' with rfl | hg'
      · exact hle
      · exact hle.trans (hg g' hg')
    · rename_i hfg
      have hrest : ∀ g' ∈ files, f.number ≠ g'.number := fun g' hg' => hnumbers g' (List.mem_cons_of_mem _ hg')
      split
      · refine List.pairwise_cons.2 ⟨fun g' hg' => ?_, ih hrest hfiles⟩
        rcases List.mem_cons.1 ((fileSet_insert_perm hrest).mem_iff.1 hg') with rfl | hg'
        · exact bySmallestKey_eq_false.1 (by simpa using hfg)
        · exact hg g' hg'
      · exact h

/-! ### Applying an edit -/

namespace Builder

/-- The files that the list adds to a level. -/
def addedTo (level : ℕ) (newfiles : List (ℕ × FileMetaData K V)) : List (FileMetaData K V) :=
  (newfiles.filter fun p => p.1 = level).map Prod.snd

omit [LinearOrder K] in
theorem mem_addedTo {level : ℕ} {newfiles : List (ℕ × FileMetaData K V)} {f : FileMetaData K V} :
    f ∈ addedTo level newfiles ↔ (level, f) ∈ newfiles := by
  simp [addedTo]

omit [LinearOrder K] in
theorem base_deleteFiles (files : List (ℕ × ℕ)) (b : Builder K V) :
    (files.foldl deleteFile b).base = b.base := by
  induction files generalizing b with
  | nil => rfl
  | cons p files ih => exact ih _

theorem base_addFiles (newfiles : List (ℕ × FileMetaData K V)) (b : Builder K V) :
    (newfiles.foldl addFile b).base = b.base := by
  induction newfiles generalizing b with
  | nil => rfl
  | cons p newfiles ih => exact ih _

omit [LinearOrder K] in
theorem levels_deleteFiles (files : List (ℕ × ℕ)) (b : Builder K V) (level : ℕ) :
    ((files.foldl deleteFile b).levels level).addedFiles = (b.levels level).addedFiles ∧
      ∀ number, number ∈ ((files.foldl deleteFile b).levels level).deletedfiles ↔
        (level, number) ∈ files ∨ number ∈ (b.levels level).deletedfiles := by
  induction files generalizing b with
  | nil => simp
  | cons p files ih =>
    obtain ⟨hadded, hdeleted⟩ := ih (b.deleteFile p)
    refine ⟨?_, fun number => ?_⟩
    · rw [List.foldl_cons, hadded]
      by_cases hp : level = p.1
      · subst hp
        simp [deleteFile]
      · simp [deleteFile, Function.update_of_ne hp]
    · rw [List.foldl_cons, hdeleted, List.mem_cons]
      by_cases hp : level = p.1
      · subst hp
        simp only [deleteFile, Function.update_self, List.mem_cons, Prod.ext_iff, true_and]
        tauto
      · simp [deleteFile, Prod.ext_iff, hp]

theorem levels_addFiles (level : ℕ) {newfiles : List (ℕ × FileMetaData K V)} {b : Builder K V}
    (hdistinct : (addedTo level newfiles).Pairwise fun f g => f.number ≠ g.number)
    (hnumbers : ∀ f ∈ addedTo level newfiles, ∀ g ∈ (b.levels level).addedFiles, f.number ≠ g.number)
    (hsorted : Merge.Sorted FileMetaData.orderKey (b.levels level).addedFiles) :
    ((newfiles.foldl addFile b).levels level).addedFiles.Perm
        ((b.levels level).addedFiles ++ addedTo level newfiles) ∧
      Merge.Sorted FileMetaData.orderKey ((newfiles.foldl addFile b).levels level).addedFiles ∧
      ∀ number, number ∈ ((newfiles.foldl addFile b).levels level).deletedfiles ↔
        number ∈ (b.levels level).deletedfiles ∧ ∀ f ∈ addedTo level newfiles, number ≠ f.number := by
  induction newfiles generalizing b with
  | nil => exact ⟨by simp [addedTo], hsorted, by simp [addedTo]⟩
  | cons p newfiles ih =>
    by_cases hlevel : level = p.1
    · have hadded : addedTo level (p :: newfiles) = p.2 :: addedTo level newfiles := by
        simp [addedTo, hlevel]
      rw [hadded] at hdistinct hnumbers
      obtain ⟨hp, hrest⟩ := List.pairwise_cons.1 hdistinct
      have hfresh : ∀ g ∈ (b.levels level).addedFiles, p.2.number ≠ g.number := hnumbers p.2 (List.mem_cons_self ..)
      have hstate : (b.addFile p).levels level =
          ⟨(b.levels level).deletedfiles.filter fun number => number ≠ p.2.number,
            FileSet.insert p.2 (b.levels level).addedFiles⟩ := by
        subst hlevel
        simp [addFile]
      have hperm := fileSet_insert_perm hfresh
      obtain ⟨ihperm, ihsorted, ihdeleted⟩ := ih (b := b.addFile p) hrest
        (by
          rw [hstate]
          intro f hf g hg
          rcases List.mem_cons.1 (hperm.mem_iff.1 hg) with rfl | hg
          · exact (hp f hf).symm
          · exact hnumbers f (List.mem_cons_of_mem _ hf) g hg)
        (by
          rw [hstate]
          exact fileSet_insert_sorted hfresh hsorted)
      rw [hstate] at ihperm ihdeleted
      refine ⟨?_, ihsorted, fun number => ?_⟩
      · rw [hadded]
        exact ihperm.trans ((hperm.append_right _).trans List.perm_middle.symm)
      · rw [List.foldl_cons, ihdeleted, hadded]
        simp only [List.mem_filter, decide_eq_true_eq, List.forall_mem_cons, ne_eq]
        tauto
    · have hstate : (b.addFile p).levels level = b.levels level := by
        simp [addFile, Function.update_of_ne hlevel]
      have hadded : addedTo level (p :: newfiles) = addedTo level newfiles := by
        simp [addedTo, Ne.symm hlevel]
      rw [hadded] at hdistinct hnumbers ⊢
      rw [List.foldl_cons]
      have := ih (b := b.addFile p) hdistinct (by rwa [hstate]) (by rwa [hstate])
      rwa [hstate] at this

/-! ### Saving a level -/

omit [LinearOrder K] in
/-- The added files are all kept, and none of the others is taken for one of them. -/
theorem filter_append_added {files added : List (FileMetaData K V)} {deletedfiles : List ℕ} {P : ℕ → Prop}
    [DecidablePred P] (hdeleted : ∀ number, number ∈ deletedfiles ↔ P number ∧ ∀ f ∈ added, number ≠ f.number)
    (hfresh : ∀ f ∈ added, ∀ g ∈ files, f.number ≠ g.number) :
    (files ++ added).filter (fun f => f.number ∉ deletedfiles) = files.filter (fun f => ¬ P f.number) ++ added := by
  have hkept : files.filter (fun f => f.number ∉ deletedfiles) = files.filter fun f => ¬ P f.number := by
    refine List.filter_congr fun f hf => ?_
    rw [decide_eq_decide, not_iff_not, hdeleted]
    exact and_iff_left fun g hg => (hfresh g hg f hf).symm
  have hadded : added.filter (fun f => f.number ∉ deletedfiles) = added := by
    refine List.filter_eq_self.2 fun f hf => decide_eq_true fun hmem => ?_
    exact ((hdeleted _).1 hmem).2 f hf rfl
  rw [List.filter_append, hkept, hadded]

/-- The files of the level are those of the merge that are not deleted, and for a level below level 0 the flag says
that each of them ends before the next one begins. -/
theorem foldl_maybeAddFile (b : Builder K V) (level : ℕ) (files : List (FileMetaData K V)) :
    (files.foldl (b.MaybeAddFile level) ([], true)).1 =
        files.filter (fun f => f.number ∉ (b.levels level).deletedfiles) ∧
      ((files.foldl (b.MaybeAddFile level) ([], true)).2 = true ↔ level = 0 ∨
        (files.filter fun f => f.number ∉ (b.levels level).deletedfiles).IsChain
          fun f g => f.largest < g.smallest) := by
  induction files using List.reverseRecOn with
  | nil => simp
  | append_singleton files f ih =>
    obtain ⟨hfst, hsnd⟩ := ih
    rw [List.foldl_append, List.foldl_cons, List.foldl_nil, MaybeAddFile, List.filter_append]
    by_cases hdeleted : f.number ∈ (b.levels level).deletedfiles
    · simp [hdeleted, hfst, hsnd]
    · rw [if_neg hdeleted]
      refine ⟨by simp [hdeleted, hfst], ?_⟩
      have hkept : [f].filter (fun f => f.number ∉ (b.levels level).deletedfiles) = [f] := by
        simp [hdeleted]
      rw [hkept, Bool.and_eq_true, hsnd, hfst, decide_eq_true_eq, List.isChain_append]
      rcases Nat.eq_zero_or_pos level with rfl | hlevel
      · simp
      · simp [hlevel.ne', Option.all_eq_true]

/-- When no file is empty, the files are in order and do not overlap. -/
private theorem isChain_iff_pairwise {files : List (FileMetaData K V)}
    (hrange : ∀ f ∈ files, f.smallest ≤ f.largest) :
    (files.IsChain fun f g => f.largest < g.smallest) ↔ files.Pairwise fun f g => f.largest < g.smallest := by
  refine ⟨fun h => ?_, List.Pairwise.isChain⟩
  induction files with
  | nil => exact List.Pairwise.nil
  | cons f files ih =>
    have htail := ih (fun g hg => hrange g (List.mem_cons_of_mem _ hg)) h.tail
    refine List.pairwise_cons.2 ⟨fun g hg => ?_, htail⟩
    cases files with
    | nil => exact absurd hg List.not_mem_nil
    | cons f' files =>
      have hf' : f.largest < f'.smallest := (List.isChain_cons_cons.1 h).1
      rcases List.mem_cons.1 hg with rfl | hg
      · exact hf'
      · have hrange' := hrange f' (List.mem_cons_of_mem _ (List.mem_cons_self ..))
        exact hf'.trans (lt_of_le_of_lt hrange' ((List.pairwise_cons.1 htail).1 g hg))

end Builder

/-! ### The installed version -/

/-- The edit adds files with numbers that their levels do not use. -/
structure EditOk (v : Version K V) (edit : VersionEdit K V) : Prop where
  ok : ∀ p ∈ edit.newfiles, p.2.Ok
  level_lt : ∀ p ∈ edit.newfiles, p.1 < kNumLevels
  distinct : edit.newfiles.Pairwise fun p q => p.2.number ≠ q.2.number
  fresh : ∀ p ∈ edit.newfiles, ∀ g ∈ v.files p.1, p.2.number ≠ g.number

/-- The files that the level keeps and those that it gets. -/
def edited (v : Version K V) (edit : VersionEdit K V) (level : ℕ) : List (FileMetaData K V) :=
  (v.files level).filter (fun f => (level, f.number) ∉ edit.deletedfiles) ++ Builder.addedTo level edit.newfiles

omit [LinearOrder K] in
theorem mem_edited {v : Version K V} {edit : VersionEdit K V} {level : ℕ} {f : FileMetaData K V} :
    f ∈ edited v edit level ↔
      f ∈ v.files level ∧ (level, f.number) ∉ edit.deletedfiles ∨ (level, f) ∈ edit.newfiles := by
  simp [edited, Builder.mem_addedTo]

variable {v : Version K V} {edit : VersionEdit K V}

private theorem range_edited (hv : v.Sorted) (hedit : EditOk v edit) {level : ℕ} {f : FileMetaData K V}
    (hf : f ∈ edited v edit level) : f.Ok := by
  rcases mem_edited.1 hf with hf | hf
  · exact hv.ok level f hf.1
  · exact hedit.ok _ hf

private theorem saveLevel_spec (hv : v.Sorted) (hedit : EditOk v edit) (level : ℕ) :
    let saved := ((Builder.new v).Apply edit).saveLevel level
    saved.1.Perm (edited v edit level) ∧
      (saved.2 = true ↔ level = 0 ∨ saved.1.Pairwise fun f g => f.largest < g.smallest) ∧
      (0 < level → Merge.Sorted FileMetaData.smallest saved.1) := by
  intro saved
  have hdeleted := Builder.levels_deleteFiles edit.deletedfiles (Builder.new v) level
  have hnone : ((edit.deletedfiles.foldl Builder.deleteFile (Builder.new v)).levels level).addedFiles = [] :=
    hdeleted.1
  obtain ⟨hperm, hsorted, hnumbers⟩ := Builder.levels_addFiles level
    (b := edit.deletedfiles.foldl Builder.deleteFile (Builder.new v))
    (List.pairwise_map.2 (hedit.distinct.sublist List.filter_sublist))
    (by simp [hnone]) (by rw [hnone]; exact List.Pairwise.nil)
  rw [hnone, List.nil_append] at hperm
  have hbase : ((Builder.new v).Apply edit).base = v :=
    (Builder.base_addFiles _ _).trans (Builder.base_deleteFiles _ _)
  set b := (Builder.new v).Apply edit with hb
  have hperm : (b.levels level).addedFiles.Perm (Builder.addedTo level edit.newfiles) := hperm
  have hmerged : (Merge.splice BySmallestKey (b.base.files level) (b.levels level).addedFiles).Perm
      (v.files level ++ Builder.addedTo level edit.newfiles) := by
    rw [hbase]
    exact (Merge.splice_perm _ _ _).trans (hperm.append_left _)
  have hrange : ∀ f ∈ Merge.splice BySmallestKey (b.base.files level) (b.levels level).addedFiles,
      f.smallest ≤ f.largest := by
    intro f hf
    rcases List.mem_append.1 (hmerged.mem_iff.1 hf) with hf | hf
    · exact (hv.ok level f hf).range
    · exact (hedit.ok _ (Builder.mem_addedTo.1 hf)).range
  obtain ⟨hfst, hsnd⟩ := Builder.foldl_maybeAddFile b level
    (Merge.splice BySmallestKey (b.base.files level) (b.levels level).addedFiles)
  have hfst : saved.1 = (Merge.splice BySmallestKey (b.base.files level) (b.levels level).addedFiles).filter
      fun f => f.number ∉ (b.levels level).deletedfiles := hfst
  -- A new file is not deleted, and a file of the base version is not taken for a new one.
  have hgone : ∀ number, number ∈ (b.levels level).deletedfiles ↔
      (level, number) ∈ edit.deletedfiles ∧ ∀ f ∈ Builder.addedTo level edit.newfiles, number ≠ f.number := by
    intro number
    refine (hnumbers number).trans (and_congr_left fun _ => (hdeleted.2 number).trans ?_)
    simp [Builder.new]
  refine ⟨?_, ?_, fun hlevel => ?_⟩
  · rw [hfst]
    refine (hmerged.filter _).trans ?_
    rw [Builder.filter_append_added hgone fun f hf g hg => hedit.fresh _ (Builder.mem_addedTo.1 hf) g hg, edited]
  · rw [hfst, ← Builder.isChain_iff_pairwise fun f hf => hrange f (List.mem_filter.1 hf).1]
    exact hsnd
  · rw [hfst]
    refine List.Pairwise.sublist List.filter_sublist ?_
    refine Merge.splice_sorted _ (fun f g h => smallest_le_of_orderKey_le (bySmallestKey_eq_true.1 h).le)
      (fun f g h => smallest_le_of_orderKey_le (bySmallestKey_eq_false.1 h)) ?_
      (hsorted.imp smallest_le_of_orderKey_le)
    rw [hbase]
    exact (hv.disjoint level hlevel).imp_of_mem fun hf _ hlt => (hv.ok level _ hf).range.trans hlt.le

/-- The assertion of the builder holds when the files of the level do not overlap. -/
private theorem saveLevel_ok (hv : v.Sorted) (hedit : EditOk v edit) {level : ℕ}
    (hdisjoint : 0 < level → (edited v edit level).Pairwise FileMetaData.Apart) :
    (((Builder.new v).Apply edit).saveLevel level).2 = true := by
  obtain ⟨hperm, hok, hsorted⟩ := saveLevel_spec hv hedit level
  refine hok.2 ((Nat.eq_zero_or_pos level).imp id fun hlevel => ?_)
  have hpair := (hperm.pairwise_iff fun h => h.symm).2 (hdisjoint hlevel)
  refine ((hsorted hlevel).and hpair).imp_of_mem fun {f g} _ hg h => h.2.resolve_right fun hlt => ?_
  exact absurd hlt (not_lt.2 (h.1.trans (range_edited hv hedit (hperm.mem_iff.1 hg)).range))

private theorem saveTo_completeEdit (vs : VersionSet K V) (edit : VersionEdit K V) :
    (Builder.new vs.current).Apply (vs.completeEdit edit) = (Builder.new vs.current).Apply edit := rfl

/-- What an installed edit makes of the version set. -/
structure Installed (vs : VersionSet K V) (edit : VersionEdit K V) (vs' : VersionSet K V) : Prop where
  perm : ∀ level, (vs'.current.files level).Perm (edited vs.current edit level)
  sorted : vs'.current.Sorted
  filetocompact : vs'.current.filetocompact = none
  nextfilenumber : vs'.nextfilenumber = vs.nextfilenumber
  lastsequence : vs'.lastsequence = vs.lastsequence
  lognumber : vs'.lognumber = edit.lognumber.getD vs.lognumber

theorem Installed.mem_files {vs vs' : VersionSet K V} (h : Installed vs edit vs') {level : ℕ}
    {f : FileMetaData K V} : f ∈ vs'.current.files level ↔
      f ∈ vs.current.files level ∧ (level, f.number) ∉ edit.deletedfiles ∨ (level, f) ∈ edit.newfiles :=
  ((h.perm level).mem_iff).trans mem_edited

theorem logAndApply_installed {vs vs' : VersionSet K V} (hv : vs.current.Sorted) (hedit : EditOk vs.current edit)
    (h : vs.LogAndApply edit = some vs') : Installed vs edit vs' := by
  simp only [VersionSet.LogAndApply, saveTo_completeEdit] at h
  split at h
  swap
  · simp at h
  obtain ⟨v, hsave, rfl⟩ := Option.map_eq_some_iff.1 h
  simp only [Builder.SaveTo] at hsave
  split at hsave
  swap
  · simp at hsave
  rename_i hok
  obtain rfl := (Option.some.inj hsave).symm
  have hempty : ∀ level, kNumLevels ≤ level → edited vs.current edit level = [] := by
    intro level hlevel
    refine List.eq_nil_iff_forall_not_mem.2 fun f hf => ?_
    rcases mem_edited.1 hf with hf | hf
    · rw [hv.deepest level hlevel] at hf
      exact absurd hf.1 List.not_mem_nil
    · exact absurd (hedit.level_lt _ hf) (Nat.not_lt.2 hlevel)
  have hperm : ∀ level, (if level < kNumLevels then (((Builder.new vs.current).Apply edit).saveLevel level).1
      else []).Perm (edited vs.current edit level) := by
    intro level
    split
    · exact (saveLevel_spec hv hedit level).1
    · rename_i hlevel
      rw [hempty level (Nat.not_lt.1 hlevel)]
  refine ⟨hperm, ⟨fun level f hf => ?_, fun level hlevel => ?_, fun level => ?_, fun level hlevel => ?_⟩,
    rfl, rfl, rfl, rfl⟩
  · exact range_edited hv hedit ((hperm level).mem_iff.1 hf)
  · show List.Pairwise _ (if level < kNumLevels then _ else [])
    split
    · rename_i hlt
      exact ((saveLevel_spec hv hedit level).2.1.1 (hok level hlt)).resolve_left hlevel.ne'
    · exact List.Pairwise.nil
  · refine ((hperm level).pairwise_iff fun h => h.symm).2 (List.pairwise_append.2 ⟨?_, ?_, ?_⟩)
    · exact (hv.numbers level).sublist List.filter_sublist
    · exact List.pairwise_map.2 (hedit.distinct.sublist List.filter_sublist)
    · intro f hf g hg
      exact (hedit.fresh _ (Builder.mem_addedTo.1 hg) f (List.mem_filter.1 hf).1).symm
  · exact if_neg (Nat.not_lt.2 hlevel)

theorem logAndApply_isSome {vs : VersionSet K V} (hv : vs.current.Sorted) (hedit : EditOk vs.current edit)
    (hlog : ∀ number ∈ edit.lognumber, vs.lognumber ≤ number ∧ number < vs.nextfilenumber)
    (hdisjoint : ∀ level, 0 < level → (edited vs.current edit level).Pairwise FileMetaData.Apart) :
    ∃ vs', vs.LogAndApply edit = some vs' := by
  have hlog' : (edit.lognumber.all fun number => vs.lognumber ≤ number ∧ number < vs.nextfilenumber) = true := by
    cases hnumber : edit.lognumber with
    | none => rfl
    | some number => exact decide_eq_true (hlog number hnumber)
  have hall : ∀ level < kNumLevels,
      (((Builder.new vs.current).Apply (vs.completeEdit edit)).saveLevel level).2 = true :=
    fun level _ => saveLevel_ok hv hedit (hdisjoint level)
  simp only [VersionSet.LogAndApply, hlog', if_true, Builder.SaveTo]
  rw [if_pos hall]
  exact ⟨_, rfl⟩

end RedisDb
