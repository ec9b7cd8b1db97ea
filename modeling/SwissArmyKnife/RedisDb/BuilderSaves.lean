import SwissArmyKnife.RedisDb.VersionInstall

/-!
# What a builder saves

A builder to which any list of edits was applied saves, on each level, the files of the base version that no edit
deletes and the added files that are not deleted after their last addition, in the order of `BySmallestKey`
(`saves_apply`).  A level keeps track of deleted files by their numbers only, and an added file stays in the set of
added files when it is deleted; so a number has to mean one file (`NumbersOk`).
-/

namespace RedisDb

variable {K V : Type*} [LinearOrder K]

/-! ### The set of added files -/

theorem of_mem_fileSet_insert {f g : FileMetaData K V} {files : List (FileMetaData K V)}
    (h : g ∈ FileSet.insert f files) : g = f ∨ g ∈ files := by
  induction files with
  | nil => simpa [FileSet.insert] using h
  | cons a files ih =>
    rw [FileSet.insert] at h
    split at h
    · exact List.mem_cons.1 h
    · split at h
      · rcases List.mem_cons.1 h with rfl | h
        · exact Or.inr (List.mem_cons_self ..)
        · exact (ih h).imp id (List.mem_cons_of_mem _)
      · exact Or.inr h

/-- What is added is in the set, when no other file of the set has its number. -/
theorem mem_fileSet_insert {f g : FileMetaData K V} {files : List (FileMetaData K V)}
    (h : ∀ f' ∈ files, f'.number = f.number → f' = f) : g ∈ FileSet.insert f files ↔ g = f ∨ g ∈ files := by
  refine ⟨of_mem_fileSet_insert, fun hg => ?_⟩
  induction files with
  | nil => simpa [FileSet.insert] using hg
  | cons a files ih =>
    rw [FileSet.insert]
    split
    · exact List.mem_cons.2 hg
    · rename_i hfa
      split
      · rw [List.mem_cons] at hg ⊢
        rcases hg with hg | hg | hg
        · exact Or.inr (ih (fun f' hf' => h f' (List.mem_cons_of_mem _ hf')) (Or.inl hg))
        · exact Or.inl hg
        · exact Or.inr (ih (fun f' hf' => h f' (List.mem_cons_of_mem _ hf')) (Or.inr hg))
      · rename_i haf
        -- Neither is before the other one, so they have one number.
        rw [Bool.not_eq_true, bySmallestKey_eq_false] at hfa haf
        have heq : a.orderKey = f.orderKey := le_antisymm hfa haf
        have hnumber : a.number = f.number := congrArg (fun k => (ofLex k).2) heq
        rcases hg with rfl | hg
        · exact h a (List.mem_cons_self ..) hnumber ▸ List.mem_cons_self ..
        · exact hg

/-- The set stays in its order, without equivalent files. -/
theorem fileSet_insert_strict {f : FileMetaData K V} {files : List (FileMetaData K V)}
    (h : files.Pairwise fun f g => f.orderKey < g.orderKey) :
    (FileSet.insert f files).Pairwise fun f g => f.orderKey < g.orderKey := by
  induction files with
  | nil => exact List.pairwise_singleton ..
  | cons a files ih =>
    obtain ⟨ha, hfiles⟩ := List.pairwise_cons.1 h
    rw [FileSet.insert]
    split
    · rename_i hfa
      rw [bySmallestKey_eq_true] at hfa
      refine List.pairwise_cons.2 ⟨fun g hg => ?_, h⟩
      rcases List.mem_cons.1 hg with rfl | hg
      · exact hfa
      · exact hfa.trans (ha g hg)
    · split
      · rename_i haf
        rw [bySmallestKey_eq_true] at haf
        refine List.pairwise_cons.2 ⟨fun g hg => ?_, ih hfiles⟩
        rcases of_mem_fileSet_insert hg with rfl | hg
        · exact haf
        · exact ha g hg
      · exact h

namespace Builder

/-- The state of a builder after the edits. -/
def applyAll (base : Version K V) (edits : List (VersionEdit K V)) : Builder K V := edits.foldl Apply (new base)

/-- Some edit deletes the number from the level. -/
def Deleted (edits : List (VersionEdit K V)) (level number : ℕ) : Prop :=
  ∃ e ∈ edits, (level, number) ∈ e.deletedfiles

instance (edits : List (VersionEdit K V)) (level number : ℕ) : Decidable (Deleted edits level number) :=
  inferInstanceAs (Decidable (∃ e ∈ edits, (level, number) ∈ e.deletedfiles))

/-- Some edit adds the file to the level. -/
def Added (edits : List (VersionEdit K V)) (level : ℕ) (f : FileMetaData K V) : Prop :=
  ∃ e ∈ edits, (level, f) ∈ e.newfiles

/-- Some edit adds the file to the level, and no later edit deletes it. -/
def AddedLast (edits : List (VersionEdit K V)) (level : ℕ) (f : FileMetaData K V) : Prop :=
  ∃ before e after, edits = before ++ e :: after ∧ (level, f) ∈ e.newfiles ∧
    ∀ e' ∈ after, (level, f.number) ∉ e'.deletedfiles

/-- A number means one file of the level. -/
structure NumbersOk (base : Version K V) (edits : List (VersionEdit K V)) (level : ℕ) : Prop where
  unique : ∀ f g, Added edits level f → Added edits level g → f.number = g.number → f = g
  fresh : ∀ f, Added edits level f → ∀ g ∈ base.files level, f.number ≠ g.number

omit [LinearOrder K] in
theorem added_append {edits : List (VersionEdit K V)} {e : VersionEdit K V} {level : ℕ} {f : FileMetaData K V} :
    Added (edits ++ [e]) level f ↔ Added edits level f ∨ (level, f) ∈ e.newfiles := by
  simp [Added, or_and_right, exists_or]

omit [LinearOrder K] in
theorem deleted_append {edits : List (VersionEdit K V)} {e : VersionEdit K V} {level number : ℕ} :
    Deleted (edits ++ [e]) level number ↔ Deleted edits level number ∨ (level, number) ∈ e.deletedfiles := by
  simp [Deleted, or_and_right, exists_or]

omit [LinearOrder K] in
theorem addedLast_append {edits : List (VersionEdit K V)} {e : VersionEdit K V} {level : ℕ} {f : FileMetaData K V} :
    AddedLast (edits ++ [e]) level f ↔
      (level, f) ∈ e.newfiles ∨ AddedLast edits level f ∧ (level, f.number) ∉ e.deletedfiles := by
  constructor
  · rintro ⟨before, e', after, hedits, hmem, hafter⟩
    -- The edit that adds the file is the last one, or one of those before it.
    rcases List.eq_nil_or_concat after with rfl | ⟨after', e'', rfl⟩
    · obtain ⟨-, heq⟩ := List.append_inj' hedits rfl
      cases heq
      exact Or.inl hmem
    · rw [List.concat_eq_append, ← List.cons_append, ← List.append_assoc] at hedits
      obtain ⟨rfl, heq⟩ := List.append_inj' hedits rfl
      cases heq
      exact Or.inr ⟨⟨before, e', after', rfl, hmem, fun a ha => hafter a (by simp [ha])⟩, hafter e (by simp)⟩
  · rintro (hmem | ⟨⟨before, e', after, rfl, hmem, hafter⟩, hnot⟩)
    · exact ⟨edits, e, [], rfl, hmem, by simp⟩
    · refine ⟨before, e', after ++ [e], by simp, hmem, fun a ha => ?_⟩
      rcases List.mem_append.1 ha with ha | ha
      · exact hafter a ha
      · exact List.mem_singleton.1 ha ▸ hnot

omit [LinearOrder K] in
theorem AddedLast.added {edits : List (VersionEdit K V)} {level : ℕ} {f : FileMetaData K V}
    (h : AddedLast edits level f) : Added edits level f := by
  obtain ⟨before, e, after, rfl, hmem, -⟩ := h
  exact ⟨e, by simp, hmem⟩

/-! ### The state of a level -/

/-- What the additions of an edit do to a level. -/
theorem levels_foldl_addFile (level : ℕ) (newfiles : List (ℕ × FileMetaData K V)) {b : Builder K V}
    (hunique : ∀ f g, (level, f) ∈ newfiles → g ∈ (b.levels level).addedFiles ∨ (level, g) ∈ newfiles →
      g.number = f.number → g = f)
    (hstrict : (b.levels level).addedFiles.Pairwise fun f g => f.orderKey < g.orderKey) :
    (((newfiles.foldl addFile b).levels level).addedFiles.Pairwise fun f g => f.orderKey < g.orderKey) ∧
      (∀ f, f ∈ ((newfiles.foldl addFile b).levels level).addedFiles ↔
        f ∈ (b.levels level).addedFiles ∨ (level, f) ∈ newfiles) ∧
      ∀ number, number ∈ ((newfiles.foldl addFile b).levels level).deletedfiles ↔
        number ∈ (b.levels level).deletedfiles ∧ ∀ f, (level, f) ∈ newfiles → f.number ≠ number := by
  -- The files are added from the first on; a file of another level changes nothing of this one.
  induction newfiles generalizing b with
  | nil => exact ⟨hstrict, by simp, by simp⟩
  | cons p newfiles ih =>
    by_cases hp : p.1 = level
    · subst hp
      have hstate : (b.addFile p).levels p.1 =
          ⟨(b.levels p.1).deletedfiles.filter fun number => number ≠ p.2.number,
            FileSet.insert p.2 (b.levels p.1).addedFiles⟩ := by
        simp [addFile]
      have hmem : ∀ g, g ∈ FileSet.insert p.2 (b.levels p.1).addedFiles ↔
          g = p.2 ∨ g ∈ (b.levels p.1).addedFiles := fun g =>
        mem_fileSet_insert fun f' hf' hnumber => hunique p.2 f' (List.mem_cons_self ..) (Or.inl hf') hnumber
      obtain ⟨ihstrict, ihmem, ihdeleted⟩ := ih (b := b.addFile p)
        (by
          rw [hstate]
          intro f g hf hg
          refine hunique f g (List.mem_cons_of_mem _ hf) ?_
          rcases hg with hg | hg
          · rcases (hmem g).1 hg with rfl | hg
            · exact Or.inr (List.mem_cons_self ..)
            · exact Or.inl hg
          · exact Or.inr (List.mem_cons_of_mem _ hg))
        (by
          rw [hstate]
          exact fileSet_insert_strict hstrict)
      rw [hstate] at ihmem ihdeleted
      have hcons : ∀ f, (p.1, f) ∈ p :: newfiles ↔ f = p.2 ∨ (p.1, f) ∈ newfiles := fun f => by
        rw [List.mem_cons, Prod.ext_iff]
        simp
      refine ⟨ihstrict, fun f => ?_, fun number => ?_⟩
      · rw [List.foldl_cons, ihmem, hmem, hcons, or_assoc, or_left_comm]
      · rw [List.foldl_cons, ihdeleted]
        simp only [hcons, List.mem_filter, decide_eq_true_eq, forall_eq_or_imp]
        constructor
        · rintro ⟨⟨hdel, hne⟩, hrest⟩
          exact ⟨hdel, Ne.symm hne, hrest⟩
        · rintro ⟨hdel, hne, hrest⟩
          exact ⟨⟨hdel, Ne.symm hne⟩, hrest⟩
    · have hstate : (b.addFile p).levels level = b.levels level := by
        simp [addFile, Function.update_of_ne (Ne.symm hp)]
      have hcons : ∀ f, (level, f) ∈ p :: newfiles ↔ (level, f) ∈ newfiles := fun f => by
        rw [List.mem_cons, or_iff_right]
        rintro rfl
        exact hp rfl
      simp only [hcons] at hunique ⊢
      have := ih (b := b.addFile p) (by rwa [hstate]) (by rwa [hstate])
      rwa [hstate] at this

/-- What the state of the level knows of the edits that were applied. -/
structure Tracks (base : Version K V) (edits : List (VersionEdit K V)) (level : ℕ) (b : Builder K V) : Prop where
  base_eq : b.base = base
  strict : (b.levels level).addedFiles.Pairwise fun f g => f.orderKey < g.orderKey
  mem : ∀ f, f ∈ (b.levels level).addedFiles ↔ Added edits level f
  added : ∀ f, Added edits level f → (f.number ∉ (b.levels level).deletedfiles ↔ AddedLast edits level f)
  others : ∀ number, (∀ f, Added edits level f → f.number ≠ number) →
    (number ∈ (b.levels level).deletedfiles ↔ Deleted edits level number)

variable {base : Version K V} {edits : List (VersionEdit K V)} {level : ℕ}

theorem tracks_new (base : Version K V) (level : ℕ) : Tracks base [] level (new base) where
  base_eq := rfl
  strict := List.Pairwise.nil
  mem := by simp [new, Added]
  added := by simp [Added]
  others := by simp [new, Deleted]

omit [LinearOrder K] in
private theorem NumbersOk.of_append {e : VersionEdit K V} (h : NumbersOk base (edits ++ [e]) level) :
    NumbersOk base edits level where
  unique f g hf hg := h.unique f g (added_append.2 (Or.inl hf)) (added_append.2 (Or.inl hg))
  fresh f hf := h.fresh f (added_append.2 (Or.inl hf))

theorem Tracks.apply {e : VersionEdit K V} (hnumbers : NumbersOk base (edits ++ [e]) level) {b : Builder K V}
    (h : Tracks base edits level b) : Tracks base (edits ++ [e]) level (b.Apply e) := by
  have hdel := levels_deleteFiles e.deletedfiles b level
  obtain ⟨hstrict, hmem, hdeleted⟩ := levels_foldl_addFile level e.newfiles
    (b := e.deletedfiles.foldl deleteFile b)
    (by
      intro f g hf hg hnumber
      refine hnumbers.unique g f (added_append.2 ?_) (added_append.2 (Or.inr hf)) hnumber
      rw [hdel.1] at hg
      exact hg.imp (h.mem g).1 id)
    (by rw [hdel.1]; exact h.strict)
  refine ⟨?_, hstrict, fun f => ?_, fun f hf => ?_, fun number hothers => ?_⟩
  · rw [Apply, base_addFiles, base_deleteFiles, h.base_eq]
  · rw [added_append, ← h.mem f, ← hdel.1]
    exact hmem f
  · rw [Apply, hdeleted, hdel.2, addedLast_append]
    by_cases hnew : (level, f) ∈ e.newfiles
    · exact ⟨fun _ => Or.inl hnew, fun _ hand => hand.2 f hnew rfl⟩
    · -- No file with the number of `f` is added, so `e` can only delete it.
      have hnone : ∀ g, (level, g) ∈ e.newfiles → g.number ≠ f.number := fun g hg heq =>
        hnew (hnumbers.unique g f (added_append.2 (Or.inr hg)) hf heq ▸ hg)
      have hold : Added edits level f := (added_append.1 hf).resolve_right hnew
      have hiff := h.added f hold
      constructor
      · intro hnot
        refine Or.inr ⟨hiff.1 fun hmem => hnot ⟨Or.inr hmem, hnone⟩, fun hmem => hnot ⟨Or.inl hmem, hnone⟩⟩
      · rintro (hmem | ⟨hlast, hnot⟩)
        · exact absurd hmem hnew
        · rintro ⟨hmem | hmem, -⟩
          · exact hnot hmem
          · exact hiff.2 hlast hmem
  · rw [Apply, hdeleted, hdel.2, deleted_append]
    have hnone : ∀ g, (level, g) ∈ e.newfiles → g.number ≠ number :=
      fun g hg => hothers g (added_append.2 (Or.inr hg))
    rw [and_iff_left hnone, h.others number fun g hg => hothers g (added_append.2 (Or.inl hg)), or_comm]

theorem tracks_applyAll (hnumbers : NumbersOk base edits level) :
    Tracks base edits level (applyAll base edits) := by
  induction edits using List.reverseRecOn with
  | nil => exact tracks_new base level
  | append_singleton edits e ih =>
    rw [applyAll, List.foldl_append]
    exact (ih hnumbers.of_append).apply hnumbers

/-! ### What is saved -/

/-- The level holds the files of the base version that were not deleted and the added files that were not deleted
after their last addition, each once, and in the order of their smallest keys and numbers. -/
structure Saves (base : Version K V) (edits : List (VersionEdit K V)) (level : ℕ) (files : List (FileMetaData K V)) :
    Prop where
  kept : ∃ added : List (FileMetaData K V), added.Nodup ∧ (∀ f, f ∈ added ↔ AddedLast edits level f) ∧
    files.Perm ((base.files level).filter (fun f => ¬ Deleted edits level f.number) ++ added)
  sorted : files.Pairwise fun f g => BySmallestKey g f = false

theorem saves_saveLevel (hnumbers : NumbersOk base edits level)
    (hbase : (base.files level).Pairwise fun f g => BySmallestKey g f = false) :
    Saves base edits level ((applyAll base edits).saveLevel level).1 := by
  have h := tracks_applyAll hnumbers
  have hnodup : ((applyAll base edits).levels level).addedFiles.Nodup := h.strict.imp fun hlt heq => by
    rw [heq] at hlt
    exact lt_irrefl _ hlt
  rw [saveLevel, (foldl_maybeAddFile _ _ _).1, h.base_eq]
  refine ⟨⟨((applyAll base edits).levels level).addedFiles.filter fun f =>
    f.number ∉ ((applyAll base edits).levels level).deletedfiles, hnodup.filter _, fun f => ?_, ?_⟩, ?_⟩
  · rw [List.mem_filter, decide_eq_true_eq, h.mem]
    exact ⟨fun hf => (h.added f hf.1).1 hf.2, fun hf => ⟨hf.added, (h.added f hf.added).2 hf⟩⟩
  · refine ((Merge.splice_perm _ _ _).filter _).trans (List.Perm.of_eq ?_)
    rw [List.filter_append]
    congr 1
    refine List.filter_congr fun f hf => ?_
    rw [decide_eq_decide, h.others f.number fun g hg => hnumbers.fresh g hg f hf]
  · have hsorted : Merge.Sorted FileMetaData.orderKey (Merge.splice BySmallestKey (base.files level)
        ((applyAll base edits).levels level).addedFiles) := Merge.splice_sorted FileMetaData.orderKey
      (fun a b hab => (bySmallestKey_eq_true.1 hab).le) (fun a b hab => bySmallestKey_eq_false.1 hab)
      (hbase.imp fun hgf => bySmallestKey_eq_false.1 hgf) (h.strict.imp fun hlt => hlt.le)
    exact (List.Pairwise.sublist List.filter_sublist hsorted).imp fun hle => bySmallestKey_eq_false.2 hle

/-- When the files that are saved do not overlap, the assertion has held. -/
theorem saveLevel_disjoint (hnumbers : NumbersOk base edits level)
    (hbase : (base.files level).Pairwise fun f g => BySmallestKey g f = false)
    (hrange : ∀ f ∈ ((applyAll base edits).saveLevel level).1, f.smallest ≤ f.largest)
    (hdisjoint : ((applyAll base edits).saveLevel level).1.Pairwise FileMetaData.Apart) :
    ((applyAll base edits).saveLevel level).2 = true := by
  have hsorted := (saves_saveLevel hnumbers hbase).sorted
  have hfiles := foldl_maybeAddFile (applyAll base edits) level
    (Merge.splice BySmallestKey ((applyAll base edits).base.files level)
      ((applyAll base edits).levels level).addedFiles)
  refine hfiles.2.2 (Or.inr ?_)
  rw [← hfiles.1]
  refine List.Pairwise.isChain ((hsorted.and hdisjoint).imp_of_mem fun {f g} hf hg hfg => ?_)
  rcases hfg.2 with hlt | hlt
  · exact hlt
  · -- The later file would end before the earlier one begins.
    have hle := smallest_le_of_orderKey_le (bySmallestKey_eq_false.1 hfg.1)
    exact absurd (lt_of_le_of_lt (hrange g hg) hlt) (not_lt.2 hle)

/-- Any list of edits: `SaveTo` has a result when the files of each level below level 0 do not overlap, and it
consists of the kept files of each level. -/
theorem saveTo_saves (base : Version K V) (edits : List (VersionEdit K V))
    (hnumbers : ∀ level < kNumLevels, NumbersOk base edits level)
    (hbase : ∀ level < kNumLevels, (base.files level).Pairwise fun f g => BySmallestKey g f = false) :
    (∀ level < kNumLevels, Saves base edits level ((applyAll base edits).saveLevel level).1) ∧
    ((∀ level, 0 < level → level < kNumLevels →
        (∀ f ∈ ((applyAll base edits).saveLevel level).1, f.smallest ≤ f.largest) ∧
        ((applyAll base edits).saveLevel level).1.Pairwise FileMetaData.Apart) →
      ∃ v, (applyAll base edits).SaveTo = some v ∧
        ∀ level < kNumLevels, v.files level = ((applyAll base edits).saveLevel level).1) := by
  refine ⟨fun level hlevel => saves_saveLevel (hnumbers level hlevel) (hbase level hlevel), fun hapart => ?_⟩
  have hall : ∀ level < kNumLevels, ((applyAll base edits).saveLevel level).2 = true := by
    intro level hlevel
    rcases Nat.eq_zero_or_pos level with rfl | hpos
    · exact (foldl_maybeAddFile _ _ _).2.2 (Or.inl rfl)
    · exact saveLevel_disjoint (hnumbers level hlevel) (hbase level hlevel) (hapart level hpos hlevel).1
        (hapart level hpos hlevel).2
  refine ⟨_, if_pos hall, fun level hlevel => if_pos hlevel⟩

/-- A version with one file, and edits that add a second file and delete the first one. -/
private def oneFile : Version ℕ ℕ where
  files := fun level => if level = 1 then [⟨1, 1, ⟨1, 4, .kTypeValue⟩, ⟨2, 5, .kTypeValue⟩, []⟩] else []
  filetocompact := none

private def replaceFile : List (VersionEdit ℕ ℕ) :=
  [VersionEdit.empty.AddFile 1 ⟨2, 1, ⟨3, 6, .kTypeValue⟩, ⟨4, 7, .kTypeValue⟩, []⟩, VersionEdit.empty.DeleteFile 1 1]

private theorem added_replaceFile {level : ℕ} {f : FileMetaData ℕ ℕ} (h : Added replaceFile level f) :
    f = ⟨2, 1, ⟨3, 6, .kTypeValue⟩, ⟨4, 7, .kTypeValue⟩, []⟩ := by
  obtain ⟨e, he, hmem⟩ := h
  rcases List.mem_cons.1 he with rfl | he
  · exact (Prod.ext_iff.1 (List.mem_singleton.1 hmem)).2
  · obtain rfl := List.mem_singleton.1 he
    exact absurd hmem List.not_mem_nil

theorem saveTo_saves_replaceFile :
    (∀ level < kNumLevels, Saves oneFile replaceFile level ((applyAll oneFile replaceFile).saveLevel level).1) ∧
    ((∀ level, 0 < level → level < kNumLevels →
        (∀ f ∈ ((applyAll oneFile replaceFile).saveLevel level).1, f.smallest ≤ f.largest) ∧
        ((applyAll oneFile replaceFile).saveLevel level).1.Pairwise FileMetaData.Apart) →
      ∃ v, (applyAll oneFile replaceFile).SaveTo = some v ∧
        ∀ level < kNumLevels, v.files level = ((applyAll oneFile replaceFile).saveLevel level).1) := by
  refine saveTo_saves oneFile replaceFile (fun level _ => ⟨fun f g hf hg _ => ?_, fun f hf g hg => ?_⟩)
    fun level _ => ?_
  · rw [added_replaceFile hf, added_replaceFile hg]
  · rw [added_replaceFile hf]
    simp only [oneFile] at hg
    split at hg
    · rw [List.mem_singleton.1 hg]
      decide
    · exact absurd hg List.not_mem_nil
  · simp only [oneFile]
    split
    · exact List.pairwise_singleton ..
    · exact List.Pairwise.nil

/-- The number 5 is used for two files of level 1, the first of which is deleted when the second one is added. -/
private def reusedNumber : List (VersionEdit ℕ ℕ) :=
  [VersionEdit.empty.AddFile 1 ⟨5, 1, ⟨1, 4, .kTypeValue⟩, ⟨2, 5, .kTypeValue⟩, []⟩,
    (VersionEdit.empty.DeleteFile 1 5).AddFile 1 ⟨5, 1, ⟨3, 6, .kTypeValue⟩, ⟨4, 7, .kTypeValue⟩, []⟩]

/-- A deleted file comes back when its number is used again. -/
theorem not_saves_reusedNumber :
    ¬ Saves ⟨fun _ => [], none⟩ reusedNumber 1 ((applyAll ⟨fun _ => [], none⟩ reusedNumber).saveLevel 1).1 := by
  intro h
  obtain ⟨added, -, hadded, hperm⟩ := h.kept
  have hmem : (⟨5, 1, ⟨1, 4, .kTypeValue⟩, ⟨2, 5, .kTypeValue⟩, []⟩ : FileMetaData ℕ ℕ) ∈
      ((applyAll ⟨fun _ => [], none⟩ reusedNumber).saveLevel 1).1 := by
    have hfiles : ((applyAll ⟨fun _ => [], none⟩ reusedNumber).saveLevel 1).1 =
        [⟨5, 1, ⟨1, 4, .kTypeValue⟩, ⟨2, 5, .kTypeValue⟩, []⟩,
          ⟨5, 1, ⟨3, 6, .kTypeValue⟩, ⟨4, 7, .kTypeValue⟩, []⟩] :=
      rfl
    rw [hfiles]
    exact List.mem_cons_self ..
  rw [hperm.mem_iff, List.filter_nil, List.nil_append, hadded, reusedNumber, ← List.singleton_append,
    addedLast_append] at hmem
  rcases hmem with hmem | ⟨-, hnot⟩
  · have := List.mem_singleton.1 hmem
    simp at this
  · exact hnot (List.mem_singleton_self _)

end Builder

end RedisDb
