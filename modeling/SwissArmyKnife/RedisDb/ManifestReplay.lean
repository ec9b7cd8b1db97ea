import SwissArmyKnife.RedisDb.Manifest
import SwissArmyKnife.RedisDb.VersionInstall

/-!
# Replay of the manifest

One builder that applies every edit to the empty version has the same files, in the same order, as a chain of builders
that each start from the version before (`Agrees`).  The record of a snapshot stands for all the edits before it.  So
in every state of every run the manifest replays to the version set in memory (`recover_eq_history`).
-/

namespace RedisDb

open Transition (run)

variable {K V : Type*} [LinearOrder K]

/-! ### Builders -/

namespace Builder

/-- What an edit with new numbers does to a level of the builder. -/
theorem levels_apply {b : Builder K V} {edit : VersionEdit K V} {level : ℕ}
    (hdistinct : (addedTo level edit.newfiles).Pairwise fun f g => f.number ≠ g.number)
    (hnumbers : ∀ f ∈ addedTo level edit.newfiles, ∀ g ∈ (b.levels level).addedFiles, f.number ≠ g.number)
    (hsorted : Merge.Sorted FileMetaData.orderKey (b.levels level).addedFiles) :
    ((b.Apply edit).levels level).addedFiles.Perm ((b.levels level).addedFiles ++ addedTo level edit.newfiles) ∧
      Merge.Sorted FileMetaData.orderKey ((b.Apply edit).levels level).addedFiles ∧
      ∀ number, number ∈ ((b.Apply edit).levels level).deletedfiles ↔
        ((level, number) ∈ edit.deletedfiles ∨ number ∈ (b.levels level).deletedfiles) ∧
          ∀ f ∈ addedTo level edit.newfiles, number ≠ f.number := by
  obtain ⟨hadded, hdeleted⟩ := levels_deleteFiles edit.deletedfiles b level
  obtain ⟨hperm, hsorted', hgone⟩ := levels_addFiles level (b := edit.deletedfiles.foldl deleteFile b) hdistinct
    (by rwa [hadded]) (by rwa [hadded])
  rw [hadded] at hperm
  refine ⟨hperm, hsorted', fun number => (hgone number).trans ?_⟩
  rw [hdeleted]

theorem base_apply (b : Builder K V) (edit : VersionEdit K V) : (b.Apply edit).base = b.base :=
  (base_addFiles _ _).trans (base_deleteFiles _ _)

/-- The assertion of the builder holds on every level. -/
def Ordered (files : ℕ → List (FileMetaData K V)) : Prop :=
  ∀ level < kNumLevels, level = 0 ∨ (files level).IsChain fun f g => f.largest < g.smallest

/-- The files that `SaveTo` leaves on a level. -/
def kept (b : Builder K V) (level : ℕ) : List (FileMetaData K V) :=
  if level < kNumLevels then
    (Merge.splice BySmallestKey (b.base.files level) (b.levels level).addedFiles).filter
      fun f => f.number ∉ (b.levels level).deletedfiles
  else []

theorem saveTo_eq_some {b : Builder K V} {v : Version K V} :
    b.SaveTo = some v ↔ Ordered b.kept ∧ v = ⟨b.kept, none⟩ := by
  have hflag : (∀ level < kNumLevels, (b.saveLevel level).2 = true) ↔ Ordered b.kept := by
    refine forall₂_congr fun level hlevel => ?_
    rw [kept, if_pos hlevel]
    exact (foldl_maybeAddFile b level _).2
  have hfiles : (fun level => if level < kNumLevels then (b.saveLevel level).1 else []) = b.kept := by
    funext level
    rw [kept]
    split
    · exact (foldl_maybeAddFile b level _).1
    · rfl
  rw [SaveTo, hfiles, ← hflag]
  split
  · rename_i hok
    rw [Option.some_inj]
    exact ⟨fun h => ⟨hok, h.symm⟩, fun h => h.2.symm⟩
  · rename_i hok
    simp [hok]

end Builder

/-! ### One builder and a chain of builders -/

/-- Files in the same order are the same when no two have one number. -/
private theorem eq_of_perm_of_sorted {l l' : List (FileMetaData K V)} (hperm : l.Perm l')
    (hl : Merge.Sorted FileMetaData.orderKey l) (hl' : Merge.Sorted FileMetaData.orderKey l')
    (hnumbers : l.Pairwise fun f g => f.number ≠ g.number) : l = l' := by
  refine List.Perm.eq_of_pairwise (fun f g hf hg hfg hgf => ?_) hl hl' hperm
  have hnumber : f.number = g.number := congrArg (fun k => (ofLex k).2) (le_antisymm hfg hgf)
  exact List.inj_on_of_nodup_map (List.pairwise_map.2 hnumbers) hf (hperm.mem_iff.2 hg) hnumber

/-- The levels and numbers of the files that the edit adds. -/
def VersionEdit.added (edit : VersionEdit K V) : List (ℕ × ℕ) := edit.newfiles.map fun p => (p.1, p.2.number)

/-- Each number is added to a level for the first time. -/
def VersionEdit.AddsNew (edit : VersionEdit K V) (before : List (ℕ × ℕ)) : Prop :=
  edit.added.Nodup ∧ ∀ p ∈ edit.added, p ∉ before

/-- The builder started from the empty version and has added files under these numbers. -/
structure Builder.Accumulates (b : Builder K V) (numbers : List (ℕ × ℕ)) : Prop where
  base : ∀ level, b.base.files level = []
  sorted : ∀ level, Merge.Sorted FileMetaData.orderKey (b.levels level).addedFiles
  distinct : ∀ level, (b.levels level).addedFiles.Pairwise fun f g => f.number ≠ g.number
  mem : ∀ level, ∀ f ∈ (b.levels level).addedFiles, (level, f.number) ∈ numbers

section Apply

variable {b : Builder K V} {v v' : Version K V} {edit : VersionEdit K V} {numbers : List (ℕ × ℕ)}

omit [LinearOrder K] in
theorem VersionEdit.AddsNew.distinct (h : edit.AddsNew numbers) (level : ℕ) :
    (Builder.addedTo level edit.newfiles).Pairwise fun f g => f.number ≠ g.number := by
  have hpair := List.pairwise_map.1 h.1
  refine List.pairwise_map.2 ((hpair.sublist List.filter_sublist).imp_of_mem fun {p q} hp hq hne heq => hne ?_)
  have hlevel : p.1 = q.1 := by
    rw [of_decide_eq_true (List.mem_filter.1 hp).2, of_decide_eq_true (List.mem_filter.1 hq).2]
  exact Prod.ext hlevel heq

private theorem VersionEdit.AddsNew.fresh (h : edit.AddsNew numbers) (hb : b.Accumulates numbers) {level : ℕ} :
    ∀ f ∈ Builder.addedTo level edit.newfiles, ∀ g ∈ (b.levels level).addedFiles, f.number ≠ g.number := by
  intro f hf g hg heq
  refine h.2 (level, f.number) (List.mem_map.2 ⟨(level, f), Builder.mem_addedTo.1 hf, rfl⟩) ?_
  rw [heq]
  exact hb.mem level g hg

theorem Builder.Accumulates.apply (h : b.Accumulates numbers) (hnew : edit.AddsNew numbers) :
    (b.Apply edit).Accumulates (numbers ++ edit.added) := by
  have hspec := fun level => Builder.levels_apply (hnew.distinct level) (hnew.fresh h) (h.sorted level)
  refine ⟨fun level => ?_, fun level => (hspec level).2.1, fun level => ?_, fun level f hf => ?_⟩
  · rw [Builder.base_apply]
    exact h.base level
  · refine ((hspec level).1.pairwise_iff fun h => h.symm).2 ?_
    exact List.pairwise_append.2
      ⟨h.distinct level, hnew.distinct level, fun g hg f hf => (hnew.fresh h f hf g hg).symm⟩
  · rcases List.mem_append.1 ((hspec level).1.mem_iff.1 hf) with hf | hf
    · exact List.mem_append_left _ (h.mem level f hf)
    · exact List.mem_append_right _ (List.mem_map.2 ⟨(level, f), Builder.mem_addedTo.1 hf, rfl⟩)

theorem Builder.Accumulates.mono {numbers' : List (ℕ × ℕ)} (h : b.Accumulates numbers)
    (hsub : ∀ p ∈ numbers, p ∈ numbers') : b.Accumulates numbers' :=
  ⟨h.base, h.sorted, h.distinct, fun level f hf => hsub _ (h.mem level f hf)⟩

/-- Without base files, the files that are kept are added files. -/
theorem Builder.Accumulates.kept_eq (h : b.Accumulates numbers) {level : ℕ} (hlevel : level < kNumLevels) :
    b.kept level = (b.levels level).addedFiles.filter fun f => f.number ∉ (b.levels level).deletedfiles := by
  rw [Builder.kept, if_pos hlevel, h.base, Merge.splice_nil]

/-- A builder over the version that the first builder saves keeps what the first builder keeps after the edit. -/
private theorem kept_apply (h : b.Accumulates numbers) (hnew : edit.AddsNew numbers) (level : ℕ) :
    ((Builder.new ⟨b.kept, none⟩).Apply edit).kept level = (b.Apply edit).kept level := by
  by_cases hlevel : level < kNumLevels
  swap
  · rw [Builder.kept, if_neg hlevel, Builder.kept, if_neg hlevel]
  obtain ⟨hperm₁, hsorted₁, hdeleted₁⟩ := Builder.levels_apply (b := Builder.new ⟨b.kept, none⟩)
    (hnew.distinct level) (by simp [Builder.new]) List.Pairwise.nil
  obtain ⟨hperm₂, hsorted₂, hdeleted₂⟩ := Builder.levels_apply (hnew.distinct level) (hnew.fresh h) (h.sorted level)
  have hkept := h.kept_eq hlevel
  have hfresh : ∀ f ∈ Builder.addedTo level edit.newfiles, ∀ g ∈ b.kept level, f.number ≠ g.number := by
    intro f hf g hg
    rw [hkept] at hg
    exact hnew.fresh h f hf g (List.mem_filter.1 hg).1
  have hsplice : Merge.Sorted FileMetaData.orderKey
      (Merge.splice BySmallestKey (b.kept level)
        (((Builder.new ⟨b.kept, none⟩).Apply edit).levels level).addedFiles) := by
    refine Merge.splice_sorted _ (fun f g h => (bySmallestKey_eq_true.1 h).le)
      (fun f g h => bySmallestKey_eq_false.1 h) ?_ hsorted₁
    rw [hkept]
    exact List.Pairwise.sublist List.filter_sublist (h.sorted level)
  rw [(h.apply hnew).kept_eq hlevel, Builder.kept, if_pos hlevel, Builder.base_apply]
  symm
  refine eq_of_perm_of_sorted ?_ (hsorted₂.sublist List.filter_sublist) (hsplice.sublist List.filter_sublist) ?_
  · refine (hperm₂.filter _).trans ?_
    rw [Builder.filter_append_added hdeleted₂ (hnew.fresh h)]
    refine List.Perm.trans ?_ (((Merge.splice_perm _ _ _).trans (hperm₁.append_left _)).filter _).symm
    show List.Perm _ ((b.kept level ++ Builder.addedTo level edit.newfiles).filter _)
    rw [Builder.filter_append_added hdeleted₁ hfresh, hkept, List.filter_filter]
    refine List.Perm.of_eq (congrArg (· ++ _) (List.filter_congr fun f _ => ?_))
    simp [Builder.new, not_or]
  · exact ((h.apply hnew).distinct level).sublist List.filter_sublist

/-- The next version of the chain is what the one builder saves. -/
theorem saveTo_apply (h : b.Accumulates numbers) (hnew : edit.AddsNew numbers) :
    ((Builder.new ⟨b.kept, none⟩).Apply edit).SaveTo = (b.Apply edit).SaveTo := by
  have hkept : ((Builder.new ⟨b.kept, none⟩).Apply edit).kept = (b.Apply edit).kept :=
    funext fun level => kept_apply h hnew level
  refine Option.ext fun v => ?_
  rw [Builder.saveTo_eq_some, Builder.saveTo_eq_some, hkept]

end Apply

/-! ### Replaying records -/

theorem replay_append (records : List (VersionEdit K V)) (edit : VersionEdit K V) :
    replay (records ++ [edit]) = (replay records).Apply edit := by
  rw [replay, List.foldl_append]
  rfl

theorem result_eq_some {r : Replay K V} {vs : VersionSet K V} :
    r.result = some vs ↔
      ∃ nextFile lognumber lastsequence, r.nextFile = some nextFile ∧ r.lognumber = some lognumber ∧
        r.lastsequence = some lastsequence ∧ Builder.Ordered r.builder.kept ∧
        vs = ⟨⟨r.builder.kept, none⟩, r.compactPointer, nextFile + 1, lastsequence, lognumber,
          r.prevlognumber.getD 0⟩ := by
  unfold Replay.result
  constructor
  · intro h
    split at h
    · rename_i nextFile lognumber lastsequence hnext hlog hseq
      obtain ⟨v, hsave, rfl⟩ := Option.map_eq_some_iff.1 h
      obtain ⟨hordered, rfl⟩ := Builder.saveTo_eq_some.1 hsave
      exact ⟨nextFile, lognumber, lastsequence, hnext, hlog, hseq, hordered, rfl⟩
    · simp at h
  · rintro ⟨nextFile, lognumber, lastsequence, hnext, hlog, hseq, hordered, rfl⟩
    rw [hnext, hlog, hseq]
    exact Option.map_eq_some_iff.2 ⟨_, Builder.saveTo_eq_some.2 ⟨hordered, rfl⟩, rfl⟩

private theorem accumulates_new : (Replay.new : Replay K V).builder.Accumulates [] :=
  ⟨fun _ => rfl, fun _ => List.Pairwise.nil, fun _ => List.Pairwise.nil, fun _ _ hf => absurd hf List.not_mem_nil⟩

theorem accumulates_replay {records : List (VersionEdit K V)} (h : (records.flatMap VersionEdit.added).Nodup) :
    (replay records).builder.Accumulates (records.flatMap VersionEdit.added) := by
  induction records using List.reverseRecOn with
  | nil => exact accumulates_new
  | append_singleton records edit ih =>
    rw [List.flatMap_append, List.flatMap_singleton] at h ⊢
    obtain ⟨hrecords, hedit, hdisjoint⟩ := List.nodup_append'.1 h
    rw [replay_append]
    exact (ih hrecords).apply ⟨hedit, fun p hp hp' => hdisjoint hp' hp⟩

/-! ### Compaction pointers -/

omit [LinearOrder K] in
/-- An edit sets a compaction pointer or leaves it. -/
private theorem exists_setCompactPointers (edit : VersionEdit K V) (level : ℕ) :
    ∃ o : Option (InternalKey K), ∀ pointers,
      VersionSet.setCompactPointers pointers edit level = o.or (pointers level) := by
  unfold VersionSet.setCompactPointers
  induction edit.compactpointers with
  | nil => exact ⟨none, fun _ => rfl⟩
  | cons p compactpointers ih =>
    obtain ⟨o, ho⟩ := ih
    by_cases hp : level = p.1
    · refine ⟨o.or (some p.2), fun pointers => ?_⟩
      rw [List.foldl_cons, ho, hp, Function.update_self]
      cases o <;> rfl
    · refine ⟨o, fun pointers => ?_⟩
      rw [List.foldl_cons, ho, Function.update_of_ne hp]

omit [LinearOrder K] in
private theorem setCompactPointers_congr {edit : VersionEdit K V} {level : ℕ}
    {pointers pointers' : ℕ → Option (InternalKey K)} (h : pointers level = pointers' level) :
    VersionSet.setCompactPointers pointers edit level = VersionSet.setCompactPointers pointers' edit level := by
  obtain ⟨o, ho⟩ := exists_setCompactPointers edit level
  rw [ho, ho, h]

omit [LinearOrder K] in
private theorem setCompactPointers_idem (edit : VersionEdit K V) (pointers : ℕ → Option (InternalKey K)) (level : ℕ) :
    VersionSet.setCompactPointers (VersionSet.setCompactPointers pointers edit) edit level =
      VersionSet.setCompactPointers pointers edit level := by
  obtain ⟨o, ho⟩ := exists_setCompactPointers edit level
  rw [ho, ho]
  cases o <;> rfl

/-! ### The snapshot -/

omit [LinearOrder K] in
private theorem foldl_pointers (pointers start : ℕ → Option (InternalKey K)) (n level : ℕ) :
    ((List.range n).filterMap fun level => (pointers level).map fun key => (level, key)).foldl
      (fun acc (p : ℕ × InternalKey K) => Function.update acc p.1 (some p.2)) start level =
        if level < n then (pointers level).or (start level) else start level := by
  induction n with
  | zero => simp
  | succ n ih =>
    rw [List.range_succ, List.filterMap_append, List.foldl_append]
    by_cases hlevel : level = n
    · subst hlevel
      rw [if_neg (Nat.lt_irrefl level)] at ih
      cases hp : pointers level with
      | none => simp [hp, ih]
      | some key => simp [hp]
    · have hlt : level < n + 1 ↔ level < n := by omega
      rw [if_congr hlt rfl rfl, ← ih]
      cases hp : pointers n with
      | none => simp [hp]
      | some key => simp [hp, Function.update_of_ne hlevel]

omit [LinearOrder K] in
private theorem addedTo_flatMap (files : ℕ → List (FileMetaData K V)) (n level : ℕ) :
    Builder.addedTo level ((List.range n).flatMap fun level => (files level).map fun f => (level, f)) =
      if level < n then files level else [] := by
  induction n with
  | zero => rfl
  | succ n ih =>
    have happend : ∀ l l' : List (ℕ × FileMetaData K V),
        Builder.addedTo level (l ++ l') = Builder.addedTo level l ++ Builder.addedTo level l' := by
      simp [Builder.addedTo]
    rw [List.range_succ, List.flatMap_append, happend, ih, List.flatMap_singleton]
    by_cases hlevel : level = n
    · subst hlevel
      simp [Builder.addedTo, List.filter_map, Function.comp_def]
    · have hlt : level < n + 1 ↔ level < n := by omega
      have hnone : Builder.addedTo level ((files n).map fun f => (n, f)) = [] := by
        simp [Builder.addedTo, Ne.symm hlevel]
      rw [hnone, List.append_nil, if_congr hlt rfl rfl]

omit [LinearOrder K] in
private theorem nodup_added_snapshot {vs : VersionSet K V}
    (h : ∀ level, (vs.current.files level).Pairwise fun f g => f.number ≠ g.number) :
    vs.WriteSnapshot.added.Nodup := by
  have hadded : vs.WriteSnapshot.added =
      (List.range kNumLevels).flatMap fun level => (vs.current.files level).map fun f => (level, f.number) := by
    simp [VersionEdit.added, VersionSet.WriteSnapshot, List.map_flatMap, Function.comp_def]
  rw [hadded, List.nodup_flatMap]
  refine ⟨fun level _ => List.pairwise_map.2 ((h level).imp fun hne heq => hne (Prod.ext_iff.1 heq).2), ?_⟩
  refine List.nodup_range.imp fun {level level'} hne p hp hp' => hne ?_
  obtain ⟨f, _, rfl⟩ := List.mem_map.1 hp
  obtain ⟨g, _, heq⟩ := List.mem_map.1 hp'
  exact (Prod.ext_iff.1 heq).1.symm

/-- The snapshot of a version set stands for the edits that led to it. -/
theorem snapshot_replay {b : Builder K V} {numbers : List (ℕ × ℕ)} (h : b.Accumulates numbers)
    {vs : VersionSet K V} (hcurrent : vs.current = ⟨b.kept, none⟩) :
    let r := Replay.new.Apply vs.WriteSnapshot
    r.builder.Accumulates vs.WriteSnapshot.added ∧ (∀ p ∈ vs.WriteSnapshot.added, p ∈ numbers) ∧
      r.builder.kept = b.kept ∧ (∀ level < kNumLevels, r.compactPointer level = vs.compactPointer level) ∧
      r.prevlognumber = none := by
  intro r
  have hadded : ∀ level, Builder.addedTo level vs.WriteSnapshot.newfiles = b.kept level := by
    intro level
    refine (addedTo_flatMap _ _ level).trans ?_
    rw [hcurrent]
    split
    · rfl
    · rename_i hlevel
      exact (if_neg hlevel).symm
  have hsublist : ∀ level, (b.kept level).Sublist (b.levels level).addedFiles := by
    intro level
    by_cases hlevel : level < kNumLevels
    · rw [h.kept_eq hlevel]
      exact List.filter_sublist
    · rw [Builder.kept, if_neg hlevel]
      exact List.nil_sublist _
  have hmem : ∀ p ∈ vs.WriteSnapshot.newfiles, p.2 ∈ b.kept p.1 := by
    intro p hp
    rw [← hadded]
    exact Builder.mem_addedTo.2 hp
  have hnodup : vs.WriteSnapshot.added.Nodup :=
    nodup_added_snapshot fun level => by
      rw [hcurrent]
      exact (h.distinct level).sublist (hsublist level)
  have hnew : vs.WriteSnapshot.AddsNew [] := ⟨hnodup, fun p _ => List.not_mem_nil⟩
  have hacc : r.builder.Accumulates vs.WriteSnapshot.added := accumulates_new.apply hnew
  refine ⟨hacc, fun p hp => ?_, funext fun level => ?_, fun level hlevel => ?_, rfl⟩
  · obtain ⟨q, hq, rfl⟩ := List.mem_map.1 hp
    exact h.mem _ _ ((hsublist q.1).subset (hmem q hq))
  · by_cases hlevel : level < kNumLevels
    swap
    · rw [Builder.kept, if_neg hlevel, Builder.kept, if_neg hlevel]
    obtain ⟨hperm, hsorted, hdeleted⟩ := Builder.levels_apply (b := (Replay.new : Replay K V).builder)
      (hnew.distinct level) (hnew.fresh accumulates_new) (accumulates_new.sorted level)
    have hsame : (r.builder.levels level).addedFiles = b.kept level := by
      refine eq_of_perm_of_sorted ?_ hsorted ((h.sorted level).sublist (hsublist level)) (hacc.distinct level)
      rw [← hadded]
      exact hperm
    have hnone : ∀ number, number ∉ (r.builder.levels level).deletedfiles := by
      intro number hnumber
      have := ((hdeleted number).1 hnumber).1
      simp [Replay.new, Builder.new, VersionSet.WriteSnapshot, VersionEdit.empty] at this
    rw [hacc.kept_eq hlevel, hsame]
    exact List.filter_eq_self.2 fun f _ => decide_eq_true (hnone f.number)
  · refine (foldl_pointers vs.compactPointer _ kNumLevels level).trans ?_
    rw [if_pos hlevel]
    exact Option.or_none

/-! ### One edit -/

theorem logAndApply_eq_some {vs vs' : VersionSet K V} {edit : VersionEdit K V} (h : vs.LogAndApply edit = some vs') :
    ∃ v, ((Builder.new vs.current).Apply (vs.completeEdit edit)).SaveTo = some v ∧
      vs' = { vs with
        current := v
        compactPointer := VersionSet.setCompactPointers vs.compactPointer edit
        lognumber := edit.lognumber.getD vs.lognumber
        prevlognumber := edit.prevlognumber.getD vs.prevlognumber } := by
  simp only [VersionSet.LogAndApply] at h
  split at h
  · obtain ⟨v, hsave, rfl⟩ := Option.map_eq_some_iff.1 h
    exact ⟨v, hsave, rfl⟩
  · simp at h

/-- The recovered version set is the one in memory, as far as the manifest tells it. -/
structure SameVersions (r vs : VersionSet K V) : Prop where
  current : r.current = vs.current
  compactPointer : ∀ level < kNumLevels, r.compactPointer level = vs.compactPointer level
  lognumber : r.lognumber = vs.lognumber
  prevlognumber : r.prevlognumber = vs.prevlognumber

theorem result_written {r : Replay K V} {vs vs' : VersionSet K V} {edit : VersionEdit K V}
    {numbers : List (ℕ × ℕ)} (hacc : r.builder.Accumulates numbers) (hcurrent : vs.current = ⟨r.builder.kept, none⟩)
    (hnew : edit.AddsNew numbers) (hlog : vs.LogAndApply edit = some vs')
    (hpointers : ∀ level < kNumLevels,
      VersionSet.setCompactPointers r.compactPointer edit level = vs'.compactPointer level) :
    (r.Apply (vs.completeEdit edit)).builder.Accumulates (numbers ++ edit.added) ∧
      ∃ r', (r.Apply (vs.completeEdit edit)).result = some r' ∧ SameVersions r' vs' ∧
        r'.nextfilenumber = vs.nextfilenumber + 1 ∧ r'.lastsequence = vs.lastsequence := by
  obtain ⟨v, hsave, rfl⟩ := logAndApply_eq_some hlog
  have hnew' : (vs.completeEdit edit).AddsNew numbers := hnew
  rw [hcurrent, saveTo_apply hacc hnew'] at hsave
  obtain ⟨hordered, rfl⟩ := Builder.saveTo_eq_some.1 hsave
  refine ⟨hacc.apply hnew', _, result_eq_some.2 ⟨vs.nextfilenumber, edit.lognumber.getD vs.lognumber,
    vs.lastsequence, rfl, rfl, rfl, hordered, rfl⟩, ⟨rfl, hpointers, rfl, rfl⟩, rfl, rfl⟩

/-! ### Runs -/

/-- The file numbers that the edit uses. -/
def VersionEdit.numbers (edit : VersionEdit K V) : List ℕ :=
  edit.lognumber.toList ++ edit.prevlognumber.toList ++ edit.newfiles.map fun p => p.2.number

/-- The versions that a builder for each edit makes, one from the other. -/
def Version.chain (v : Version K V) (edits : List (VersionEdit K V)) : Option (Version K V) :=
  edits.foldlM (fun v edit => ((Builder.new v).Apply edit).SaveTo) v

theorem chain_append {v v' : Version K V} {edits : List (VersionEdit K V)} (h : v.chain edits = some v')
    (edit : VersionEdit K V) : v.chain (edits ++ [edit]) = ((Builder.new v').Apply edit).SaveTo := by
  rw [Version.chain, List.foldlM_append]
  refine (congrArg (· >>= _) h).trans ?_
  simp

namespace ManifestState

def Action.edit : Action K V → Option (VersionEdit K V)
  | .LogAndApply edit => some edit
  | _ => none

/-- The edits of the manifest at the beginning and those that are applied. -/
def history (disk : ManifestState K V) (actions : List (Action K V)) : List (VersionEdit K V) :=
  disk.records ++ actions.filterMap Action.edit

/-- What the callers take care of: a file is added to a level once, the numbers in an edit have been handed out, and
only a number that is not used is given back. -/
def Allowed (disk : ManifestState K V) (before : List (Action K V)) (s : ManifestState K V) : Action K V → Prop
  | .LogAndApply edit =>
    edit.AddsNew ((disk.history before).flatMap VersionEdit.added) ∧
      ∀ number ∈ edit.numbers, number < s.versions.nextfilenumber
  | .ReuseFileNumber fileNumber =>
    fileNumber ∉ (disk.history before).flatMap VersionEdit.numbers ∧ fileNumber ≠ s.manifestfilenumber
  | _ => True

/-- A manifest whose edits add each file to a level once and use numbers below the next file number. -/
structure Sound (disk : ManifestState K V) (recovered : ManifestState K V) : Prop where
  added : (disk.records.flatMap VersionEdit.added).Nodup
  numbers : ∀ number ∈ disk.records.flatMap VersionEdit.numbers, number < recovered.versions.nextfilenumber
  current : disk.current < recovered.versions.nextfilenumber

/-- The manifest replays to the version set in memory. -/
structure Replayed (disk s₀ : ManifestState K V) (actions : List (Action K V)) (s : ManifestState K V) : Prop where
  accumulates : (replay s.records).builder.Accumulates ((disk.history actions).flatMap VersionEdit.added)
  recovers : ∃ r, VersionSet.Recover s.records = some r ∧ SameVersions r s.versions ∧
    (∀ number ∈ (disk.history actions).flatMap VersionEdit.numbers, number < r.nextfilenumber) ∧
    s.current < r.nextfilenumber ∧
    ∀ edit, actions.getLast? = some (.LogAndApply edit) → r.lastsequence = s.versions.lastsequence
  chain : s₀.versions.current.chain (actions.filterMap Action.edit) = some s.versions.current
  numbers : ∀ number ∈ (disk.history actions).flatMap VersionEdit.numbers, number < s.versions.nextfilenumber
  manifest : s.manifestfilenumber < s.versions.nextfilenumber
  descriptor : s.descriptorlog → s.current = s.manifestfilenumber

variable {disk s₀ s s' : ManifestState K V} {actions : List (Action K V)}

omit [LinearOrder K] in
private theorem history_append_of_none (disk : ManifestState K V) (actions : List (Action K V))
    {a : Action K V} (ha : a.edit = none) :
    disk.history (actions ++ [a]) = disk.history actions := by
  simp [history, List.filterMap_append, ha]

omit [LinearOrder K] in
private theorem history_append_logAndApply (edit : VersionEdit K V) :
    disk.history (actions ++ [.LogAndApply edit]) = disk.history actions ++ [edit] := by
  simp [history, List.filterMap_append, Action.edit]

theorem replayed_init {reuseManifest : Bool} (hrec : disk.Recover reuseManifest = some s₀) (hsound : disk.Sound s₀) :
    Replayed disk s₀ [] s₀ := by
  obtain ⟨vs, hvs, rfl⟩ := Option.map_eq_some_iff.1 hrec
  have hhistory : disk.history [] = disk.records := List.append_nil _
  obtain ⟨nextFile, _, _, _, _, _, _, rfl⟩ := result_eq_some.1 hvs
  refine ⟨?_, ⟨_, hvs, ⟨rfl, fun _ _ => rfl, rfl, rfl⟩, ?_, hsound.current, fun _ _ => rfl⟩, rfl, ?_, ?_, ?_⟩
  · rw [hhistory]
    exact accumulates_replay hsound.added
  · rw [hhistory]
    exact hsound.numbers
  · rw [hhistory]
    exact hsound.numbers
  · cases reuseManifest
    · exact Nat.lt_succ_self nextFile
    · exact hsound.current
  · intro hreuse
    exact (if_pos hreuse).symm

/-- An action that writes nothing leaves what is replayed. -/
private theorem Replayed.keep (h : Replayed disk s₀ actions s) {a : Action K V} (ha : a.edit = none)
    {vs : VersionSet K V} (hsame : SameVersions s.versions vs)
    (hnumbers : ∀ number ∈ (disk.history actions).flatMap VersionEdit.numbers, number < vs.nextfilenumber)
    (hmanifest : s.manifestfilenumber < vs.nextfilenumber) :
    Replayed disk s₀ (actions ++ [a]) { s with versions := vs } := by
  obtain ⟨r, hr, hrs, hused, hcurrent, _⟩ := h.recovers
  have hhistory := history_append_of_none disk actions ha
  refine ⟨?_, ⟨r, hr, ?_, ?_, hcurrent, ?_⟩, ?_, ?_, hmanifest, h.descriptor⟩
  · rw [hhistory]
    exact h.accumulates
  · exact ⟨hrs.current.trans hsame.current, fun level hlevel => (hrs.compactPointer level hlevel).trans
      (hsame.compactPointer level hlevel), hrs.lognumber.trans hsame.lognumber,
      hrs.prevlognumber.trans hsame.prevlognumber⟩
  · rw [hhistory]
    exact hused
  · intro edit hlast
    rw [List.getLast?_concat, Option.some_inj] at hlast
    rw [hlast] at ha
    simp [Action.edit] at ha
  · rw [List.filterMap_append]
    simp only [List.filterMap_cons, ha, List.filterMap_nil, List.append_nil]
    rw [h.chain, hsame.current]
  · rw [hhistory]
    exact hnumbers

private theorem Replayed.recover (h : Replayed disk s₀ actions s) {reuseManifest : Bool}
    (hrec : s.Recover reuseManifest = some s') : Replayed disk s₀ (actions ++ [.Recover reuseManifest]) s' := by
  obtain ⟨vs, hvs, rfl⟩ := Option.map_eq_some_iff.1 hrec
  obtain ⟨r, hr, hrs, hused, hcurrent, _⟩ := h.recovers
  obtain rfl : vs = r := Option.some.inj (hvs.symm.trans hr)
  have hhistory := history_append_of_none disk actions (a := .Recover reuseManifest) rfl
  obtain ⟨nextFile, _, _, _, _, _, _, hvs'⟩ := result_eq_some.1 hvs
  refine ⟨?_, ⟨vs, hvs, ⟨rfl, fun _ _ => rfl, rfl, rfl⟩, ?_, hcurrent, fun _ _ => rfl⟩, ?_, ?_, ?_, ?_⟩
  · rw [hhistory]
    exact h.accumulates
  · rw [hhistory]
    exact hused
  · rw [List.filterMap_append]
    show Version.chain _ (_ ++ []) = some vs.current
    rw [List.append_nil, h.chain, hrs.current]
  · rw [hhistory]
    exact hused
  · cases reuseManifest
    · show vs.nextfilenumber - 1 < vs.nextfilenumber
      rw [hvs']
      exact Nat.lt_succ_self nextFile
    · exact hcurrent
  · intro hreuse
    exact (if_pos hreuse).symm

private theorem Replayed.logAndApply (h : Replayed disk s₀ actions s) {edit : VersionEdit K V}
    (hallowed : Allowed disk actions s (.LogAndApply edit)) (hlog : s.LogAndApply edit = some s') :
    Replayed disk s₀ (actions ++ [.LogAndApply edit]) s' := by
  obtain ⟨hnew, hnumbers⟩ := hallowed
  obtain ⟨vs, hvs, hs'⟩ := Option.map_eq_some_iff.1 hlog
  obtain ⟨r, hr, hrs, _⟩ := h.recovers
  obtain ⟨_, _, _, _, _, _, _, hreq⟩ := result_eq_some.1 hr
  obtain ⟨v, hsave, hvseq⟩ := logAndApply_eq_some hvs
  have hnext : vs.nextfilenumber = s.versions.nextfilenumber := by rw [hvseq]
  have hkept : s.versions.current = ⟨(replay s.records).builder.kept, none⟩ := by
    rw [← hrs.current, hreq]
  have hpointers : vs.compactPointer = VersionSet.setCompactPointers s.versions.compactPointer edit := by rw [hvseq]
  have hall : ∀ number ∈ (disk.history (actions ++ [.LogAndApply edit])).flatMap VersionEdit.numbers,
      number < s.versions.nextfilenumber := by
    intro number hnumber
    rw [history_append_logAndApply, List.flatMap_append, List.mem_append, List.flatMap_singleton] at hnumber
    exact hnumber.elim (h.numbers number) (hnumbers number)
  have hchain : s₀.versions.current.chain ((actions ++ [Action.LogAndApply edit]).filterMap Action.edit) =
      some vs.current := by
    rw [List.filterMap_append, hvseq, ← hsave]
    exact chain_append h.chain edit
  -- It remains to replay the records that are on the disk now.
  suffices hsuff : (replay s'.records).builder.Accumulates
        ((disk.history actions).flatMap VersionEdit.added ++ edit.added) ∧
      (∃ r', (replay s'.records).result = some r' ∧ SameVersions r' vs ∧
        r'.nextfilenumber = s.versions.nextfilenumber + 1 ∧ r'.lastsequence = s.versions.lastsequence) ∧
      s'.versions = vs ∧ s'.manifestfilenumber = s.manifestfilenumber ∧ s'.current = s.manifestfilenumber by
    obtain ⟨hacc, ⟨r', hr', hsame, hnext', hseq⟩, hversions, hmanifest, hcurrent⟩ := hsuff
    refine ⟨?_, ⟨r', hr', ?_, fun number hnumber => ?_, ?_, fun _ _ => ?_⟩, ?_, ?_, ?_, fun _ => ?_⟩
    · rw [history_append_logAndApply, List.flatMap_append, List.flatMap_singleton]
      exact hacc
    · rwa [hversions]
    · rw [hnext']
      exact (hall number hnumber).trans (Nat.lt_succ_self _)
    · rw [hnext', hcurrent]
      exact h.manifest.trans (Nat.lt_succ_self _)
    · rw [hseq, hversions, hvseq]
    · rw [hversions]
      exact hchain
    · rw [hversions, hnext]
      exact hall
    · rw [hversions, hnext, hmanifest]
      exact h.manifest
    · rw [hcurrent, hmanifest]
  split at hs'
  · rename_i hdescriptor
    subst hs'
    have hresult := result_written h.accumulates hkept hnew hvs fun level hlevel => by
      rw [hpointers]
      refine setCompactPointers_congr ?_
      rw [← hrs.compactPointer level hlevel, hreq]
    rw [← replay_append] at hresult
    exact ⟨hresult.1, hresult.2, rfl, rfl, h.descriptor hdescriptor⟩
  · subst hs'
    -- The snapshot has the compaction pointers of the edit already.
    have hcurrent : ({ s.versions with compactPointer := vs.compactPointer } : VersionSet K V).current =
        ⟨(replay s.records).builder.kept, none⟩ := hkept
    obtain ⟨hacc, hsub, hkept', hpointers', _⟩ := snapshot_replay h.accumulates hcurrent
    have hresult := result_written hacc (hkept.trans (by rw [hkept'])) ⟨hnew.1, fun p hp hp' =>
      hnew.2 p hp (hsub p hp')⟩ hvs fun level hlevel => by
        rw [setCompactPointers_congr (hpointers' level hlevel), hpointers]
        exact setCompactPointers_idem edit _ level
    exact ⟨hresult.1.mono fun p hp => (List.mem_append.1 hp).elim
      (fun hp => List.mem_append_left _ (hsub p hp)) (List.mem_append_right _), hresult.2, rfl, rfl, rfl⟩

theorem replayed_step (h : Replayed disk s₀ actions s) {a : Action K V} (hallowed : Allowed disk actions s a)
    (hstep : step s a = .next s') : Replayed disk s₀ (actions ++ [a]) s' := by
  cases a with
  | NewFileNumber =>
    cases hstep
    exact h.keep rfl ⟨rfl, fun _ _ => rfl, rfl, rfl⟩
      (fun number hnumber => (h.numbers number hnumber).trans (Nat.lt_succ_self _))
      (h.manifest.trans (Nat.lt_succ_self _))
  | ReuseFileNumber fileNumber =>
    cases hstep
    obtain ⟨hunused, hmanifest⟩ := hallowed
    unfold VersionSet.ReuseFileNumber
    split
    · rename_i hlast
      refine h.keep rfl ⟨rfl, fun _ _ => rfl, rfl, rfl⟩ (fun number hnumber => ?_) ?_
      · have hne : number ≠ fileNumber := fun heq => hunused (heq ▸ hnumber)
        have hlt := h.numbers number hnumber
        show number < fileNumber
        omega
      · have hlt := h.manifest
        show s.manifestfilenumber < fileNumber
        omega
    · exact h.keep rfl ⟨rfl, fun _ _ => rfl, rfl, rfl⟩ h.numbers h.manifest
  | MarkFileNumberUsed number =>
    cases hstep
    unfold VersionSet.MarkFileNumberUsed
    split
    · rename_i hle
      refine h.keep rfl ⟨rfl, fun _ _ => rfl, rfl, rfl⟩ (fun n hn => ?_) ?_
      · exact (h.numbers n hn).trans_le (Nat.le_succ_of_le hle)
      · exact h.manifest.trans_le (Nat.le_succ_of_le hle)
    · exact h.keep rfl ⟨rfl, fun _ _ => rfl, rfl, rfl⟩ h.numbers h.manifest
  | SetLastSequence seq =>
    obtain ⟨vs, hvs, rfl⟩ := Option.map_eq_some_iff.1 (Transition.Outcome.ofOption_eq_next.1 hstep)
    unfold VersionSet.SetLastSequence at hvs
    split at hvs
    · cases hvs
      exact h.keep rfl ⟨rfl, fun _ _ => rfl, rfl, rfl⟩ h.numbers h.manifest
    · simp at hvs
  | LogAndApply edit => exact h.logAndApply hallowed (Transition.Outcome.ofOption_eq_next.1 hstep)
  | Recover reuseManifest => exact h.recover (Transition.Outcome.ofOption_eq_next.1 hstep)

/-- In every state of every run the manifest replays to the versions in memory, which are those of the chain of the
edits, and no number that was ever used is handed out again. -/
theorem recover_eq_history {reuseManifest : Bool} (hrec : disk.Recover reuseManifest = some s₀)
    (hsound : disk.Sound s₀) (hallowed : Transition.MeetsAfter step (Allowed disk) s₀ actions)
    (hrun : run step s₀ actions = .next s) :
    ∃ r, VersionSet.Recover s.records = some r ∧ SameVersions r s.versions ∧
      s₀.versions.current.chain (actions.filterMap Action.edit) = some r.current ∧
      (∀ edit, actions.getLast? = some (.LogAndApply edit) → r.lastsequence = s.versions.lastsequence) ∧
      ∀ number ∈ (disk.history actions).flatMap VersionEdit.numbers, number < r.nextfilenumber := by
  have hinv := Transition.run_invariant_after (Replayed disk s₀) (replayed_init hrec hsound)
    (fun _ _ _ _ h => replayed_step h) hallowed hrun
  obtain ⟨r, hr, hsame, hused, _, hseq⟩ := hinv.recovers
  exact ⟨r, hr, hsame, hsame.current ▸ hinv.chain, hseq, hused⟩

/-- A file is added to level 0 and, after the database is opened again, moved to level 1. -/
def exampleActions : List (Action ℕ ℕ) :=
  let f : FileMetaData ℕ ℕ := ⟨3, 100, ⟨1, 5, .kTypeValue⟩, ⟨9, 4, .kTypeValue⟩, []⟩
  [.NewFileNumber, .SetLastSequence 5, .LogAndApply (VersionEdit.empty.AddFile 0 f), .Recover false,
    .LogAndApply (((VersionEdit.empty.DeleteFile 0 3).AddFile 1 f).SetCompactPointer 0 f.largest)]

private theorem allowed_example {s₀ : ManifestState ℕ ℕ} (hrec : NewDB.Recover false = some s₀) :
    Transition.MeetsAfter step (Allowed NewDB) s₀ exampleActions := by
  obtain rfl := Option.some.inj hrec
  refine Transition.meetsAfter_cons trivial rfl (Transition.meetsAfter_cons trivial rfl ?_)
  refine Transition.meetsAfter_cons ⟨⟨by decide, by decide⟩, by decide⟩ rfl ?_
  refine Transition.meetsAfter_cons trivial rfl ?_
  exact Transition.meetsAfter_cons ⟨⟨by decide, by decide⟩, by decide⟩ rfl (Transition.meetsAfter_nil _)

theorem recover_eq_history_example :
    ∃ (s₀ s : ManifestState ℕ ℕ) (r : VersionSet ℕ ℕ), NewDB.Recover false = some s₀ ∧
      run step s₀ exampleActions = .next s ∧ VersionSet.Recover s.records = some r ∧ SameVersions r s.versions := by
  obtain ⟨s₀, hs₀⟩ : ∃ s₀ : ManifestState ℕ ℕ, NewDB.Recover false = some s₀ := ⟨_, rfl⟩
  have hsound : NewDB.Sound s₀ := by
    obtain rfl := Option.some.inj hs₀
    exact ⟨by decide, by decide, by decide⟩
  obtain ⟨s, hs⟩ : ∃ s, run step s₀ exampleActions = .next s := by
    obtain rfl := Option.some.inj hs₀
    exact ⟨_, rfl⟩
  obtain ⟨r, hr, hsame, _⟩ := recover_eq_history hs₀ hsound (allowed_example hs₀) hs
  exact ⟨s₀, s, r, hs₀, hs, hr, hsame⟩

end ManifestState

end RedisDb
