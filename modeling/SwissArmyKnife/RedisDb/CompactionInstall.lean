import SwissArmyKnife.RedisDb.CompactionReads

/-!
# Installing the results of a compaction

A finished compaction is installed on the current version, which may have got files since the compaction was started.
`compacted_of_installed` says what the result is for reads; for a run without a flush in between,
`compaction_reads_iff` says when all reads as of the smallest snapshot or later see the same.
-/

namespace RedisDb

variable {K V : Type*} [LinearOrder K]

namespace CompactionState

/-! ### The edit -/

omit [LinearOrder K] in
private theorem foldl_deleteFile (level : ℕ) (files : List (FileMetaData K V)) (edit : VersionEdit K V) :
    files.foldl (fun edit f => edit.DeleteFile level f.number) edit =
      { edit with deletedfiles := edit.deletedfiles ++ files.map fun f => (level, f.number) } := by
  induction files generalizing edit with
  | nil => simp
  | cons f files ih =>
    rw [List.foldl_cons, ih]
    simp [VersionEdit.DeleteFile]

omit [LinearOrder K] in
private theorem foldl_addFile (level : ℕ) (files : List (FileMetaData K V)) (edit : VersionEdit K V) :
    files.foldl (fun edit f => edit.AddFile level f) edit =
      { edit with newfiles := edit.newfiles ++ files.map fun f => (level, f) } := by
  induction files generalizing edit with
  | nil => simp
  | cons f files ih =>
    rw [List.foldl_cons, ih]
    simp [VersionEdit.AddFile]

/-- The edit with which a compaction starts has no files. -/
structure CleanEdit (c : Compaction K V) : Prop where
  deletedfiles : c.edit.deletedfiles = []
  newfiles : c.edit.newfiles = []
  lognumber : c.edit.lognumber = none

omit [LinearOrder K] in
theorem resultEdit_spec {c : Compaction K V} (hclean : CleanEdit c) {cs : CompactionState K V}
    (hsame : SameInputs c cs.compaction) :
    cs.resultEdit.deletedfiles =
        (c.inputs0.map fun f => (c.level, f.number)) ++ c.inputs1.map (fun f => (c.level + 1, f.number)) ∧
      cs.resultEdit.newfiles = cs.outputs.map (fun f => (c.level + 1, f)) ∧ cs.resultEdit.lognumber = none := by
  unfold resultEdit Compaction.addInputDeletions
  simp only [foldl_deleteFile, foldl_addFile, hsame.level, hsame.edit, hsame.inputs0, hsame.inputs1,
    hclean.deletedfiles, hclean.newfiles, hclean.lognumber, List.nil_append, and_self]

omit [LinearOrder K] in
theorem resultEdit_prevlognumber (cs : CompactionState K V) :
    cs.resultEdit.prevlognumber = cs.compaction.edit.prevlognumber := by
  unfold resultEdit Compaction.addInputDeletions
  simp only [foldl_deleteFile, foldl_addFile]

/-! ### The outputs -/

/-- The loop is over and the last output is finished. -/
structure Finished (c : Compaction K V) (snap : ℕ) (cs : CompactionState K V) : Prop where
  progress : Progress c snap cs []
  builder : cs.builder = none

theorem Progress.finish {c : Compaction K V} {snap : ℕ} {cs : CompactionState K V} (h : Progress c snap cs [])
    (sizes : TableSizes K V) : Finished c snap (cs.FinishCompactionOutputFile sizes) := by
  obtain ⟨halike, hbuilder⟩ := alike_finish sizes cs
  have hsame := sameOutputs_finish sizes cs
  obtain ⟨done, hinput, hcurrent, hlast, hsub, hmem⟩ := h.position
  refine ⟨⟨halike.compaction ▸ h.same, halike.smallestsnapshot.trans h.smallestsnapshot, ?_, hsame.ok h.ok, done,
    hinput, halike.currentuserkey.trans hcurrent, halike.lastsequenceforkey.trans hlast, ?_, ?_⟩, hbuilder⟩
  · simp
  · rwa [hsame.written]
  · rwa [hsame.written]

theorem Finished.outputs {c : Compaction K V} {snap : ℕ} {cs : CompactionState K V} (h : Finished c snap cs)
    (hsorted : (MakeInputIterator c).Pairwise fun a b => a.key < b.key) :
    (∀ f ∈ cs.outputs, f.Ok) ∧ (cs.outputs.Pairwise fun f g => f.largest < g.smallest) ∧
      ∀ e, (∃ f ∈ cs.outputs, e ∈ f.entries) ↔
        e ∈ MakeInputIterator c ∧ Keeps c.inputversion c.level snap (MakeInputIterator c) e := by
  have hfiles : cs.files = cs.outputs := by simp [files, h.builder]
  have hok := h.progress.ok
  obtain ⟨done, hinput, -, -, hsub, hmem⟩ := h.progress.position
  rw [List.append_nil] at hinput
  subst hinput
  have hwritten : cs.written = cs.outputs.flatMap FileMetaData.entries := by rw [written, hfiles]
  rw [hfiles] at hok
  refine ⟨hok, ?_, fun e => ?_⟩
  · have hpair := hsorted.sublist hsub
    rw [hwritten, List.pairwise_flatMap] at hpair
    refine hpair.2.imp_of_mem fun {f g} hf hg hlt => ?_
    obtain ⟨a, ha, hlargest⟩ := (hok f hf).exists_largest
    obtain ⟨b, hb, hsmallest⟩ := (hok g hg).exists_smallest
    exact hlargest ▸ hsmallest ▸ hlt a ha b hb
  · have hout : e ∈ cs.written ↔ ∃ f ∈ cs.outputs, e ∈ f.entries := by rw [hwritten, List.mem_flatMap]
    rw [← hout]
    exact ⟨fun he => ⟨hsub.subset he, (hmem e (hsub.subset he)).1 he⟩, fun he => (hmem e he.1).2 he.2⟩

end CompactionState

open CompactionState

variable {vs vs' : VersionSet K V} {c : Compaction K V} {snap : ℕ} {cs : CompactionState K V}

/-- What the installation of a compaction assumes of the current version. -/
structure Installable (v : Version K V) (c : Compaction K V) (snap : ℕ) (cs : CompactionState K V) : Prop where
  sorted : v.Sorted
  inputs : InputsOk v c.level c.inputs0 c.inputs1
  level_lt : c.level + 1 < kNumLevels
  clean : CleanEdit c
  input_sorted : (MakeInputIterator c).Pairwise fun a b => a.key < b.key
  input : ∀ e, e ∈ MakeInputIterator c ↔ ∃ f ∈ c.inputs0 ++ c.inputs1, e ∈ f.entries
  finished : Finished c snap cs
  distinct : cs.outputs.Pairwise fun f g => f.number ≠ g.number
  fresh : ∀ f ∈ cs.outputs, ∀ g ∈ v.files (c.level + 1), f.number ≠ g.number
  base : ∀ e ∈ MakeInputIterator c, IsBase c.inputversion c.level e.userkey → IsBase v c.level e.userkey

namespace Installable

variable {v : Version K V} (h : Installable v c snap cs)

include h

theorem editOk : EditOk v cs.resultEdit := by
  obtain ⟨-, hnew, -⟩ := resultEdit_spec h.clean h.finished.progress.same
  obtain ⟨hok, -, -⟩ := h.finished.outputs h.input_sorted
  refine ⟨fun p hp => ?_, fun p hp => ?_, ?_, fun p hp => ?_⟩
  · obtain ⟨f, hf, rfl⟩ := List.mem_map.1 (hnew ▸ hp)
    exact hok f hf
  · obtain ⟨f, hf, rfl⟩ := List.mem_map.1 (hnew ▸ hp)
    exact h.level_lt
  · rw [hnew, List.pairwise_map]
    exact h.distinct
  · obtain ⟨f, hf, rfl⟩ := List.mem_map.1 (hnew ▸ hp)
    exact h.fresh f hf

theorem mem_deleted0 {f : FileMetaData K V} (hf : f ∈ v.files c.level) :
    (c.level, f.number) ∈ cs.resultEdit.deletedfiles ↔ f ∈ c.inputs0 := by
  rw [(resultEdit_spec h.clean h.finished.progress.same).1]
  simp only [List.mem_append, List.mem_map, Prod.mk.injEq, true_and, Nat.succ_ne_self, false_and, and_false,
    exists_false, or_false]
  constructor
  · rintro ⟨g, hg, hnumber⟩
    exact h.sorted.eq_of_number (h.inputs.mem0 g hg) hf hnumber ▸ hg
  · exact fun hmem => ⟨f, hmem, rfl⟩

theorem mem_deleted1 {f : FileMetaData K V} (hf : f ∈ v.files (c.level + 1)) :
    (c.level + 1, f.number) ∈ cs.resultEdit.deletedfiles ↔ f ∈ c.inputs1 := by
  rw [(resultEdit_spec h.clean h.finished.progress.same).1]
  simp only [List.mem_append, List.mem_map, Prod.mk.injEq, true_and, (Nat.succ_ne_self c.level).symm, false_and,
    and_false, exists_false, false_or]
  constructor
  · rintro ⟨g, hg, hnumber⟩
    exact h.sorted.eq_of_number (h.inputs.mem1 g hg) hf hnumber ▸ hg
  · exact fun hmem => ⟨f, hmem, rfl⟩

theorem mem_newfiles {level : ℕ} {f : FileMetaData K V} :
    (level, f) ∈ cs.resultEdit.newfiles ↔ level = c.level + 1 ∧ f ∈ cs.outputs := by
  rw [(resultEdit_spec h.clean h.finished.progress.same).2.1]
  simp only [List.mem_map, Prod.mk.injEq]
  constructor
  · rintro ⟨g, hg, rfl, rfl⟩
    exact ⟨rfl, hg⟩
  · rintro ⟨rfl, hf⟩
    exact ⟨f, hf, rfl, rfl⟩

theorem not_mem_deleted {level : ℕ} (hupper : level ≠ c.level) (hlower : level ≠ c.level + 1) (number : ℕ) :
    (level, number) ∉ cs.resultEdit.deletedfiles := by
  rw [(resultEdit_spec h.clean h.finished.progress.same).1]
  simp [hupper.symm, hlower.symm]

theorem compacted {vs vs' : VersionSet K V} (hcurrent : vs.current = v) (hinst : Installed vs cs.resultEdit vs') :
    Compacted v vs'.current c snap cs.outputs := by
  subst hcurrent
  have houtput := (h.finished.outputs h.input_sorted).2.2
  refine ⟨⟨h.inputs, fun level f => ?_, fun f hf e he => ?_⟩, h.input, houtput, h.base⟩
  · rw [hinst.mem_files, h.mem_newfiles]
    refine or_congr_left (and_congr_right fun hf => ?_)
    by_cases hupper : level = c.level
    · subst hupper
      rw [h.mem_deleted0 hf]
      simp
    · by_cases hlower : level = c.level + 1
      · subst hlower
        rw [h.mem_deleted1 hf]
        simp
      · simp [hupper, hlower, h.not_mem_deleted hupper hlower]
  · exact (h.input e).1 ((houtput e).1 ⟨f, hf, he⟩).1

/-- An output lies within the range of the inputs. -/
private theorem output_range {f : FileMetaData K V} (hf : f ∈ cs.outputs) :
    (∃ g ∈ c.inputs0 ++ c.inputs1, g.smallest ≤ f.smallest) ∧
    ∃ g ∈ c.inputs0 ++ c.inputs1, f.largest ≤ g.largest := by
  obtain ⟨hok, -, hmem⟩ := h.finished.outputs h.input_sorted
  have hinput : ∀ e ∈ f.entries, ∃ g ∈ c.inputs0 ++ c.inputs1, e ∈ g.entries ∧ g.Ok := by
    intro e he
    obtain ⟨g, hg, hge⟩ := (h.input e).1 ((hmem e).1 ⟨f, hf, he⟩).1
    refine ⟨g, hg, hge, ?_⟩
    rcases List.mem_append.1 hg with hg | hg
    · exact h.sorted.ok _ g (h.inputs.mem0 g hg)
    · exact h.sorted.ok _ g (h.inputs.mem1 g hg)
  obtain ⟨a, ha, hsmallest⟩ := (hok f hf).exists_smallest
  obtain ⟨b, hb, hlargest⟩ := (hok f hf).exists_largest
  obtain ⟨g, hg, hga, hgok⟩ := hinput a ha
  obtain ⟨g', hg', hgb, hgok'⟩ := hinput b hb
  exact ⟨⟨g, hg, hsmallest ▸ hgok.smallest_le hga⟩, g', hg', hlargest ▸ hgok'.le_largest hgb⟩

/-- The outputs overlap nothing in their level, so the assertion of the builder holds. -/
theorem isSome {vs : VersionSet K V} (hcurrent : vs.current = v) (houtside : Outside v c.level c.inputs0 c.inputs1) :
    ∃ vs', InstallCompactionResults vs cs = some vs' := by
  subst hcurrent
  obtain ⟨-, hsorted, -⟩ := h.finished.outputs h.input_sorted
  refine logAndApply_isSome h.sorted h.editOk ?_ fun level hlevel => ?_
  · rw [(resultEdit_spec h.clean h.finished.progress.same).2.2]
    simp
  refine List.pairwise_append.2 ⟨?_, ?_, fun f hf g hg => ?_⟩
  · exact ((h.sorted.disjoint level hlevel).sublist List.filter_sublist).imp Or.inl
  · rw [Builder.addedTo, List.pairwise_map, (resultEdit_spec h.clean h.finished.progress.same).2.1]
    refine List.Pairwise.sublist List.filter_sublist ?_
    rw [List.pairwise_map]
    exact hsorted.imp Or.inl
  · obtain ⟨rfl, hout⟩ := h.mem_newfiles.1 (Builder.mem_addedTo.1 hg)
    obtain ⟨hf, hleft⟩ := List.mem_filter.1 hf
    have hleft : f ∉ c.inputs1 := fun hmem => (of_decide_eq_true hleft) ((h.mem_deleted1 hf).2 hmem)
    obtain ⟨⟨a, ha, hsmallest⟩, b, hb, hlargest⟩ := h.output_range hout
    rcases houtside f hf hleft with hlt | hlt
    · exact Or.inl (lt_of_lt_of_le (hlt a ha) hsmallest)
    · exact Or.inr (lt_of_le_of_lt hlargest (hlt b hb))

end Installable

/-! ### A run without a flush in between -/

/-- The numbers of the outputs were taken from `first` on. -/
structure NumbersOk (first : ℕ) (cs : CompactionState K V) (next : ℕ) : Prop where
  first_le : first ≤ next
  range : ∀ number ∈ cs.files.map FileMetaData.number, first ≤ number ∧ number < next
  distinct : (cs.files.map FileMetaData.number).Pairwise (· ≠ ·)

omit [LinearOrder K] in
theorem numbersOk_new (c : Compaction K V) (snap next : ℕ) : NumbersOk next (CompactionState.new c snap) next :=
  ⟨Nat.le_refl _, by simp [CompactionState.new, files], by simp [CompactionState.new, files]⟩

private theorem NumbersOk.processKey {first : ℕ} {next : ℕ} (h : NumbersOk first cs next) {e : Entry K V}
    {r : CompactionState K V × ℕ} (hround : Round cs next e r) : NumbersOk first r.1 r.2 := by
  obtain ⟨hnumbers, hnext⟩ | ⟨hnumbers, hnext⟩ :
      r.1.files.map FileMetaData.number = cs.files.map FileMetaData.number ∧
      r.2 = next ∨ r.1.files.map FileMetaData.number = cs.files.map FileMetaData.number ++ [next] ∧
      r.2 = next + 1 := by
    rcases hround.outputs with ⟨-, hsame, hnext⟩ | ⟨-, hadds⟩
    · exact Or.inl ⟨hsame.numbers, hnext⟩
    · exact hadds.numbers
  · exact ⟨hnext ▸ h.first_le, by rw [hnumbers, hnext]; exact h.range, hnumbers ▸ h.distinct⟩
  · have hfirst := h.first_le
    refine ⟨by omega, fun number hmem => ?_, ?_⟩
    · rw [hnumbers, List.mem_append, List.mem_singleton] at hmem
      rcases hmem with hmem | rfl
      · have := h.range number hmem
        omega
      · omega
    · rw [hnumbers, List.pairwise_append]
      refine ⟨h.distinct, List.pairwise_singleton .., fun number hmem other hother => ?_⟩
      obtain rfl := List.mem_singleton.1 hother
      have := h.range number hmem
      omega

/-- The rounds of a whole run. -/
private theorem foldl_processKey (options : Options) (sizes : TableSizes K V) (hv : c.inputversion.Sorted)
    (hsorted : (MakeInputIterator c).Pairwise fun a b => a.key < b.key)
    (hseq : ∀ x ∈ MakeInputIterator c, x.sequence ≤ kMaxSequenceNumber) {rest : List (Entry K V)} {first next : ℕ}
    (h : Progress c snap cs rest) (hnumbers : NumbersOk first cs next) :
    Progress c snap (rest.foldl (processKey options sizes) (cs, next)).1 [] ∧
      NumbersOk first (rest.foldl (processKey options sizes) (cs, next)).1
        (rest.foldl (processKey options sizes) (cs, next)).2 := by
  induction rest generalizing cs next with
  | nil => exact ⟨h, hnumbers⟩
  | cons e rest ih =>
    have hround := processKey_round options sizes next (h.same.inputversion ▸ hv)
      (h.same.inputversion ▸ h.behind e (List.mem_cons_self ..))
    exact ih (h.processKey hv hsorted hseq options sizes next) (hnumbers.processKey hround)

/-- The compaction is what `PickCompaction` or `CompactRange` returns for the current version. -/
def Chosen (options : Options) (vs : VersionSet K V) (c : Compaction K V) : Prop :=
  (∃ next, VersionSet.PickCompaction options vs.current vs.compactPointer = some (c, next)) ∨
    ∃ level begin «end» next, level + 1 < kNumLevels ∧
      VersionSet.CompactRange options vs.current level begin «end» = some (c, next)

/-- Does the work of the compaction and installs its results. -/
def VersionSet.compact (options : Options) (sizes : TableSizes K V) (vs : VersionSet K V) (c : Compaction K V)
    (smallestsnapshot : ℕ) : Option (VersionSet K V) :=
  let state := DoCompactionWork options sizes c smallestsnapshot vs.nextfilenumber
  InstallCompactionResults { vs with nextfilenumber := state.2 } state.1

theorem Chosen.setUp {options : Options} (hsorted : vs.current.Sorted) (hseek : SeekOk vs.current)
    (h : Chosen options vs c) : SetUp options vs.current c := by
  rcases h with ⟨next, h⟩ | ⟨level, begin, «end», next, hlevel, h⟩
  · exact pickCompaction_setUp hsorted hseek h
  · exact compactRange_setUp hsorted hlevel h

private theorem sequence_le_of_contents {v : Version K V} (hv : v.Sorted) {e : Entry K V}
    (he : e ∈ v.contents) : e.sequence ≤ kMaxSequenceNumber := by
  obtain ⟨level, f, hf, he⟩ := he
  exact (hv.ok level f hf).sequence_le e he

theorem cleanEdit_setupOtherInputs (options : Options) (v : Version K V) (level : ℕ)
    (picked : List (FileMetaData K V)) :
    CleanEdit (VersionSet.SetupOtherInputs options v level picked).1 := by
  unfold VersionSet.SetupOtherInputs
  simp only
  cases (GetRange (VersionSet.expandInputs options v level (addBoundaryInputs (v.files level) picked)
    (VersionSet.otherInputs v level (addBoundaryInputs (v.files level) picked))).1).2 <;> exact ⟨rfl, rfl, rfl⟩

/-- A finished run can be installed. -/
theorem installable_doCompactionWork {options : Options} {v : Version K V} (sizes : TableSizes K V)
    (hsorted : v.Sorted) (hlayered : v.Layered Entry.tag) (hsetup : SetUp options v c) (snap next : ℕ)
    (hnumbers : ∀ f ∈ v.files (c.level + 1), f.number < next) :
    Installable v c snap (DoCompactionWork options sizes c snap next).1 := by
  obtain ⟨hlevel, hversion, hptrs, hinputs⟩ := hsetup.inputsOk hsorted
  obtain ⟨hinputsorted, hinput⟩ := makeInputIterator_spec hsorted hlayered hinputs
  have hseq : ∀ x ∈ MakeInputIterator c, x.sequence ≤ kMaxSequenceNumber := by
    intro x hx
    obtain ⟨f, hf, hmem⟩ := (hinput x).1 hx
    rcases List.mem_append.1 hf with hf | hf
    · exact (hsorted.ok _ f (hinputs.mem0 f hf)).sequence_le x hmem
    · exact (hsorted.ok _ f (hinputs.mem1 f hf)).sequence_le x hmem
  obtain ⟨hprogress, hnumbersOk⟩ := foldl_processKey options sizes (hversion ▸ hsorted) hinputsorted hseq
    (progress_new c snap hptrs) (numbersOk_new c snap next)
  have hfinished := hprogress.finish sizes
  have hfiles : (DoCompactionWork options sizes c snap next).1.outputs.map FileMetaData.number =
      (((MakeInputIterator c).foldl (processKey options sizes) (CompactionState.new c snap, next)).1.files).map
        FileMetaData.number := by
    rw [← (sameOutputs_finish sizes _).numbers]
    show _ = (files (DoCompactionWork options sizes c snap next).1).map _
    rw [files, show (DoCompactionWork options sizes c snap next).1.builder = none from hfinished.builder]
    simp
  refine ⟨hsorted, hinputs, hlevel, ?_, hinputsorted, hinput, hfinished, ?_, fun f hf g hg => ?_, fun e _ h => ?_⟩
  · obtain ⟨level, picked, -, -, rfl⟩ := hsetup
    exact cleanEdit_setupOtherInputs options v level picked
  · have := hnumbersOk.distinct
    rw [← hfiles, List.pairwise_map] at this
    exact this
  · have hmem : f.number ∈ (DoCompactionWork options sizes c snap next).1.outputs.map FileMetaData.number :=
      List.mem_map_of_mem hf
    rw [hfiles] at hmem
    have := hnumbersOk.range _ hmem
    have := hnumbers g hg
    omega
  · rwa [hversion] at h

/-- The condition under which no read changes: no value comes back, and as long as the snapshot is below the largest
sequence number, which the loop takes for the first occurrence of a key.  Otherwise everything is dropped, and the
files left out must read the same. -/
def ReadsPreserved (v : Version K V) (c : Compaction K V) (snap : ℕ) : Prop :=
  snap < kMaxSequenceNumber ∧ ¬ Resurrects v c snap ∨
    kMaxSequenceNumber ≤ snap ∧ ∀ u r, Mvcc.Reads Entry.userkey Entry.tag Entry.result v.contents u (seekTag snap) r →
      Mvcc.Reads Entry.userkey Entry.tag Entry.result (leftOut v c) u (seekTag snap) r

/-- A compaction preserves all reads as of the smallest snapshot or later just when the condition holds. -/
theorem compaction_reads_iff (options : Options) (sizes : TableSizes K V) (vs : VersionSet K V)
    (hsorted : vs.current.Sorted) (hlayered : vs.current.Layered Entry.sequence) (hseek : SeekOk vs.current)
    (hnumbers : ∀ level, ∀ f ∈ vs.current.files level, f.number < vs.nextfilenumber) (c : Compaction K V)
    (hc : Chosen options vs c) (snap : ℕ) :
    (∃ vs', vs.compact options sizes c snap = some vs' ∧ ∀ u s, snap ≤ s →
        (vs'.current.Get (LookupKey u s)).1 = (vs.current.Get (LookupKey u s)).1) ↔
      ReadsPreserved vs.current c snap := by
  have hsetup := hc.setUp hsorted hseek
  have hversion := (hsetup.inputsOk hsorted).2.1
  have hinstallable := installable_doCompactionWork sizes hsorted hlayered.tag hsetup snap vs.nextfilenumber
    (hnumbers _)
  obtain ⟨numbered, hnumbered, hcurrent⟩ : ∃ numbered : VersionSet K V, numbered = { vs with
      nextfilenumber := (DoCompactionWork options sizes c snap vs.nextfilenumber).2 } ∧
      numbered.current = vs.current := ⟨_, rfl, rfl⟩
  obtain ⟨vs', hinstall⟩ := hinstallable.isSome hcurrent (hsetup.outside hsorted)
  have hinstalled := logAndApply_installed (hcurrent ▸ hsorted) (hcurrent ▸ hinstallable.editOk) hinstall
  have hcompacted := hinstallable.compacted hcurrent hinstalled
  rw [hnumbered] at hinstall
  have hlayered' := hcompacted.layered hlayered.tag hcompacted.inputs.newer0
  have hget := Version.reads_iff hsorted hlayered.tag
  have hget' := Version.reads_iff hinstalled.sorted hlayered'
  have hunique : ∀ vs'', vs.compact options sizes c snap = some vs'' → vs'' = vs' := fun vs'' h =>
    Option.some.inj (h.symm.trans hinstall)
  constructor
  · rintro ⟨vs'', hsome, hreads⟩
    obtain rfl := hunique vs'' hsome
    rcases Nat.lt_or_ge snap kMaxSequenceNumber with hsnap | hsnap
    · refine Or.inl ⟨hsnap, fun hres => ?_⟩
      obtain ⟨u, value, hbefore, hafter⟩ := hcompacted.not_reads hsorted hlayered.tag hversion hres
      rw [hget] at hbefore
      rw [hget', hreads u snap (Nat.le_refl _), hbefore] at hafter
      exact absurd hafter (by simp)
    · refine Or.inr ⟨hsnap, fun u r hr => ?_⟩
      rw [← hcompacted.contents_eq_leftOut hsnap, hget', hreads u snap (Nat.le_refl _), ← hget]
      exact hr
  · intro hpreserved
    refine ⟨vs', hinstall, fun u s hs => ?_⟩
    rw [← hget']
    have hr := (hget u s _).2 rfl
    rcases hpreserved with ⟨hsnap, hres⟩ | ⟨hsnap, hleft⟩
    · exact hcompacted.reads hsorted hlayered.tag hinstalled.sorted hsnap hres hs hr
    · -- Every sequence number is at most the snapshot.
      have hold : ∀ t, snap ≤ t → ∀ e ∈ vs.current.contents, e.tag ≤ seekTag t := fun t ht e he =>
        tag_le_seekTag_iff.2 (Nat.le_trans (sequence_le_of_contents hsorted he) (Nat.le_trans hsnap ht))
      have hsub := hcompacted.contents_subset
      rw [hcompacted.contents_eq_leftOut hsnap] at hsub ⊢
      refine Mvcc.Reads.of_all_le (fun e he => hold snap (Nat.le_refl _) e (hsub he))
        (fun e he => hold s hs e (hsub he)) (hleft u _ ?_)
      exact Mvcc.Reads.of_all_le (hold s hs) (hold snap (Nat.le_refl _)) hr

/-! ### A value that comes back -/

/-- The files of level 2 share the user key 2: the first one ends with its deletion, the second one has the older
value. -/
def splitKeyVersions : VersionSet ℕ ℕ where
  current :=
    { files := fun
        | 1 => [⟨1, 1, ⟨1, 9, .kTypeValue⟩, ⟨1, 9, .kTypeValue⟩, [⟨⟨1, 9, .kTypeValue⟩, 7⟩]⟩]
        | 2 => [⟨2, 1, ⟨1, 4, .kTypeValue⟩, ⟨2, 3, .kTypeDeletion⟩,
            [⟨⟨1, 4, .kTypeValue⟩, 5⟩, ⟨⟨2, 3, .kTypeDeletion⟩, 0⟩]⟩,
          ⟨3, 1, ⟨2, 1, .kTypeValue⟩, ⟨2, 1, .kTypeValue⟩, [⟨⟨2, 1, .kTypeValue⟩, 6⟩]⟩]
        | _ => []
      filetocompact := none }
  compactPointer := fun _ => none
  nextfilenumber := 4
  lastsequence := 9
  lognumber := 0
  prevlognumber := 0

private theorem splitKey_files {level : ℕ} {f : FileMetaData ℕ ℕ} (hf : f ∈ splitKeyVersions.current.files level) :
    (level = 1 ∧ f ∈ splitKeyVersions.current.files 1) ∨ (level = 2 ∧ f ∈ splitKeyVersions.current.files 2) := by
  match level, hf with
  | 0, hf => exact absurd hf List.not_mem_nil
  | 1, hf => exact Or.inl ⟨rfl, hf⟩
  | 2, hf => exact Or.inr ⟨rfl, hf⟩
  | _ + 3, hf => exact absurd hf List.not_mem_nil

private theorem splitKey_sorted : splitKeyVersions.current.Sorted where
  ok level f hf := by
    rcases splitKey_files hf with ⟨rfl, hf⟩ | ⟨rfl, hf⟩
    · obtain rfl := List.mem_singleton.1 hf
      exact ⟨by decide, rfl, rfl, by decide⟩
    · rcases List.mem_cons.1 hf with rfl | hf
      · exact ⟨by decide, rfl, rfl, by decide⟩
      · obtain rfl := List.mem_singleton.1 hf
        exact ⟨by decide, rfl, rfl, by decide⟩
  disjoint level hlevel := by
    match level with
    | 1 => decide
    | 2 => decide
    | _ + 3 => exact List.Pairwise.nil
  numbers level := by
    match level with
    | 0 => exact List.Pairwise.nil
    | 1 => decide
    | 2 => decide
    | _ + 3 => exact List.Pairwise.nil
  deepest level hlevel := by
    match level, hlevel with
    | _ + 3, _ => rfl

private theorem splitKey_layered : splitKeyVersions.current.Layered Entry.sequence where
  levels level below hlt a ha b hb hkey := by
    obtain ⟨f, hf, ha⟩ := ha
    obtain ⟨g, hg, hb⟩ := hb
    rcases splitKey_files hf with ⟨rfl, hf⟩ | ⟨rfl, hf⟩ <;> rcases splitKey_files hg with ⟨rfl, hg⟩ | ⟨rfl, hg⟩
    · exact absurd hlt (by decide)
    · obtain rfl := List.mem_singleton.1 hf
      obtain rfl := List.mem_singleton.1 ha
      have hall : ∀ g ∈ splitKeyVersions.current.files 2, ∀ b ∈ g.entries, b.sequence < 9 := by decide
      exact hall g hg b hb
    · exact absurd hlt (by decide)
    · exact absurd hlt (by decide)
  level0 f hf := absurd hf List.not_mem_nil

private theorem splitKey_numbers (level : ℕ) :
    ∀ f ∈ splitKeyVersions.current.files level, f.number < splitKeyVersions.nextfilenumber := by
  intro f hf
  rcases splitKey_files hf with ⟨rfl, hf⟩ | ⟨rfl, hf⟩
  · exact (by decide : ∀ f ∈ splitKeyVersions.current.files 1, f.number < splitKeyVersions.nextfilenumber) f hf
  · exact (by decide : ∀ f ∈ splitKeyVersions.current.files 2, f.number < splitKeyVersions.nextfilenumber) f hf

/-- One byte for each entry. -/
def entrySizes : TableSizes ℕ ℕ := ⟨List.length, List.length⟩

/-- What `CompactRange` over all keys of level 1 returns. -/
def splitKeyCompaction : Compaction ℕ ℕ :=
  (VersionSet.SetupOtherInputs ⟨100⟩ splitKeyVersions.current 1 (splitKeyVersions.current.files 1)).1

private theorem splitKey_chosen : Chosen ⟨100⟩ splitKeyVersions splitKeyCompaction :=
  Or.inr ⟨1, none, none, _, by decide, rfl⟩

private theorem splitKey_seek : SeekOk splitKeyVersions.current := fun p hp => absurd hp (by simp [splitKeyVersions])

/-- The deletion of the key 2 is dropped, and its older value is in the file that is left out. -/
theorem compaction_resurrects_value :
    splitKeyVersions.current.Sorted ∧ splitKeyVersions.current.Layered Entry.sequence ∧
      Chosen ⟨100⟩ splitKeyVersions splitKeyCompaction ∧
      (splitKeyVersions.current.Get (LookupKey 2 10)).1 = none ∧
      (splitKeyVersions.compact ⟨100⟩ entrySizes splitKeyCompaction 10).map
        (fun vs => (vs.current.Get (LookupKey 2 10)).1) = some (some 6) ∧
      ¬ ∃ vs', splitKeyVersions.compact ⟨100⟩ entrySizes splitKeyCompaction 10 = some vs' ∧ ∀ u s, 10 ≤ s →
        (vs'.current.Get (LookupKey u s)).1 = (splitKeyVersions.current.Get (LookupKey u s)).1 := by
  have hbefore : (splitKeyVersions.current.Get (LookupKey 2 10)).1 = none := by decide +kernel
  have hafter : (splitKeyVersions.compact ⟨100⟩ entrySizes splitKeyCompaction 10).map
      (fun vs => (vs.current.Get (LookupKey 2 10)).1) = some (some 6) := by decide +kernel
  refine ⟨splitKey_sorted, splitKey_layered, splitKey_chosen, hbefore, hafter, ?_⟩
  rintro ⟨vs', hsome, hreads⟩
  rw [hsome, Option.map_some, hreads 2 10 (Nat.le_refl _), hbefore] at hafter
  exact absurd hafter (by decide)

private theorem splitKey_not_resurrects : ¬ Resurrects splitKeyVersions.current splitKeyCompaction 2 := by
  rintro ⟨e, ⟨f, hf, he⟩, htype, hnewest, -⟩
  have hall : ∀ f ∈ splitKeyCompaction.inputs1, ∀ e ∈ f.entries,
      ¬ (e.key.type = .kTypeDeletion ∧ e.tag ≤ seekTag 2) := by decide +kernel
  exact hall f hf e he ⟨htype, hnewest.le⟩

/-- The compaction of the same files as of the sequence number 2, for which the deletion is too new, preserves all
reads. -/
theorem compaction_reads_iff_early :
    ∃ vs', splitKeyVersions.compact ⟨100⟩ entrySizes splitKeyCompaction 2 = some vs' ∧
    ∀ u s, 2 ≤ s → (vs'.current.Get (LookupKey u s)).1 = (splitKeyVersions.current.Get (LookupKey u s)).1 :=
  (compaction_reads_iff ⟨100⟩ entrySizes splitKeyVersions splitKey_sorted splitKey_layered splitKey_seek
    splitKey_numbers splitKeyCompaction splitKey_chosen 2).2 (Or.inl ⟨by decide, splitKey_not_resurrects⟩)

end RedisDb
