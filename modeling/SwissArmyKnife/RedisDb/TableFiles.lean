import Mathlib.Data.Finset.Basic
import Mathlib.Data.Finset.Filter
import SwissArmyKnife.RedisDb.CompactionInstall
import SwissArmyKnife.RedisDb.ManifestReplay

/-!
# Table files

The table files in the directory, with the outputs that are pending.  `DeleteObsoleteFiles` deletes the table files
that are neither pending nor in the version in memory.  When a compaction cannot install its results, its outputs are
not pending any more and not in memory either, but the edit may be on the disk all the same: then the manifest replays
to a version whose files are gone (`failed_compaction_survives_iff`).
-/

namespace RedisDb

open Transition (Outcome run)

variable {K V : Type*} [LinearOrder K]

/-- The numbers of the files in the versions that the version set holds: only the current one. -/
def VersionSet.AddLiveFiles (vs : VersionSet K V) : List ℕ :=
  (List.range kNumLevels).flatMap fun level => (vs.current.files level).map FileMetaData.number

/-- `LogAndApply` when the manifest is not written and synced without an error.  The builder has set the compaction
pointers, and the edit may have reached the disk. -/
def ManifestState.failLogAndApply (s : ManifestState K V) (edit : VersionEdit K V) (recorded : Bool) :
    Option (ManifestState K V) :=
  (s.LogAndApply edit).map fun s' =>
    { s with
      versions := { s.versions with compactPointer := s'.versions.compactPointer }
      records := if recorded then s'.records else s.records }

structure TableFiles (K V : Type*) where
  manifest : ManifestState K V
  pendingoutputs : Finset ℕ
  /-- The numbers of the table files in the directory. -/
  tables : Finset ℕ
  /-- There was an error in the background: nothing is written until the database is opened again. -/
  bgerror : Bool

namespace TableFiles

def DeleteObsoleteFiles (s : TableFiles K V) : TableFiles K V :=
  { s with tables :=
      s.tables.filter fun number => number ∈ s.pendingoutputs ∨ number ∈ s.manifest.versions.AddLiveFiles }

/-- Takes a number for a table and writes the table. -/
def OpenOutput (s : TableFiles K V) : TableFiles K V :=
  let (number, vs) := s.manifest.versions.NewFileNumber
  { s with
    manifest := { s.manifest with versions := vs }
    pendingoutputs := insert number s.pendingoutputs
    tables := insert number s.tables }

/-- There is no result when the assertion that the output is pending fails. -/
def erasePending (s : TableFiles K V) (number : ℕ) : Option (TableFiles K V) :=
  if number ∈ s.pendingoutputs then some { s with pendingoutputs := s.pendingoutputs.erase number } else none

def CleanupCompaction (s : TableFiles K V) (cs : CompactionState K V) : Option (TableFiles K V) :=
  cs.outputs.foldlM (fun s out => s.erasePending out.number) s

/-- What follows a compaction, whether its results have been installed or not. -/
def afterCompaction (s : TableFiles K V) (cs : CompactionState K V) : Option (TableFiles K V) :=
  (s.CleanupCompaction cs).map DeleteObsoleteFiles

inductive Action (K V : Type*) where
  /-- A step of the version set.  `Recover` starts with no outputs pending and no error. -/
  | Manifest (a : ManifestState.Action K V)
  | OpenOutput
  /-- The table of a memtable is written, so it is not pending any more. -/
  | FinishOutput (number : ℕ)
  | DeleteObsoleteFiles
  /-- A compaction installs its results. -/
  | DoCompaction (cs : CompactionState K V)
  /-- A compaction does not install its results, and the edit is on the disk or not. -/
  | FailCompaction (cs : CompactionState K V) (recorded : Bool)

/-- No compaction runs before the manifest is open, as `Open` schedules the first one. -/
def step (s : TableFiles K V) : Action K V → Outcome (TableFiles K V)
  | .Manifest (.Recover reuseManifest) =>
    Outcome.ofOption ((s.manifest.Recover reuseManifest).map fun m => ⟨m, ∅, s.tables, false⟩)
  | .Manifest a =>
    if s.bgerror then .disabled else (s.manifest.step a).bind fun m => .next { s with manifest := m }
  | .OpenOutput => if s.bgerror then .disabled else .next s.OpenOutput
  | .FinishOutput number => if s.bgerror then .disabled else Outcome.ofOption (s.erasePending number)
  | .DeleteObsoleteFiles => if s.bgerror then .disabled else .next s.DeleteObsoleteFiles
  | .DoCompaction cs =>
    if s.bgerror ∨ ¬ s.manifest.descriptorlog then .disabled
    else Outcome.ofOption ((s.manifest.LogAndApply cs.resultEdit).bind fun m =>
      { s with manifest := m }.afterCompaction cs)
  | .FailCompaction cs recorded =>
    if s.bgerror ∨ ¬ s.manifest.descriptorlog then .disabled
    else Outcome.ofOption ((s.manifest.failLogAndApply cs.resultEdit recorded).bind fun m =>
      { s with manifest := m, bgerror := true }.afterCompaction cs)

/-! ### Runs -/

/-- The steps of the version set that a step is for the manifest on the disk. -/
def Action.manifestActions : Action K V → List (ManifestState.Action K V)
  | .Manifest a => [a]
  | .OpenOutput => [.NewFileNumber]
  | .FinishOutput _ => []
  | .DeleteObsoleteFiles => []
  | .DoCompaction cs => [.LogAndApply cs.resultEdit]
  | .FailCompaction cs recorded => if recorded then [.LogAndApply cs.resultEdit] else []

/-- The edits that have reached the disk. -/
def history (disk : ManifestState K V) (actions : List (Action K V)) : List (VersionEdit K V) :=
  disk.history (actions.flatMap Action.manifestActions)

/-- The edit of a compaction has only compaction pointers before the results are added. -/
structure CompactionOk (cs : CompactionState K V) : Prop where
  clean : CompactionState.CleanEdit cs.compaction
  prevlognumber : cs.compaction.edit.prevlognumber = none
  level_lt : cs.compaction.level + 1 < kNumLevels

/-- What the callers take care of: besides what the manifest needs, the files that an edit adds have been written and
are not pending any more. -/
def Allowed (disk : ManifestState K V) (before : List (Action K V)) (s : TableFiles K V) : Action K V → Prop
  | .Manifest a =>
    ManifestState.Allowed disk (before.flatMap Action.manifestActions) s.manifest a ∧
      (∀ edit ∈ a.edit, (∀ p ∈ edit.newfiles, p.2.number ∈ s.tables) ∧
        ∀ number ∈ edit.numbers, number ∉ s.pendingoutputs) ∧
      ∀ fileNumber, a = .ReuseFileNumber fileNumber → fileNumber ∉ s.pendingoutputs
  | .DoCompaction cs => CompactionOk cs
  | .FailCompaction cs _ => CompactionOk cs
  | _ => True

/-- No compaction fails after it has written an output. -/
def NoOutputLost : Action K V → Prop
  | .FailCompaction cs _ => cs.outputs = []
  | _ => True

/-- The manifest on the disk replays to the version of the state, and the files of the version are there. -/
structure Recoverable (m : ManifestState K V) (s : TableFiles K V) : Prop where
  records : m.records = s.manifest.records
  current : m.current = s.manifest.current
  inMemory : ¬ s.bgerror → m = s.manifest
  tables : ∀ number ∈ m.versions.AddLiveFiles, number ∈ s.tables

structure Kept (disk : ManifestState K V) (s₀ : TableFiles K V) (actions : List (Action K V)) (s : TableFiles K V) :
    Prop where
  recoverable : ∃ m, ManifestState.Replayed disk s₀.manifest (actions.flatMap Action.manifestActions) m ∧
    Recoverable m s
  pending : ∀ number ∈ s.pendingoutputs, number ∈ s.tables ∧ number < s.manifest.versions.nextfilenumber ∧
    number ∉ (history disk actions).flatMap VersionEdit.numbers

end TableFiles

/-! ### Live files -/

omit [LinearOrder K] in
theorem mem_addLiveFiles {vs : VersionSet K V} {number : ℕ} :
    number ∈ vs.AddLiveFiles ↔ ∃ level < kNumLevels, ∃ f ∈ vs.current.files level, f.number = number := by
  simp [VersionSet.AddLiveFiles]

omit [LinearOrder K] in
theorem mem_numbers_of_mem_added {edits : List (VersionEdit K V)} {p : ℕ × ℕ}
    (hp : p ∈ edits.flatMap VersionEdit.added) : p.2 ∈ edits.flatMap VersionEdit.numbers := by
  obtain ⟨edit, hedit, hp⟩ := List.mem_flatMap.1 hp
  obtain ⟨q, hq, rfl⟩ := List.mem_map.1 hp
  refine List.mem_flatMap.2 ⟨edit, hedit, List.mem_append_right _ (List.mem_map.2 ⟨q, hq, rfl⟩)⟩

theorem ManifestState.Replayed.current_eq {disk s₀ s : ManifestState K V} {actions : List (ManifestState.Action K V)}
    (h : Replayed disk s₀ actions s) : s.versions.current = ⟨(replay s.records).builder.kept, none⟩ := by
  obtain ⟨r, hr, hsame, _⟩ := h.recovers
  obtain ⟨_, _, _, _, _, _, _, rfl⟩ := result_eq_some.1 hr
  exact hsame.current.symm

/-- A live file has been added by an edit. -/
theorem ManifestState.Replayed.live_used {disk s₀ s : ManifestState K V} {actions : List (ManifestState.Action K V)}
    (h : Replayed disk s₀ actions s) {number : ℕ} (hlive : number ∈ s.versions.AddLiveFiles) :
    number ∈ (disk.history actions).flatMap VersionEdit.numbers := by
  obtain ⟨level, hlevel, f, hf, rfl⟩ := mem_addLiveFiles.1 hlive
  rw [h.current_eq] at hf
  change f ∈ (replay s.records).builder.kept level at hf
  rw [h.accumulates.kept_eq hlevel] at hf
  exact mem_numbers_of_mem_added (h.accumulates.mem level f (List.mem_filter.1 hf).1)

/-- The live files after an edit: those that are left, and those that the edit adds. -/
theorem mem_files_of_logAndApply {vs vs' : VersionSet K V} {edit : VersionEdit K V} {numbers : List (ℕ × ℕ)}
    (hnew : edit.AddsNew numbers) (h : vs.LogAndApply edit = some vs') {level : ℕ} {f : FileMetaData K V} :
    (f ∈ vs'.current.files level → f ∈ vs.current.files level ∨ (level, f) ∈ edit.newfiles) ∧
      (level < kNumLevels → (level, f) ∈ edit.newfiles → f ∈ vs'.current.files level) := by
  obtain ⟨v, hsave, rfl⟩ := logAndApply_eq_some h
  obtain ⟨_, rfl⟩ := Builder.saveTo_eq_some.1 hsave
  have hnew' : (vs.completeEdit edit).AddsNew numbers := hnew
  obtain ⟨hperm, _, hdeleted⟩ := Builder.levels_apply (b := Builder.new vs.current) (hnew'.distinct level)
    (by simp [Builder.new]) List.Pairwise.nil
  have hmem : f ∈ Merge.splice BySmallestKey (vs.current.files level)
        (((Builder.new vs.current).Apply (vs.completeEdit edit)).levels level).addedFiles ↔
      f ∈ vs.current.files level ∨ (level, f) ∈ edit.newfiles := by
    rw [((Merge.splice_perm _ _ _).trans (hperm.append_left _)).mem_iff]
    show f ∈ vs.current.files level ++ Builder.addedTo level edit.newfiles ↔ _
    rw [List.mem_append, Builder.mem_addedTo]
  constructor
  · intro hf
    simp only [Builder.kept] at hf
    split at hf
    · rw [Builder.base_apply] at hf
      exact hmem.1 (List.mem_filter.1 hf).1
    · exact absurd hf List.not_mem_nil
  · intro hlevel hf
    simp only [Builder.kept]
    rw [if_pos hlevel, Builder.base_apply]
    refine List.mem_filter.2 ⟨hmem.2 (Or.inr hf), decide_eq_true fun hgone => ?_⟩
    exact ((hdeleted _).1 hgone).2 f (Builder.mem_addedTo.2 hf) rfl

namespace TableFiles

/-! ### What the steps keep -/

variable {disk : ManifestState K V} {s₀ s s' : TableFiles K V} {actions : List (Action K V)}

omit [LinearOrder K] in
private theorem foldlM_erasePending {outputs : List (FileMetaData K V)} {s s' : TableFiles K V}
    (h : outputs.foldlM (fun s out => s.erasePending out.number) s = some s') :
    s' = { s with pendingoutputs := s'.pendingoutputs } ∧
      (∀ number, number ∈ s'.pendingoutputs ↔
        number ∈ s.pendingoutputs ∧ number ∉ outputs.map FileMetaData.number) ∧
      (∀ out ∈ outputs, out.number ∈ s.pendingoutputs) ∧ (outputs.map FileMetaData.number).Nodup := by
  induction outputs generalizing s with
  | nil =>
    cases h
    simp
  | cons out outputs ih =>
    rw [List.foldlM_cons] at h
    obtain ⟨t, ht, h⟩ := Option.bind_eq_some_iff.1 h
    unfold erasePending at ht
    split at ht
    · rename_i hout
      cases ht
      obtain ⟨heq, hpending, hall, hnodup⟩ := ih h
      refine ⟨heq, fun number => ?_, fun out' hout' => ?_, ?_⟩
      · rw [hpending, Finset.mem_erase, List.map_cons, List.mem_cons]
        tauto
      · rcases List.mem_cons.1 hout' with rfl | hout'
        · exact hout
        · exact Finset.mem_of_mem_erase (hall out' hout')
      · refine List.nodup_cons.2 ⟨fun hmem => ?_, hnodup⟩
        obtain ⟨out', hout', heq⟩ := List.mem_map.1 hmem
        exact Finset.ne_of_mem_erase (hall out' hout') heq
    · simp at ht

omit [LinearOrder K] in
/-- What is left after a compaction. -/
theorem afterCompaction_eq_some {cs : CompactionState K V} (h : s.afterCompaction cs = some s') :
    s'.manifest = s.manifest ∧ s'.bgerror = s.bgerror ∧
      (∀ number, number ∈ s'.pendingoutputs ↔
        number ∈ s.pendingoutputs ∧ number ∉ cs.outputs.map FileMetaData.number) ∧
      (∀ number, number ∈ s'.tables ↔
        number ∈ s.tables ∧ (number ∈ s'.pendingoutputs ∨ number ∈ s.manifest.versions.AddLiveFiles)) ∧
      (∀ out ∈ cs.outputs, out.number ∈ s.pendingoutputs) ∧ (cs.outputs.map FileMetaData.number).Nodup := by
  obtain ⟨t, ht, rfl⟩ := Option.map_eq_some_iff.1 h
  obtain ⟨heq, hpending, hall, hnodup⟩ := foldlM_erasePending ht
  refine ⟨?_, ?_, hpending, fun number => ?_, hall, hnodup⟩
  · rw [heq]
    rfl
  · rw [heq]
    rfl
  · rw [DeleteObsoleteFiles, Finset.mem_filter]
    rw [heq]

omit [LinearOrder K] in
private theorem history_append (a : Action K V) :
    history disk (actions ++ [a]) = history disk actions ++
      a.manifestActions.filterMap ManifestState.Action.edit := by
  simp [history, ManifestState.history, List.flatMap_append, List.filterMap_append]

section Result

variable {cs : CompactionState K V}

omit [LinearOrder K] in
private theorem newfiles_resultEdit (hok : CompactionOk cs) :
    cs.resultEdit.newfiles = cs.outputs.map fun f => (cs.compaction.level + 1, f) :=
  (CompactionState.resultEdit_spec hok.clean (CompactionState.SameInputs.refl _)).2.1

omit [LinearOrder K] in
private theorem numbers_resultEdit (hok : CompactionOk cs) :
    cs.resultEdit.numbers = cs.outputs.map FileMetaData.number := by
  have hlog := (CompactionState.resultEdit_spec hok.clean (CompactionState.SameInputs.refl _)).2.2
  rw [VersionEdit.numbers, hlog, CompactionState.resultEdit_prevlognumber, hok.prevlognumber,
    newfiles_resultEdit hok, List.map_map]
  rfl

/-- The results of a compaction may be recorded, as its outputs have new numbers. -/
private theorem allowed_resultEdit (h : Kept disk s₀ actions s) (hok : CompactionOk cs)
    (hpending : ∀ out ∈ cs.outputs, out.number ∈ s.pendingoutputs)
    (hnodup : (cs.outputs.map FileMetaData.number).Nodup) :
    ManifestState.Allowed disk (actions.flatMap Action.manifestActions) s.manifest (.LogAndApply cs.resultEdit) := by
  have hadded : cs.resultEdit.added = cs.outputs.map fun f => (cs.compaction.level + 1, f.number) := by
    rw [VersionEdit.added, newfiles_resultEdit hok, List.map_map]
    rfl
  refine ⟨⟨?_, fun p hp hp' => ?_⟩, fun number hnumber => ?_⟩
  · rw [hadded]
    have hinj : Function.Injective fun number : ℕ => (cs.compaction.level + 1, number) :=
      fun a b hab => (Prod.ext_iff.1 hab).2
    have := hnodup.map hinj
    rwa [List.map_map] at this
  · rw [hadded] at hp
    obtain ⟨out, hout, rfl⟩ := List.mem_map.1 hp
    exact (h.pending _ (hpending out hout)).2.2 (mem_numbers_of_mem_added hp')
  · rw [numbers_resultEdit hok] at hnumber
    obtain ⟨out, hout, rfl⟩ := List.mem_map.1 hnumber
    exact (h.pending _ (hpending out hout)).2.1

end Result

section Manifest

variable {m m' : ManifestState K V} {before : List (ManifestState.Action K V)} {a : ManifestState.Action K V}

/-- A step of the version set makes only the files live that an edit adds. -/
private theorem live_step (hrecover : ∀ reuseManifest, a ≠ .Recover reuseManifest)
    (hallowed : ManifestState.Allowed disk before m a) (hstep : m.step a = .next m') {number : ℕ}
    (hlive : number ∈ m'.versions.AddLiveFiles) :
    number ∈ m.versions.AddLiveFiles ∨ ∃ edit ∈ a.edit, ∃ p ∈ edit.newfiles, p.2.number = number := by
  cases a with
  | NewFileNumber =>
    cases hstep
    exact Or.inl hlive
  | ReuseFileNumber fileNumber =>
    cases hstep
    unfold VersionSet.ReuseFileNumber at hlive
    split at hlive <;> exact Or.inl hlive
  | MarkFileNumberUsed number =>
    cases hstep
    unfold VersionSet.MarkFileNumberUsed at hlive
    split at hlive <;> exact Or.inl hlive
  | SetLastSequence seq =>
    obtain ⟨vs, hvs, rfl⟩ := Option.map_eq_some_iff.1 (Transition.Outcome.ofOption_eq_next.1 hstep)
    unfold VersionSet.SetLastSequence at hvs
    split at hvs
    · cases hvs
      exact Or.inl hlive
    · simp at hvs
  | LogAndApply edit =>
    obtain ⟨vs, hvs, hm'⟩ := Option.map_eq_some_iff.1 (Transition.Outcome.ofOption_eq_next.1 hstep)
    have hversions : m'.versions = vs := by
      rw [← hm']
      split <;> rfl
    rw [hversions] at hlive
    obtain ⟨level, hlevel, f, hf, rfl⟩ := mem_addLiveFiles.1 hlive
    rcases (mem_files_of_logAndApply hallowed.1 hvs).1 hf with hf | hf
    · exact Or.inl (mem_addLiveFiles.2 ⟨level, hlevel, f, hf, rfl⟩)
    · exact Or.inr ⟨edit, rfl, _, hf, rfl⟩
  | Recover reuseManifest => exact absurd rfl (hrecover reuseManifest)

/-- A number that has been handed out stays so, unless it is given back. -/
private theorem lt_nextfilenumber_step (hrecover : ∀ reuseManifest, a ≠ .Recover reuseManifest)
    (hstep : m.step a = .next m') {number : ℕ} (hlt : number < m.versions.nextfilenumber)
    (hreuse : ∀ fileNumber, a = .ReuseFileNumber fileNumber → number ≠ fileNumber) :
    number < m'.versions.nextfilenumber := by
  cases a with
  | NewFileNumber =>
    cases hstep
    exact hlt.trans (Nat.lt_succ_self _)
  | ReuseFileNumber fileNumber =>
    cases hstep
    have hne := hreuse fileNumber rfl
    show number < (m.versions.ReuseFileNumber fileNumber).nextfilenumber
    unfold VersionSet.ReuseFileNumber
    split
    · show number < fileNumber
      omega
    · exact hlt
  | MarkFileNumberUsed n =>
    cases hstep
    show number < (m.versions.MarkFileNumberUsed n).nextfilenumber
    unfold VersionSet.MarkFileNumberUsed
    split
    · show number < n + 1
      omega
    · exact hlt
  | SetLastSequence seq =>
    obtain ⟨vs, hvs, rfl⟩ := Option.map_eq_some_iff.1 (Transition.Outcome.ofOption_eq_next.1 hstep)
    unfold VersionSet.SetLastSequence at hvs
    split at hvs
    · cases hvs
      exact hlt
    · simp at hvs
  | LogAndApply edit =>
    obtain ⟨vs, hvs, hm'⟩ := Option.map_eq_some_iff.1 (Transition.Outcome.ofOption_eq_next.1 hstep)
    obtain ⟨v, _, hvs'⟩ := logAndApply_eq_some hvs
    have hversions : m'.versions = vs := by
      rw [← hm']
      split <;> rfl
    rw [hversions, hvs']
    exact hlt
  | Recover reuseManifest => exact absurd rfl (hrecover reuseManifest)

end Manifest

theorem kept_init {reuseManifest : Bool} {m₀ : ManifestState K V} {tables : Finset ℕ}
    (hrec : disk.Recover reuseManifest = some m₀) (hsound : disk.Sound m₀)
    (htables : ∀ number ∈ m₀.versions.AddLiveFiles, number ∈ tables) :
    Kept disk ⟨m₀, ∅, tables, false⟩ [] ⟨m₀, ∅, tables, false⟩ :=
  ⟨⟨m₀, ManifestState.replayed_init hrec hsound, rfl, rfl, fun _ => rfl, htables⟩,
    fun _ hnumber => absurd hnumber (Finset.notMem_empty _)⟩

/-- Until there is an error, the manifest is the one in memory. -/
theorem Kept.replayed (h : Kept disk s₀ actions s) (hbgerror : ¬ s.bgerror) :
    ManifestState.Replayed disk s₀.manifest (actions.flatMap Action.manifestActions) s.manifest ∧
      ∀ number ∈ s.manifest.versions.AddLiveFiles, number ∈ s.tables := by
  obtain ⟨m, hm, hrec⟩ := h.recoverable
  obtain rfl := hrec.inMemory hbgerror
  exact ⟨hm, hrec.tables⟩

omit [LinearOrder K] in
private theorem flatMap_append (a : Action K V) :
    (actions ++ [a]).flatMap Action.manifestActions =
      actions.flatMap Action.manifestActions ++ a.manifestActions := by
  rw [List.flatMap_append, List.flatMap_singleton]

private theorem Kept.manifest (h : Kept disk s₀ actions s) {a : ManifestState.Action K V} {m : ManifestState K V}
    (hbgerror : ¬ s.bgerror) (hrecover : ∀ reuseManifest, a ≠ .Recover reuseManifest)
    (hallowed : Allowed disk actions s (.Manifest a)) (hstep : s.manifest.step a = .next m) :
    Kept disk s₀ (actions ++ [.Manifest a]) { s with manifest := m } := by
  obtain ⟨hm, htables⟩ := h.replayed hbgerror
  obtain ⟨hmanifest, hedit, hreuse⟩ := hallowed
  refine ⟨⟨m, ?_, rfl, rfl, fun _ => rfl, fun number hlive => ?_⟩, fun number hnumber => ?_⟩
  · rw [flatMap_append]
    exact ManifestState.replayed_step hm hmanifest hstep
  · rcases live_step hrecover hmanifest hstep hlive with hold | ⟨edit, ha, p, hp, rfl⟩
    · exact htables number hold
    · exact (hedit edit ha).1 p hp
  · obtain ⟨htable, hlt, hunused⟩ := h.pending number hnumber
    refine ⟨htable, lt_nextfilenumber_step hrecover hstep hlt fun fileNumber ha heq => ?_, ?_⟩
    · exact hreuse fileNumber ha (heq ▸ hnumber)
    · rw [history_append, List.flatMap_append, List.mem_append, not_or]
      refine ⟨hunused, fun hmem => ?_⟩
      obtain ⟨edit, hmem, hnumber'⟩ := List.mem_flatMap.1 hmem
      obtain ⟨a', ha', heq⟩ := List.mem_filterMap.1 hmem
      obtain rfl := List.mem_singleton.1 ha'
      exact (hedit edit heq).2 number hnumber' hnumber

private theorem Kept.recover (h : Kept disk s₀ actions s) {reuseManifest : Bool} {m : ManifestState K V}
    (hrec : s.manifest.Recover reuseManifest = some m) :
    Kept disk s₀ (actions ++ [.Manifest (.Recover reuseManifest)]) ⟨m, ∅, s.tables, false⟩ := by
  obtain ⟨m₁, hm, hr⟩ := h.recoverable
  have hrec' : m₁.Recover reuseManifest = some m := by
    rw [← hrec, ManifestState.Recover, ManifestState.Recover, hr.records, hr.current]
  have hm' := ManifestState.replayed_step hm (a := .Recover reuseManifest) trivial
    (Transition.Outcome.ofOption_eq_next.2 hrec')
  have hcurrent : m.versions.current = m₁.versions.current := by
    have hrecords : m.records = m₁.records := by
      obtain ⟨_, _, rfl⟩ := Option.map_eq_some_iff.1 hrec'
      rfl
    rw [hm'.current_eq, hm.current_eq, hrecords]
  refine ⟨⟨m, ?_, rfl, rfl, fun _ => rfl, fun number hlive => hr.tables number ?_⟩,
    fun _ hnumber => absurd hnumber (Finset.notMem_empty _)⟩
  · rw [flatMap_append]
    exact hm'
  · rwa [VersionSet.AddLiveFiles, hcurrent] at hlive

private theorem Kept.openOutput (h : Kept disk s₀ actions s) (hbgerror : ¬ s.bgerror) :
    Kept disk s₀ (actions ++ [.OpenOutput]) s.OpenOutput := by
  obtain ⟨hm, htables⟩ := h.replayed hbgerror
  refine ⟨⟨s.OpenOutput.manifest, ?_, rfl, rfl, fun _ => rfl, fun number hlive => ?_⟩, fun number hnumber => ?_⟩
  · rw [flatMap_append]
    exact ManifestState.replayed_step hm (a := .NewFileNumber) trivial rfl
  · exact Finset.mem_insert_of_mem (htables number hlive)
  · have hhistory : history disk (actions ++ [.OpenOutput]) = history disk actions := by
      rw [history_append]
      exact List.append_nil _
    rw [hhistory]
    rcases Finset.mem_insert.1 hnumber with rfl | hnumber
    · exact ⟨Finset.mem_insert_self _ _, Nat.lt_succ_self _, fun hused => Nat.lt_irrefl _ (hm.numbers _ hused)⟩
    · obtain ⟨htable, hlt, hunused⟩ := h.pending number hnumber
      exact ⟨Finset.mem_insert_of_mem htable, hlt.trans (Nat.lt_succ_self _), hunused⟩

/-- A step that writes nothing, drops pending outputs and keeps the files that are pending or live. -/
private theorem Kept.shrink (h : Kept disk s₀ actions s) (hbgerror : ¬ s.bgerror) {a : Action K V}
    (ha : a.manifestActions = []) (hmanifest : s'.manifest = s.manifest)
    (hpending : ∀ number ∈ s'.pendingoutputs, number ∈ s.pendingoutputs)
    (htables : ∀ number ∈ s.tables,
      number ∈ s'.pendingoutputs ∨ number ∈ s.manifest.versions.AddLiveFiles → number ∈ s'.tables) :
    Kept disk s₀ (actions ++ [a]) s' := by
  obtain ⟨hm, hlive⟩ := h.replayed hbgerror
  have hhistory : history disk (actions ++ [a]) = history disk actions := by
    rw [history_append, ha]
    exact List.append_nil _
  refine ⟨⟨s'.manifest, ?_, rfl, rfl, fun _ => rfl, fun number hnumber => ?_⟩, fun number hnumber => ?_⟩
  · rw [flatMap_append, ha, List.append_nil, hmanifest]
    exact hm
  · rw [hmanifest] at hnumber
    exact htables number (hlive number hnumber) (Or.inr hnumber)
  · obtain ⟨htable, hlt, hunused⟩ := h.pending number (hpending number hnumber)
    rw [hhistory, hmanifest]
    exact ⟨htables number htable (Or.inl hnumber), hlt, hunused⟩

private theorem Kept.doCompaction (h : Kept disk s₀ actions s) {cs : CompactionState K V} (hok : CompactionOk cs)
    (hstep : step s (.DoCompaction cs) = .next s') : Kept disk s₀ (actions ++ [.DoCompaction cs]) s' := by
  simp only [step] at hstep
  split at hstep
  · simp at hstep
  rename_i hguard
  have hbgerror : ¬ s.bgerror := fun h => hguard (Or.inl h)
  obtain ⟨hm, hlive⟩ := h.replayed hbgerror
  obtain ⟨m, hlog, hafter⟩ := Option.bind_eq_some_iff.1 (Transition.Outcome.ofOption_eq_next.1 hstep)
  obtain ⟨hmanifest, _, hpending, htables, hall, hnodup⟩ := afterCompaction_eq_some hafter
  have hallowed := allowed_resultEdit h hok hall hnodup
  have hlog' : s.manifest.step (.LogAndApply cs.resultEdit) = .next m := Transition.Outcome.ofOption_eq_next.2 hlog
  have hnoRecover : ∀ reuseManifest, ManifestState.Action.LogAndApply cs.resultEdit ≠ .Recover reuseManifest :=
    fun _ => nofun
  refine ⟨⟨s'.manifest, ?_, rfl, rfl, fun _ => rfl, fun number hnumber => ?_⟩, fun number hnumber => ?_⟩
  · rw [flatMap_append, hmanifest]
    exact ManifestState.replayed_step hm hallowed hlog'
  · rw [hmanifest] at hnumber
    refine (htables number).2 ⟨?_, Or.inr hnumber⟩
    rcases live_step hnoRecover hallowed hlog' hnumber with hold | ⟨edit, ha, p, hp, rfl⟩
    · exact hlive number hold
    · obtain rfl := Option.some.inj ha
      rw [newfiles_resultEdit hok] at hp
      obtain ⟨out, hout, rfl⟩ := List.mem_map.1 hp
      exact (h.pending _ (hall out hout)).1
  · obtain ⟨hbefore, hnot⟩ := (hpending number).1 hnumber
    obtain ⟨htable, hlt, hunused⟩ := h.pending number hbefore
    refine ⟨(htables number).2 ⟨htable, Or.inl hnumber⟩, ?_, ?_⟩
    · rw [hmanifest]
      exact lt_nextfilenumber_step hnoRecover hlog' hlt fun _ => nofun
    · rw [history_append, List.flatMap_append, List.mem_append, not_or]
      refine ⟨hunused, fun hmem => hnot ?_⟩
      rw [← numbers_resultEdit hok]
      simpa [Action.manifestActions, ManifestState.Action.edit] using hmem

/-- What a compaction leaves that fails. -/
structure Failed (s : TableFiles K V) (cs : CompactionState K V) (recorded : Bool) (m : ManifestState K V)
    (s' : TableFiles K V) : Prop where
  logAndApply : s.manifest.LogAndApply cs.resultEdit = some m
  records : s'.manifest.records = if recorded then m.records else s.manifest.records
  current : s'.manifest.current = s.manifest.current ∧ m.current = s.manifest.current
  nextfilenumber : s'.manifest.versions.nextfilenumber = s.manifest.versions.nextfilenumber
  bgerror : s'.bgerror
  pending : ∀ number, number ∈ s'.pendingoutputs ↔
    number ∈ s.pendingoutputs ∧ number ∉ cs.outputs.map FileMetaData.number
  tables : ∀ number, number ∈ s'.tables ↔
    number ∈ s.tables ∧ (number ∈ s'.pendingoutputs ∨ number ∈ s.manifest.versions.AddLiveFiles)
  outputs : ∀ out ∈ cs.outputs, out.number ∈ s.pendingoutputs
  nodup : (cs.outputs.map FileMetaData.number).Nodup

theorem failed_of_step {cs : CompactionState K V} {recorded : Bool}
    (hstep : step s (.FailCompaction cs recorded) = .next s') :
    ¬ s.bgerror ∧ ∃ m, Failed s cs recorded m s' := by
  simp only [step] at hstep
  split at hstep
  · simp at hstep
  rename_i hguard
  obtain ⟨f, hfail, hafter⟩ := Option.bind_eq_some_iff.1 (Transition.Outcome.ofOption_eq_next.1 hstep)
  obtain ⟨m, hlog, rfl⟩ := Option.map_eq_some_iff.1 hfail
  obtain ⟨hmanifest, hbgerror', hpending, htables, hall, hnodup⟩ := afterCompaction_eq_some hafter
  refine ⟨fun hbgerror => hguard (Or.inl hbgerror), m, hlog, by rw [hmanifest], ⟨by rw [hmanifest], ?_⟩,
    by rw [hmanifest], hbgerror', hpending, htables, hall, hnodup⟩
  obtain ⟨vs, _, rfl⟩ := Option.map_eq_some_iff.1 hlog
  have hdescriptor : s.manifest.descriptorlog = true := by
    by_contra hnot
    exact hguard (Or.inr hnot)
  rw [if_pos hdescriptor]

variable {cs : CompactionState K V} {recorded : Bool} {m : ManifestState K V}

/-- The manifest that the failed write may have left. -/
private theorem Failed.replayed (hfail : Failed s cs recorded m s') (h : Kept disk s₀ actions s)
    (hbgerror : ¬ s.bgerror) (hok : CompactionOk cs) :
    ManifestState.Replayed disk s₀.manifest
      (actions.flatMap Action.manifestActions ++ [.LogAndApply cs.resultEdit]) m :=
  ManifestState.replayed_step (h.replayed hbgerror).1 (allowed_resultEdit h hok hfail.outputs hfail.nodup)
    (Transition.Outcome.ofOption_eq_next.2 hfail.logAndApply)

private theorem Failed.live (hfail : Failed s cs recorded m s') (h : Kept disk s₀ actions s) (hok : CompactionOk cs)
    {number : ℕ} (hlive : number ∈ m.versions.AddLiveFiles) :
    number ∈ s.manifest.versions.AddLiveFiles ∨ number ∈ cs.outputs.map FileMetaData.number := by
  have hnoRecover : ∀ reuseManifest, ManifestState.Action.LogAndApply cs.resultEdit ≠ .Recover reuseManifest :=
    fun _ => nofun
  refine (live_step hnoRecover (allowed_resultEdit h hok hfail.outputs hfail.nodup)
    (Transition.Outcome.ofOption_eq_next.2 hfail.logAndApply) hlive).imp id ?_
  rintro ⟨edit, ha, p, hp, rfl⟩
  obtain rfl := Option.some.inj ha
  rw [newfiles_resultEdit hok] at hp
  obtain ⟨out, hout, rfl⟩ := List.mem_map.1 hp
  exact List.mem_map.2 ⟨out, hout, rfl⟩

private theorem Kept.failCompaction (h : Kept disk s₀ actions s) (hok : CompactionOk cs) (houtputs : cs.outputs = [])
    (hstep : step s (.FailCompaction cs recorded) = .next s') :
    Kept disk s₀ (actions ++ [.FailCompaction cs recorded]) s' := by
  obtain ⟨hbgerror, m, hfail⟩ := failed_of_step hstep
  obtain ⟨hm, hlive⟩ := h.replayed hbgerror
  have hkeep : ∀ number ∈ s.manifest.versions.AddLiveFiles, number ∈ s'.tables := fun number hnumber =>
    (hfail.tables number).2 ⟨hlive number hnumber, Or.inr hnumber⟩
  have hnotInMemory : ¬ ¬ s'.bgerror := not_not_intro hfail.bgerror
  refine ⟨?_, fun number hnumber => ?_⟩
  · cases recorded with
    | false =>
      refine ⟨s.manifest, ?_, hfail.records.symm, hfail.current.1.symm, fun h => absurd h hnotInMemory, hkeep⟩
      rw [flatMap_append]
      simpa [Action.manifestActions] using hm
    | true =>
      refine ⟨m, ?_, hfail.records.symm, hfail.current.2.trans hfail.current.1.symm,
        fun h => absurd h hnotInMemory, fun number hnumber => ?_⟩
      · rw [flatMap_append]
        exact hfail.replayed h hbgerror hok
      · rcases hfail.live h hok hnumber with hold | hout
        · exact hkeep number hold
        · simp [houtputs] at hout
  · obtain ⟨hbefore, hnot⟩ := (hfail.pending number).1 hnumber
    obtain ⟨htable, hlt, hunused⟩ := h.pending number hbefore
    refine ⟨(hfail.tables number).2 ⟨htable, Or.inl hnumber⟩, by rwa [hfail.nextfilenumber], ?_⟩
    rw [history_append, List.flatMap_append, List.mem_append, not_or]
    refine ⟨hunused, fun hmem => hnot ?_⟩
    rw [← numbers_resultEdit hok]
    cases recorded with
    | false => simp [Action.manifestActions] at hmem
    | true => simpa [Action.manifestActions, ManifestState.Action.edit] using hmem

private theorem step_manifest {a : ManifestState.Action K V}
    (hrecover : ∀ reuseManifest, a ≠ .Recover reuseManifest) :
    step s (.Manifest a) =
      if s.bgerror then .disabled else (s.manifest.step a).bind fun m => .next { s with manifest := m } := by
  cases a with
  | Recover reuseManifest => exact absurd rfl (hrecover reuseManifest)
  | _ => rfl

theorem kept_step (h : Kept disk s₀ actions s) {a : Action K V} (hallowed : Allowed disk actions s a)
    (hlost : NoOutputLost a) (hstep : step s a = .next s') : Kept disk s₀ (actions ++ [a]) s' := by
  cases a with
  | Manifest a =>
    by_cases hrecover : ∃ reuseManifest, a = .Recover reuseManifest
    · obtain ⟨reuseManifest, rfl⟩ := hrecover
      obtain ⟨m, hrec, rfl⟩ := Option.map_eq_some_iff.1 (Transition.Outcome.ofOption_eq_next.1 hstep)
      exact h.recover hrec
    · have hne : ∀ reuseManifest, a ≠ .Recover reuseManifest := fun r ha => hrecover ⟨r, ha⟩
      rw [step_manifest hne] at hstep
      split at hstep
      · simp at hstep
      · rename_i hbgerror
        cases hm : s.manifest.step a with
        | disabled => simp [hm, Outcome.bind] at hstep
        | aborted => simp [hm, Outcome.bind] at hstep
        | next m =>
          rw [hm] at hstep
          cases hstep
          exact h.manifest hbgerror hne hallowed hm
  | OpenOutput =>
    simp only [step] at hstep
    split at hstep
    · simp at hstep
    · rename_i hbgerror
      cases hstep
      exact h.openOutput hbgerror
  | FinishOutput number =>
    simp only [step] at hstep
    split at hstep
    · simp at hstep
    · rename_i hbgerror
      have herase := Transition.Outcome.ofOption_eq_next.1 hstep
      unfold erasePending at herase
      split at herase
      · cases herase
        exact h.shrink hbgerror rfl rfl (fun _ hn => Finset.mem_of_mem_erase hn) fun _ hn _ => hn
      · simp at herase
  | DeleteObsoleteFiles =>
    simp only [step] at hstep
    split at hstep
    · simp at hstep
    · rename_i hbgerror
      cases hstep
      exact h.shrink hbgerror rfl rfl (fun _ hn => hn) fun number hn hkeep =>
        Finset.mem_filter.2 ⟨hn, hkeep⟩
  | DoCompaction cs => exact h.doCompaction hallowed hstep
  | FailCompaction cs recorded => exact h.failCompaction hallowed hlost hstep

/-! ### Failed compactions -/

/-- The database can be opened again, with the version before the compaction or the one after it, and with all the
files of the version. -/
def Survives (s : TableFiles K V) (cs : CompactionState K V) (s' : TableFiles K V) : Prop :=
  ∃ r, VersionSet.Recover s'.manifest.records = some r ∧
    (r.current = s.manifest.versions.current ∨
      ∃ vs, s.manifest.versions.LogAndApply cs.resultEdit = some vs ∧ r.current = vs.current) ∧
    ∀ number ∈ r.AddLiveFiles, number ∈ s'.tables

omit [LinearOrder K] in
private theorem addLiveFiles_congr {vs vs' : VersionSet K V} (h : vs.current = vs'.current) :
    vs.AddLiveFiles = vs'.AddLiveFiles := by
  rw [VersionSet.AddLiveFiles, h, VersionSet.AddLiveFiles]

/-- When the edit has not reached the disk, nothing is lost. -/
theorem Failed.survives (hfail : Failed s cs false m s') (h : Kept disk s₀ actions s) (hbgerror : ¬ s.bgerror) :
    Survives s cs s' := by
  obtain ⟨hm, hlive⟩ := h.replayed hbgerror
  obtain ⟨r, hr, hsame, _⟩ := hm.recovers
  refine ⟨r, ?_, Or.inl hsame.current, fun number hnumber => ?_⟩
  · rw [hfail.records]
    exact hr
  · rw [addLiveFiles_congr hsame.current] at hnumber
    exact (hfail.tables number).2 ⟨hlive number hnumber, Or.inr hnumber⟩

/-- When it has, the outputs are lost. -/
theorem Failed.survives_iff (hfail : Failed s cs true m s') (h : Kept disk s₀ actions s) (hbgerror : ¬ s.bgerror)
    (hok : CompactionOk cs) : Survives s cs s' ↔ cs.outputs = [] := by
  have hm := hfail.replayed h hbgerror hok
  obtain ⟨r, hr, hsame, _⟩ := hm.recovers
  obtain ⟨vs, hvs, hmvs⟩ := Option.map_eq_some_iff.1 hfail.logAndApply
  have hversions : m.versions = vs := by
    rw [← hmvs]
    split <;> rfl
  have hrecords : s'.manifest.records = m.records := hfail.records
  constructor
  · rintro ⟨r', hr', _, htables⟩
    rw [hrecords, hr] at hr'
    cases hr'
    refine List.eq_nil_iff_forall_not_mem.2 fun out hout => ?_
    have hnew : (cs.compaction.level + 1, out) ∈ cs.resultEdit.newfiles := by
      rw [newfiles_resultEdit hok]
      exact List.mem_map.2 ⟨out, hout, rfl⟩
    have hallowed := allowed_resultEdit h hok hfail.outputs hfail.nodup
    have hfile := (mem_files_of_logAndApply hallowed.1 hvs).2 hok.level_lt hnew
    have hlive : out.number ∈ r.AddLiveFiles := by
      rw [addLiveFiles_congr hsame.current, hversions]
      exact mem_addLiveFiles.2 ⟨_, hok.level_lt, out, hfile, rfl⟩
    -- The output is not pending any more, and it is not in the version in memory.
    rcases ((hfail.tables _).1 (htables _ hlive)).2 with hpending | hold
    · exact ((hfail.pending _).1 hpending).2 (List.mem_map.2 ⟨out, hout, rfl⟩)
    · exact (h.pending _ (hfail.outputs out hout)).2.2 ((h.replayed hbgerror).1.live_used hold)
  · intro houtputs
    refine ⟨r, by rw [hrecords]; exact hr, Or.inr ⟨vs, hvs, by rw [hsame.current, hversions]⟩,
      fun number hnumber => ?_⟩
    rw [addLiveFiles_congr hsame.current] at hnumber
    rcases hfail.live h hok hnumber with hold | hout
    · exact (hfail.tables number).2 ⟨(h.replayed hbgerror).2 number hold, Or.inr hold⟩
    · simp [houtputs] at hout

/-- In a run in which no compaction fails after it has written an output, the manifest always replays to a version
whose files are there.  The next compaction that fails may lose files exactly when it has written an output. -/
theorem failed_compaction_survives_iff {reuseManifest : Bool} {m₀ : ManifestState K V} {tables : Finset ℕ}
    (hrec : disk.Recover reuseManifest = some m₀) (hsound : disk.Sound m₀)
    (htables : ∀ number ∈ m₀.versions.AddLiveFiles, number ∈ tables)
    (hmeets : Transition.MeetsAfter step (fun before s a => Allowed disk before s a ∧ NoOutputLost a)
      ⟨m₀, ∅, tables, false⟩ actions)
    (hrun : run step ⟨m₀, ∅, tables, false⟩ actions = .next s) :
    (∃ r, VersionSet.Recover s.manifest.records = some r ∧ ∀ number ∈ r.AddLiveFiles, number ∈ s.tables) ∧
      ∀ cs s₁ s₂, CompactionOk cs → step s (.FailCompaction cs false) = .next s₁ →
        step s (.FailCompaction cs true) = .next s₂ →
        (Survives s cs s₁ ∧ Survives s cs s₂ ↔ cs.outputs = []) := by
  have h := Transition.run_invariant_after (Kept disk ⟨m₀, ∅, tables, false⟩) (kept_init hrec hsound htables)
    (fun _ _ _ _ h hallowed => kept_step h hallowed.1 hallowed.2) hmeets hrun
  refine ⟨?_, fun cs s₁ s₂ hok hstep₁ hstep₂ => ?_⟩
  · obtain ⟨m, hm, hrecoverable⟩ := h.recoverable
    obtain ⟨r, hr, hsame, _⟩ := hm.recovers
    refine ⟨r, hrecoverable.records ▸ hr, fun number hnumber => hrecoverable.tables number ?_⟩
    rwa [addLiveFiles_congr hsame.current] at hnumber
  · obtain ⟨hbgerror, m₁, hfail₁⟩ := failed_of_step hstep₁
    obtain ⟨_, m₂, hfail₂⟩ := failed_of_step hstep₂
    rw [hfail₂.survives_iff h hbgerror hok]
    exact and_iff_right (hfail₁.survives h hbgerror)

/-- A table is written to level 1, and a compaction writes an output. -/
def outputActions : List (Action ℕ ℕ) :=
  [.OpenOutput, .FinishOutput 3,
    .Manifest (.LogAndApply (VersionEdit.empty.AddFile 1
      ⟨3, 100, ⟨1, 5, .kTypeValue⟩, ⟨9, 4, .kTypeValue⟩, []⟩)),
    .OpenOutput]

/-- The compaction of this table, with its output. -/
def outputCompaction : CompactionState ℕ ℕ where
  compaction :=
    { level := 1
      maxoutputfilesize := 100
      inputversion := ⟨fun _ => [], none⟩
      edit := VersionEdit.empty
      inputs0 := [⟨3, 100, ⟨1, 5, .kTypeValue⟩, ⟨9, 4, .kTypeValue⟩, []⟩]
      inputs1 := []
      grandparents := []
      grandparentindex := 0
      seenkey := false
      overlappedbytes := 0
      levelptrs := fun _ => 0 }
  smallestsnapshot := 5
  outputs := [⟨4, 100, ⟨1, 5, .kTypeValue⟩, ⟨9, 4, .kTypeValue⟩, []⟩]
  builder := none
  currentuserkey := none
  lastsequenceforkey := 0

theorem output_lost : ∃ (m₀ : ManifestState ℕ ℕ) (s s' : TableFiles ℕ ℕ) (r : VersionSet ℕ ℕ),
    ManifestState.NewDB.Recover false = some m₀ ∧ run step ⟨m₀, ∅, ∅, false⟩ outputActions = .next s ∧
      step s (.FailCompaction outputCompaction true) = .next s' ∧
      VersionSet.Recover s'.manifest.records = some r ∧ 4 ∈ r.AddLiveFiles ∧ 4 ∉ s'.tables :=
  ⟨_, _, _, _, rfl, rfl, rfl, rfl, by decide, by decide⟩

private theorem allowed_outputActions {m₀ : ManifestState ℕ ℕ} (hrec : ManifestState.NewDB.Recover false = some m₀) :
    Transition.MeetsAfter step (fun before s a => Allowed ManifestState.NewDB before s a ∧ NoOutputLost a)
      ⟨m₀, ∅, ∅, false⟩ outputActions := by
  obtain rfl := Option.some.inj hrec
  refine Transition.meetsAfter_cons ⟨trivial, trivial⟩ rfl (Transition.meetsAfter_cons ⟨trivial, trivial⟩ rfl ?_)
  refine Transition.meetsAfter_cons ⟨⟨⟨⟨by decide, by decide⟩, by decide⟩, ?_, fun _ => nofun⟩, trivial⟩ rfl ?_
  · rintro edit ⟨⟩
    decide
  · exact Transition.meetsAfter_cons ⟨trivial, trivial⟩ rfl (Transition.meetsAfter_nil _)

theorem failed_compaction_survives_iff_output : ∃ s s₁ s₂ : TableFiles ℕ ℕ,
    step s (.FailCompaction outputCompaction false) = .next s₁ ∧
      step s (.FailCompaction outputCompaction true) = .next s₂ ∧
      (Survives s outputCompaction s₁ ∧ Survives s outputCompaction s₂ ↔ outputCompaction.outputs = []) := by
  obtain ⟨m₀, hm₀⟩ : ∃ m₀ : ManifestState ℕ ℕ, ManifestState.NewDB.Recover false = some m₀ := ⟨_, rfl⟩
  obtain ⟨s, s₁, s₂, hrun, hstep₁, hstep₂⟩ : ∃ s s₁ s₂, run step ⟨m₀, ∅, ∅, false⟩ outputActions = .next s ∧
      step s (.FailCompaction outputCompaction false) = .next s₁ ∧
      step s (.FailCompaction outputCompaction true) = .next s₂ := by
    obtain rfl := Option.some.inj hm₀
    exact ⟨_, _, _, rfl, rfl, rfl⟩
  have hsound : ManifestState.NewDB.Sound m₀ := by
    obtain rfl := Option.some.inj hm₀
    exact ⟨by decide, by decide, by decide⟩
  have htables : ∀ number ∈ m₀.versions.AddLiveFiles, number ∈ (∅ : Finset ℕ) := by
    obtain rfl := Option.some.inj hm₀
    decide
  have hok : CompactionOk outputCompaction := ⟨⟨rfl, rfl, rfl⟩, rfl, by decide⟩
  exact ⟨s, s₁, s₂, hstep₁, hstep₂,
    (failed_compaction_survives_iff hm₀ hsound htables (allowed_outputActions hm₀) hrun).2 _ _ _ hok hstep₁ hstep₂⟩

end TableFiles

end RedisDb
