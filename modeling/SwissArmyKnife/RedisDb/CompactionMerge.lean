import SwissArmyKnife.RedisDb.CompactionInputs
import SwissArmyKnife.RedisDb.CompactionWork

/-!
# What a compaction writes

The input iterator yields the entries of the input files in the order of their keys (`makeInputIterator_spec`).  Round
after round, the loop of `DoCompactionWork` writes those that are not hidden by a newer entry of their user key that
is as old as the smallest snapshot, and that are not obsolete deletions (`Progress`).
-/

namespace RedisDb

variable {K V : Type*} [LinearOrder K] {v : Version K V}

/-! ### The input iterator -/

omit [LinearOrder K] in
private theorem flatten_inputRuns (c : Compaction K V) :
    (inputRuns c).flatten = (c.inputs0 ++ c.inputs1).flatMap FileMetaData.entries := by
  unfold inputRuns
  split <;> simp [List.flatMap_def]

private theorem sorted_flatMap {files : List (FileMetaData K V)} (hok : ∀ f ∈ files, f.Ok)
    (hdisjoint : files.Pairwise fun f g => f.largest < g.smallest) :
    (files.flatMap FileMetaData.entries).Pairwise fun a b => a.key < b.key := by
  rw [List.pairwise_flatMap]
  refine ⟨fun f hf => (hok f hf).sorted, hdisjoint.imp_of_mem fun {f g} hf hg hlt a ha b hb => ?_⟩
  exact lt_of_le_of_lt ((hok f hf).le_largest ha) (lt_of_lt_of_le hlt ((hok g hg).smallest_le hb))

omit [LinearOrder K] in
private theorem key_ne_of_newer {A B : Set (Entry K V)} (h : Mvcc.Newer Entry.userkey Entry.tag A B) {a b : Entry K V}
    (ha : a ∈ A) (hb : b ∈ B) : a.key ≠ b.key := by
  intro hkey
  have := h a ha b hb (congrArg InternalKey.userkey hkey)
  rw [Entry.tag, Entry.tag, hkey] at this
  exact absurd this (Nat.lt_irrefl _)

/-- The input iterator yields the entries of the input files, in order. -/
theorem makeInputIterator_spec (hv : v.Sorted) (hlayered : v.Layered Entry.tag) {c : Compaction K V}
    (h : InputsOk v c.level c.inputs0 c.inputs1) :
    (MakeInputIterator c).Pairwise (fun a b => a.key < b.key) ∧
      ∀ e, e ∈ MakeInputIterator c ↔ ∃ f ∈ c.inputs0 ++ c.inputs1, e ∈ f.entries := by
  have hok0 : ∀ f ∈ c.inputs0, f.Ok := fun f hf => hv.ok _ f (h.mem0 f hf)
  have hok1 : ∀ f ∈ c.inputs1, f.Ok := fun f hf => hv.ok _ f (h.mem1 f hf)
  have hsorted1 := sorted_flatMap hok1 h.sorted1
  have hruns : ∀ run ∈ inputRuns c, Merge.Sorted Entry.key run := by
    intro run hrun
    rcases List.mem_append.1 hrun with hrun | hrun
    · split at hrun
      · obtain ⟨f, hf, rfl⟩ := List.mem_map.1 hrun
        exact (hok0 f hf).sorted.imp fun hlt => hlt.le
      · rename_i hlevel
        obtain rfl := List.mem_singleton.1 hrun
        exact (sorted_flatMap hok0 (h.sorted0 (Nat.pos_of_ne_zero hlevel))).imp fun hlt => hlt.le
    · obtain rfl := List.mem_singleton.1 hrun
      exact hsorted1.imp fun hlt => hlt.le
  -- No two files hold the same key: of two files with a common user key, one is newer.
  have hne : (inputRuns c).flatten.Pairwise fun a b => a.key ≠ b.key := by
    rw [flatten_inputRuns, List.flatMap_append, List.pairwise_append]
    refine ⟨?_, hsorted1.imp fun hlt => hlt.ne, fun a ha b hb => ?_⟩
    · rcases Nat.eq_zero_or_pos c.level with hzero | hpos
      · rw [List.pairwise_flatMap]
        refine ⟨fun f hf => (hok0 f hf).sorted.imp fun hlt => hlt.ne, ?_⟩
        refine h.numbers0.imp_of_mem fun {f g} hf hg hnumber a ha b hb => ?_
        have hf := h.mem0 f hf
        have hg := h.mem0 g hg
        rw [hzero] at hf hg
        rcases Nat.lt_or_gt_of_ne hnumber with hlt | hlt
        · exact (key_ne_of_newer (hlayered.level0 g hg f hf hlt) hb ha).symm
        · exact key_ne_of_newer (hlayered.level0 f hf g hg hlt) ha hb
      · exact (sorted_flatMap hok0 (h.sorted0 hpos)).imp fun hlt => hlt.ne
    · obtain ⟨f, hf, ha⟩ := List.mem_flatMap.1 ha
      obtain ⟨g, hg, hb⟩ := List.mem_flatMap.1 hb
      exact key_ne_of_newer (hlayered.levels c.level (c.level + 1) (Nat.lt_succ_self _)) ⟨f, h.mem0 f hf, ha⟩
        ⟨g, h.mem1 g hg, hb⟩
  have hperm := Merge.mergeRuns_perm Entry.key (inputRuns c)
  refine ⟨?_, fun e => ?_⟩
  · have hmerged := (hperm.pairwise_iff fun hab => Ne.symm hab).2 hne
    exact ((Merge.mergeRuns_sorted Entry.key _ hruns).and hmerged).imp fun h => lt_of_le_of_ne h.1 h.2
  · rw [MakeInputIterator, hperm.mem_iff, flatten_inputRuns, List.mem_flatMap]

/-! ### The cursors of `isBaseLevelForKey` -/

/-- No file of the levels from `level + 2` on has the user key in its range. -/
def IsBase (v : Version K V) (level : ℕ) (u : K) : Prop :=
  ∀ lvl, level + 2 ≤ lvl → ∀ f ∈ v.files lvl, ¬ (f.smallest.userkey ≤ u ∧ u ≤ f.largest.userkey)

/-- The files that a cursor has passed end before the user key. -/
def Behind (v : Version K V) (levelptrs : ℕ → ℕ) (u : K) : Prop :=
  ∀ lvl i f, i < levelptrs lvl → (v.files lvl)[i]? = some f → f.largest.userkey < u

theorem Behind.mono {levelptrs : ℕ → ℕ} {u u' : K} (h : Behind v levelptrs u) (hle : u ≤ u') :
    Behind v levelptrs u' := fun lvl i f hi hf => lt_of_lt_of_le (h lvl i f hi hf) hle

private theorem advance_spec {files : List (FileMetaData K V)} (hok : ∀ f ∈ files, f.Ok)
    (hdisjoint : files.Pairwise fun f g => f.largest < g.smallest) {u : K} {ptr : ℕ}
    (hbehind : ∀ i f, i < ptr → files[i]? = some f → f.largest.userkey < u) :
    (∀ i f, i < (Compaction.advance files u ptr).1 → files[i]? = some f → f.largest.userkey < u) ∧
      ((Compaction.advance files u ptr).2 = true ↔
        ∃ f ∈ files, f.smallest.userkey ≤ u ∧ u ≤ f.largest.userkey) := by
  fun_induction Compaction.advance files u ptr with
  | case1 ptr hnone =>
    refine ⟨hbehind, by simp, ?_⟩
    rintro ⟨f, hf, -, hle⟩
    obtain ⟨i, hi, rfl⟩ := List.mem_iff_getElem.1 hf
    have hlt := Nat.lt_of_lt_of_le hi (List.getElem?_eq_none_iff.1 hnone)
    exact absurd hle (not_le.2 (hbehind i _ hlt (List.getElem?_eq_getElem hi)))
  | case2 ptr f hsome hle =>
    refine ⟨hbehind, fun h => ⟨f, List.mem_of_getElem? hsome, of_decide_eq_true h, hle⟩, ?_⟩
    rintro ⟨g, hg, hgu, hgle⟩
    obtain ⟨i, hi, rfl⟩ := List.mem_iff_getElem.1 hg
    obtain ⟨hptr, rfl⟩ := List.getElem?_eq_some_iff.1 hsome
    rcases Nat.lt_trichotomy i ptr with hlt | rfl | hlt
    · exact absurd hgle (not_le.2 (hbehind i _ hlt (List.getElem?_eq_getElem hi)))
    · exact decide_eq_true hgu
    · -- Files behind the cursor begin after the file at the cursor.
      have hlt := List.pairwise_iff_getElem.1 hdisjoint ptr i hptr hi hlt
      have hfirst := (hok _ (List.getElem_mem hptr)).range.trans hlt.le
      exact decide_eq_true ((InternalKey.userkey_le hfirst).trans hgu)
  | case3 ptr f hsome hnot ih =>
    refine ih fun i g hi hg => ?_
    rcases Nat.lt_or_eq_of_le (Nat.lt_succ_iff.1 hi) with hlt | rfl
    · exact hbehind i g hlt hg
    · obtain rfl := Option.some.inj (hsome.symm.trans hg)
      exact not_le.1 hnot

private theorem searchLevels_spec (hv : v.Sorted) {u : K} (lvls : List ℕ) (hlvls : ∀ lvl ∈ lvls, 0 < lvl)
    {levelptrs : ℕ → ℕ} (hbehind : Behind v levelptrs u) :
    Behind v (Compaction.searchLevels v u lvls levelptrs).2 u ∧
      ((Compaction.searchLevels v u lvls levelptrs).1 = true ↔
        ∀ lvl ∈ lvls, ∀ f ∈ v.files lvl, ¬ (f.smallest.userkey ≤ u ∧ u ≤ f.largest.userkey)) := by
  induction lvls generalizing levelptrs with
  | nil => exact ⟨hbehind, by simp [Compaction.searchLevels]⟩
  | cons lvl lvls ih =>
    obtain ⟨hadvance, hfound⟩ := advance_spec (hv.ok lvl) (hv.disjoint lvl (hlvls lvl (List.mem_cons_self ..)))
      (fun i f hi hf => hbehind lvl i f hi hf)
    have hnext : Behind v
        (Function.update levelptrs lvl (Compaction.advance (v.files lvl) u (levelptrs lvl)).1) u := by
      intro l i f hi hf
      by_cases hl : l = lvl
      · subst hl
        rw [Function.update_self] at hi
        exact hadvance i f hi hf
      · rw [Function.update_of_ne hl] at hi
        exact hbehind l i f hi hf
    simp only [Compaction.searchLevels]
    split
    · rename_i hhit
      refine ⟨hnext, by simp, fun h => ?_⟩
      obtain ⟨f, hf, hrange⟩ := hfound.1 hhit
      exact absurd hrange (h lvl (List.mem_cons_self ..) f hf)
    · rename_i hmiss
      obtain ⟨hbehind', hbase⟩ := ih (fun l hl => hlvls l (List.mem_cons_of_mem _ hl)) hnext
      refine ⟨hbehind', hbase.trans ?_⟩
      rw [List.forall_mem_cons]
      exact (and_iff_right fun f hf hrange => hmiss (hfound.2 ⟨f, hf, hrange⟩)).symm

theorem isBaseLevelForKey_spec {c : Compaction K V} (hv : c.inputversion.Sorted) {u : K}
    (hbehind : Behind c.inputversion c.levelptrs u) :
    Behind c.inputversion (c.isBaseLevelForKey u).2.levelptrs u ∧
      ((c.isBaseLevelForKey u).1 = true ↔ IsBase c.inputversion c.level u) := by
  obtain ⟨hbehind', hbase⟩ := searchLevels_spec hv (List.range' (c.level + 2) (kNumLevels - (c.level + 2)))
    (fun lvl hlvl => by
      have := (List.mem_range'_1.1 hlvl).1
      omega) hbehind
  refine ⟨hbehind', hbase.trans ⟨fun h lvl hlvl f hf => ?_, fun h lvl hlvl f hf => ?_⟩⟩
  · refine h lvl (List.mem_range'_1.2 ⟨hlvl, ?_⟩) f hf
    by_contra hnot
    rw [hv.deepest lvl (by omega)] at hf
    exact absurd hf List.not_mem_nil
  · exact h lvl (List.mem_range'_1.1 hlvl).1 f hf

/-! ### One round of the loop -/

/-- The entry stays: no newer entry of its user key is as old as the snapshot, and it is not an obsolete deletion. -/
structure Keeps (v : Version K V) (level snap : ℕ) (input : List (Entry K V)) (e : Entry K V) : Prop where
  snap_lt : snap < kMaxSequenceNumber
  visible : ∀ e' ∈ input, e'.userkey = e.userkey → e'.key < e.key → snap < e'.sequence
  needed : e.key.type = .kTypeDeletion → e.sequence ≤ snap → ¬ IsBase v level e.userkey

namespace CompactionState

/-- The outputs, with the one that is being built. -/
def files (cs : CompactionState K V) : List (FileMetaData K V) := cs.outputs ++ cs.builder.toList

def written (cs : CompactionState K V) : List (Entry K V) := cs.files.flatMap FileMetaData.entries

/-- The compaction is the same up to the cursors of its lookups. -/
structure SameInputs (c c' : Compaction K V) : Prop where
  level : c'.level = c.level
  inputversion : c'.inputversion = c.inputversion
  edit : c'.edit = c.edit
  inputs0 : c'.inputs0 = c.inputs0
  inputs1 : c'.inputs1 = c.inputs1

omit [LinearOrder K] in
theorem SameInputs.refl (c : Compaction K V) : SameInputs c c := ⟨rfl, rfl, rfl, rfl, rfl⟩

omit [LinearOrder K] in
theorem SameInputs.trans {c c' c'' : Compaction K V} (h : SameInputs c c') (h' : SameInputs c' c'') :
    SameInputs c c'' :=
  ⟨h'.level.trans h.level, h'.inputversion.trans h.inputversion, h'.edit.trans h.edit, h'.inputs0.trans h.inputs0,
    h'.inputs1.trans h.inputs1⟩

private theorem sameInputs_skipGrandparents (c : Compaction K V) (key : InternalKey K) :
    SameInputs c (c.skipGrandparents key) ∧ (c.skipGrandparents key).levelptrs = c.levelptrs := by
  fun_induction Compaction.skipGrandparents c key with
  | case1 c => exact ⟨SameInputs.refl c, rfl⟩
  | case2 c f hsome hlt seen ih =>
    exact ⟨⟨ih.1.level, ih.1.inputversion, ih.1.edit, ih.1.inputs0, ih.1.inputs1⟩, ih.2⟩
  | case3 c => exact ⟨SameInputs.refl c, rfl⟩

theorem sameInputs_shouldStopBefore (options : Options) (c : Compaction K V) (key : InternalKey K) :
    SameInputs c (c.shouldStopBefore options key).2 ∧
      (c.shouldStopBefore options key).2.levelptrs = c.levelptrs := by
  obtain ⟨hsame, hptrs⟩ := sameInputs_skipGrandparents c key
  simp only [Compaction.shouldStopBefore]
  split
  · exact ⟨hsame.trans ⟨rfl, rfl, rfl, rfl, rfl⟩, hptrs⟩
  · exact ⟨hsame.trans ⟨rfl, rfl, rfl, rfl, rfl⟩, hptrs⟩

theorem sameInputs_isBaseLevelForKey (c : Compaction K V) (u : K) : SameInputs c (c.isBaseLevelForKey u).2 :=
  ⟨rfl, rfl, rfl, rfl, rfl⟩

/-- Finishing an output changes nothing but its size. -/
structure SameOutputs (cs cs' : CompactionState K V) : Prop where
  numbers : cs'.files.map FileMetaData.number = cs.files.map FileMetaData.number
  written : cs'.written = cs.written
  ok : (∀ f ∈ cs.files, f.Ok) → ∀ f ∈ cs'.files, f.Ok

theorem sameOutputs_finish (sizes : TableSizes K V) (cs : CompactionState K V) :
    SameOutputs cs (cs.FinishCompactionOutputFile sizes) := by
  unfold FinishCompactionOutputFile
  cases hbuilder : cs.builder with
  | none => exact ⟨rfl, rfl, id⟩
  | some out =>
    refine ⟨by simp [files, hbuilder], by simp [written, files, hbuilder], fun h f hf => ?_⟩
    simp only [files, Option.toList_none, List.append_nil, List.mem_append, List.mem_singleton] at hf
    rcases hf with hf | rfl
    · exact h f (by simp [files, hf])
    · have hout := h out (by simp [files, hbuilder])
      exact ⟨hout.sorted, hout.smallest_eq, hout.largest_eq, hout.sequence_le⟩

/-- All but the outputs is the same. -/
structure Alike (cs cs' : CompactionState K V) : Prop where
  compaction : cs'.compaction = cs.compaction
  smallestsnapshot : cs'.smallestsnapshot = cs.smallestsnapshot
  currentuserkey : cs'.currentuserkey = cs.currentuserkey
  lastsequenceforkey : cs'.lastsequenceforkey = cs.lastsequenceforkey

omit [LinearOrder K] in
theorem alike_finish (sizes : TableSizes K V) (cs : CompactionState K V) :
    Alike cs (cs.FinishCompactionOutputFile sizes) ∧ (cs.FinishCompactionOutputFile sizes).builder = none := by
  unfold FinishCompactionOutputFile
  cases hbuilder : cs.builder with
  | none => exact ⟨⟨rfl, rfl, rfl, rfl⟩, hbuilder⟩
  | some out => exact ⟨⟨rfl, rfl, rfl, rfl⟩, rfl⟩

/-- What the addition of an entry does to the outputs. -/
structure Adds (cs : CompactionState K V) (next : ℕ) (e : Entry K V) (r : CompactionState K V × ℕ) : Prop where
  numbers : r.1.files.map FileMetaData.number = cs.files.map FileMetaData.number ∧ r.2 = next ∨
    r.1.files.map FileMetaData.number = cs.files.map FileMetaData.number ++ [next] ∧ r.2 = next + 1
  written : r.1.written = cs.written ++ [e]
  ok : (∀ f ∈ cs.files, f.Ok) → (∀ x ∈ cs.written, x.key < e.key) → e.sequence ≤ kMaxSequenceNumber →
    ∀ f ∈ r.1.files, f.Ok

private theorem ok_singleton (number : ℕ) {e : Entry K V} (h : e.sequence ≤ kMaxSequenceNumber) :
    (⟨number, 0, e.key, e.key, [e]⟩ : FileMetaData K V).Ok :=
  ⟨List.pairwise_singleton .., rfl, rfl, by simpa using h⟩

private theorem ok_append {f : FileMetaData K V} {e : Entry K V} (hf : f.Ok) (hlt : ∀ x ∈ f.entries, x.key < e.key)
    (h : e.sequence ≤ kMaxSequenceNumber) :
    ({ f with largest := e.key, entries := f.entries ++ [e] } : FileMetaData K V).Ok := by
  refine ⟨?_, ?_, by simp, ?_⟩
  · exact List.pairwise_append.2 ⟨hf.sorted, List.pairwise_singleton .., by simpa using hlt⟩
  · obtain ⟨x, hx, hkey⟩ := Option.map_eq_some_iff.1 hf.smallest_eq
    simp [List.head?_append, hx, hkey]
  · intro x hx
    rcases List.mem_append.1 hx with hx | hx
    · exact hf.sequence_le x hx
    · exact List.mem_singleton.1 hx ▸ h

private theorem outputWith_adds (cs : CompactionState K V) (next : ℕ) (e : Entry K V) :
    Adds cs next e ({ cs with builder := some (cs.outputWith next e).1 }, (cs.outputWith next e).2) := by
  unfold outputWith
  cases hbuilder : cs.builder with
  | none =>
    refine ⟨Or.inr (by simp [files, hbuilder]), by simp [written, files, hbuilder], fun hok _ hle f hf => ?_⟩
    simp only [files, Option.toList_some, List.mem_append, List.mem_singleton] at hf
    rcases hf with hf | rfl
    · exact hok f (by simp [files, hf])
    · exact ok_singleton next hle
  | some out =>
    refine ⟨Or.inl (by simp [files, hbuilder]), by simp [written, files, hbuilder], fun hok hlt hle f hf => ?_⟩
    simp only [files, Option.toList_some, List.mem_append, List.mem_singleton] at hf
    rcases hf with hf | rfl
    · exact hok f (by simp [files, hf])
    · refine ok_append (hok out (by simp [files, hbuilder])) (fun x hx => hlt x ?_) hle
      simp [written, files, hbuilder, hx]

theorem addEntry_adds (sizes : TableSizes K V) (cs : CompactionState K V) (next : ℕ) (e : Entry K V) :
    Adds cs next e (cs.addEntry sizes next e) ∧ Alike cs (cs.addEntry sizes next e).1 := by
  have hadds := outputWith_adds cs next e
  simp only [addEntry]
  split
  · have hsame := sameOutputs_finish sizes { cs with builder := some (cs.outputWith next e).1 }
    have halike := (alike_finish sizes { cs with builder := some (cs.outputWith next e).1 }).1
    refine ⟨⟨?_, hsame.written.trans hadds.written, fun hok hlt hle => hsame.ok (hadds.ok hok hlt hle)⟩,
      halike.compaction, halike.smallestsnapshot, halike.currentuserkey, halike.lastsequenceforkey⟩
    rw [hsame.numbers]
    exact hadds.numbers
  · exact ⟨hadds, rfl, rfl, rfl, rfl⟩

/-- The entry is dropped: it is hidden, or an obsolete deletion. -/
def Dropped (cs : CompactionState K V) (e : Entry K V) : Prop :=
  cs.lastSequence e.userkey ≤ cs.smallestsnapshot ∨
    e.key.type = .kTypeDeletion ∧ e.sequence ≤ cs.smallestsnapshot ∧
      IsBase cs.compaction.inputversion cs.compaction.level e.userkey

private theorem dropEntry_spec {cs : CompactionState K V} {e : Entry K V} (hv : cs.compaction.inputversion.Sorted)
    (hbehind : Behind cs.compaction.inputversion cs.compaction.levelptrs e.userkey) :
    ((cs.dropEntry e).1 = true ↔ cs.Dropped e) ∧ SameInputs cs.compaction (cs.dropEntry e).2 ∧
      Behind cs.compaction.inputversion (cs.dropEntry e).2.levelptrs e.userkey := by
  obtain ⟨hbehind', hbase⟩ := isBaseLevelForKey_spec hv hbehind
  simp only [dropEntry]
  split
  · rename_i hhidden
    exact ⟨⟨fun _ => Or.inl hhidden, fun _ => rfl⟩, SameInputs.refl _, hbehind⟩
  · rename_i hvisible
    split
    · rename_i hdeletion
      refine ⟨hbase.trans ⟨fun h => Or.inr ⟨hdeletion.1, hdeletion.2, h⟩, fun h => ?_⟩,
        sameInputs_isBaseLevelForKey _ _, hbehind'⟩
      exact (h.resolve_left hvisible).2.2
    · rename_i hneeded
      refine ⟨⟨fun h => absurd h Bool.false_ne_true, fun h => ?_⟩, SameInputs.refl _, hbehind⟩
      have hobsolete := h.resolve_left hvisible
      exact absurd ⟨hobsolete.1, hobsolete.2.1⟩ hneeded

/-- The state after a round. -/
structure Round (cs : CompactionState K V) (next : ℕ) (e : Entry K V) (r : CompactionState K V × ℕ) : Prop where
  same : SameInputs cs.compaction r.1.compaction
  smallestsnapshot : r.1.smallestsnapshot = cs.smallestsnapshot
  currentuserkey : r.1.currentuserkey = some e.userkey
  lastsequenceforkey : r.1.lastsequenceforkey = e.sequence
  behind : Behind cs.compaction.inputversion r.1.compaction.levelptrs e.userkey
  outputs : cs.Dropped e ∧ SameOutputs cs r.1 ∧ r.2 = next ∨ ¬ cs.Dropped e ∧ Adds cs next e r

theorem processKey_round (options : Options) (sizes : TableSizes K V) {cs : CompactionState K V} (next : ℕ)
    {e : Entry K V} (hv : cs.compaction.inputversion.Sorted)
    (hbehind : Behind cs.compaction.inputversion cs.compaction.levelptrs e.userkey) :
    Round cs next e (processKey options sizes (cs, next) e) := by
  obtain ⟨hstop, hptrs⟩ := sameInputs_shouldStopBefore options cs.compaction e.key
  -- The output may be ended before the entry.
  obtain ⟨cs', hcs', hsame, halike⟩ : ∃ cs', (if (cs.compaction.shouldStopBefore options e.key).1 = true then
      FinishCompactionOutputFile sizes { cs with compaction := (cs.compaction.shouldStopBefore options e.key).2 }
      else { cs with compaction := (cs.compaction.shouldStopBefore options e.key).2 }) = cs' ∧ SameOutputs cs cs' ∧
      Alike { cs with compaction := (cs.compaction.shouldStopBefore options e.key).2 } cs' := by
    split
    · have hfinish := sameOutputs_finish sizes
        { cs with compaction := (cs.compaction.shouldStopBefore options e.key).2 }
      exact ⟨_, rfl, ⟨hfinish.numbers, hfinish.written, hfinish.ok⟩, (alike_finish sizes _).1⟩
    · exact ⟨_, rfl, ⟨rfl, rfl, id⟩, ⟨rfl, rfl, rfl, rfl⟩⟩
  have hinputs : SameInputs cs.compaction cs'.compaction := halike.compaction ▸ hstop
  have hdropped : cs'.Dropped e ↔ cs.Dropped e := by
    unfold Dropped lastSequence
    rw [halike.currentuserkey, halike.lastsequenceforkey, halike.smallestsnapshot,
      hinputs.inputversion, hinputs.level]
  have hbehind' : Behind cs'.compaction.inputversion cs'.compaction.levelptrs e.userkey := by
    rw [hinputs.inputversion, halike.compaction, hptrs]
    exact hbehind
  obtain ⟨hdrop, hdropsame, hdropbehind⟩ := dropEntry_spec (hinputs.inputversion ▸ hv) hbehind'
  have hall := (hinputs.trans hdropsame).trans (sameInputs_isBaseLevelForKey (cs'.dropEntry e).2 e.userkey)
  have hlast : Behind cs.compaction.inputversion
      ((cs'.dropEntry e).2.isBaseLevelForKey e.userkey).2.levelptrs e.userkey := by
    have hversion : (cs'.dropEntry e).2.inputversion = cs.compaction.inputversion :=
      (hinputs.trans hdropsame).inputversion
    have := (isBaseLevelForKey_spec (c := (cs'.dropEntry e).2) (hversion ▸ hv)
      (hversion ▸ hinputs.inputversion ▸ hdropbehind)).1
    rwa [hversion] at this
  have hprocess : processKey options sizes (cs, next) e =
      if (cs'.dropEntry e).1 then
        ({ cs' with
            compaction := ((cs'.dropEntry e).2.isBaseLevelForKey e.userkey).2
            currentuserkey := some e.userkey
            lastsequenceforkey := e.sequence }, next)
      else addEntry sizes { cs' with
            compaction := ((cs'.dropEntry e).2.isBaseLevelForKey e.userkey).2
            currentuserkey := some e.userkey
            lastsequenceforkey := e.sequence } next e := by
    rw [← hcs']
    rfl
  rw [hprocess]
  split
  · rename_i hdrop'
    exact ⟨hall, halike.smallestsnapshot, rfl, rfl, hlast,
      Or.inl ⟨hdropped.1 (hdrop.1 hdrop'), ⟨hsame.numbers, hsame.written, hsame.ok⟩, rfl⟩⟩
  · rename_i hkeep
    obtain ⟨hadds, hadd⟩ := addEntry_adds sizes { cs' with
      compaction := ((cs'.dropEntry e).2.isBaseLevelForKey e.userkey).2
      currentuserkey := some e.userkey
      lastsequenceforkey := e.sequence } next e
    refine ⟨hadd.compaction ▸ hall, hadd.smallestsnapshot.trans halike.smallestsnapshot, hadd.currentuserkey,
      hadd.lastsequenceforkey, hadd.compaction ▸ hlast,
      Or.inr ⟨fun h => hkeep (hdrop.2 (hdropped.2 h)), ?_, ?_, fun hok hlt hle => ?_⟩⟩
    · rw [← hsame.numbers]
      exact hadds.numbers
    · rw [← hsame.written]
      exact hadds.written
    · exact hadds.ok (hsame.ok hok) (fun x hx => hlt x (hsame.written ▸ hx)) hle

/-! ### The rounds of a run -/

/-- What a run of the loop has done when `rest` is what the input iterator has still to yield. -/
structure Progress (c : Compaction K V) (snap : ℕ) (cs : CompactionState K V) (rest : List (Entry K V)) : Prop where
  same : SameInputs c cs.compaction
  smallestsnapshot : cs.smallestsnapshot = snap
  behind : ∀ e ∈ rest, Behind c.inputversion cs.compaction.levelptrs e.userkey
  ok : ∀ f ∈ cs.files, f.Ok
  position : ∃ done, MakeInputIterator c = done ++ rest ∧
    cs.currentuserkey = done.getLast?.map Entry.userkey ∧
    cs.lastsequenceforkey = (done.getLast?.map Entry.sequence).getD kMaxSequenceNumber ∧
    cs.written.Sublist done ∧
    ∀ e ∈ done, e ∈ cs.written ↔ Keeps c.inputversion c.level snap (MakeInputIterator c) e

theorem progress_new (c : Compaction K V) (snap : ℕ) (hptrs : c.levelptrs = fun _ => 0) :
    Progress c snap (new c snap) (MakeInputIterator c) where
  same := SameInputs.refl c
  smallestsnapshot := rfl
  behind e _ lvl i f hi := by
    simp only [new, hptrs] at hi
    exact absurd hi (Nat.not_lt_zero i)
  ok f hf := by simp [files, new] at hf
  position := ⟨[], rfl, rfl, rfl, List.Sublist.refl _, by simp⟩

/-- The loop remembers the newest of the older entries of the key that it looks at. -/
private theorem lt_lastSequence_iff {cs : CompactionState K V} {e : Entry K V} {done rest : List (Entry K V)}
    (hsorted : (done ++ e :: rest).Pairwise fun a b => a.key < b.key)
    (hseq : ∀ x ∈ done, x.sequence ≤ kMaxSequenceNumber)
    (hcurrent : cs.currentuserkey = done.getLast?.map Entry.userkey)
    (hlast : cs.lastsequenceforkey = (done.getLast?.map Entry.sequence).getD kMaxSequenceNumber) (snap : ℕ) :
    snap < cs.lastSequence e.userkey ↔ snap < kMaxSequenceNumber ∧
      ∀ x ∈ done ++ e :: rest, x.userkey = e.userkey → x.key < e.key → snap < x.sequence := by
  obtain ⟨hdone, hrest, hbefore⟩ := List.pairwise_append.1 hsorted
  -- An entry before `e` has been looked at.
  have hmem : ∀ x ∈ done ++ e :: rest, x.key < e.key → x ∈ done := by
    intro x hx hlt
    rcases List.mem_append.1 hx with hx | hx
    · exact hx
    · rcases List.mem_cons.1 hx with rfl | hx
      · exact absurd hlt (lt_irrefl _)
      · exact absurd hlt ((List.pairwise_cons.1 hrest).1 x hx).asymm
  rcases List.eq_nil_or_concat done with rfl | ⟨init, p, hp⟩
  · have hfirst : cs.lastSequence e.userkey = kMaxSequenceNumber := by simp [lastSequence, hcurrent]
    rw [hfirst]
    exact ⟨fun h => ⟨h, fun x hx _ hlt => absurd (hmem x hx hlt) List.not_mem_nil⟩, And.left⟩
  · rw [List.concat_eq_append] at hp
    subst hp
    simp only [List.getLast?_append, List.getLast?_singleton, Option.some_or, Option.map_some,
      Option.getD_some] at hcurrent hlast
    have hpe : p.key < e.key := hbefore p (by simp) e (List.mem_cons_self ..)
    have hinit : ∀ x ∈ init, x.key < p.key := fun x hx =>
      (List.pairwise_append.1 hdone).2.2 x hx p (List.mem_singleton_self p)
    by_cases hkey : p.userkey = e.userkey
    · have hsame : cs.lastSequence e.userkey = p.sequence := by simp [lastSequence, hcurrent, hkey, hlast]
      rw [hsame]
      refine ⟨fun h => ⟨Nat.lt_of_lt_of_le h (hseq p (by simp)), fun x hx hxkey hlt => ?_⟩, fun h => ?_⟩
      · rcases List.mem_append.1 (hmem x hx hlt) with hx | hx
        · have htag := (InternalKey.lt_iff_tag (hxkey.trans hkey.symm)).1 (hinit x hx)
          exact Nat.lt_of_lt_of_le h (InternalKey.sequence_le_of_tag_le htag.le)
        · exact List.mem_singleton.1 hx ▸ h
      · exact h.2 p (by simp) hkey hpe
    · have hfirst : cs.lastSequence e.userkey = kMaxSequenceNumber := by simp [lastSequence, hcurrent, hkey]
      rw [hfirst]
      refine ⟨fun h => ⟨h, fun x hx hxkey hlt => absurd ?_ hkey⟩, And.left⟩
      -- The user key of the last entry lies between that of `x` and that of `e`.
      refine le_antisymm (InternalKey.userkey_le hpe.le) (hxkey ▸ ?_)
      rcases List.mem_append.1 (hmem x hx hlt) with hx | hx
      · exact InternalKey.userkey_le (hinit x hx).le
      · exact List.mem_singleton.1 hx ▸ le_rfl

/-- The entry that the loop looks at is dropped just when it does not stay. -/
private theorem dropped_iff {c : Compaction K V} {snap : ℕ} {cs : CompactionState K V} {e : Entry K V}
    {done rest : List (Entry K V)} (hinput : MakeInputIterator c = done ++ e :: rest)
    (hsorted : (MakeInputIterator c).Pairwise fun a b => a.key < b.key)
    (hseq : ∀ x ∈ MakeInputIterator c, x.sequence ≤ kMaxSequenceNumber) (hsame : SameInputs c cs.compaction)
    (hsnap : cs.smallestsnapshot = snap) (hcurrent : cs.currentuserkey = done.getLast?.map Entry.userkey)
    (hlast : cs.lastsequenceforkey = (done.getLast?.map Entry.sequence).getD kMaxSequenceNumber) :
    cs.Dropped e ↔ ¬ Keeps c.inputversion c.level snap (MakeInputIterator c) e := by
  rw [hinput] at hsorted hseq
  have hvisible := lt_lastSequence_iff hsorted (fun x hx => hseq x (List.mem_append_left _ hx)) hcurrent hlast snap
  rw [Dropped, hsnap, hsame.inputversion, hsame.level, hinput]
  constructor
  · rintro (hle | ⟨htype, hle, hbase⟩) hkeeps
    · exact absurd (hvisible.2 ⟨hkeeps.snap_lt, hkeeps.visible⟩) (Nat.not_lt.2 hle)
    · exact hkeeps.needed htype hle hbase
  · intro hnot
    by_contra hstays
    rw [not_or, Nat.not_le] at hstays
    obtain ⟨hlt, hvis⟩ := hvisible.1 hstays.1
    exact hnot ⟨hlt, hvis, fun htype hle hbase => hstays.2 ⟨htype, hle, hbase⟩⟩

theorem Progress.processKey {c : Compaction K V} {snap : ℕ} {cs : CompactionState K V} {e : Entry K V}
    {rest : List (Entry K V)} (hv : c.inputversion.Sorted)
    (hsorted : (MakeInputIterator c).Pairwise fun a b => a.key < b.key)
    (hseq : ∀ x ∈ MakeInputIterator c, x.sequence ≤ kMaxSequenceNumber) (h : Progress c snap cs (e :: rest))
    (options : Options) (sizes : TableSizes K V) (next : ℕ) :
    Progress c snap (CompactionState.processKey options sizes (cs, next) e).1 rest := by
  obtain ⟨done, hinput, hcurrent, hlast, hsub, hmem⟩ := h.position
  have hround := processKey_round options sizes next (h.same.inputversion ▸ hv)
    (h.same.inputversion ▸ h.behind e (List.mem_cons_self ..))
  have hdropped := dropped_iff hinput hsorted hseq h.same h.smallestsnapshot hcurrent hlast
  have hsplit := hsorted
  rw [hinput] at hsplit
  obtain ⟨-, hrest, hbefore⟩ := List.pairwise_append.1 hsplit
  have hlt : ∀ x ∈ done, x.key < e.key := fun x hx => hbefore x hx e (List.mem_cons_self ..)
  have hnew : e ∉ done := fun hx => absurd (hlt e hx) (lt_irrefl _)
  refine ⟨h.same.trans hround.same, hround.smallestsnapshot.trans h.smallestsnapshot, fun x hx => ?_, ?_,
    done ++ [e], by simp [hinput], by simp [hround.currentuserkey], by simp [hround.lastsequenceforkey], ?_, ?_⟩
  · have hle := InternalKey.userkey_le ((List.pairwise_cons.1 hrest).1 x hx).le
    exact (h.same.inputversion ▸ hround.behind).mono hle
  · rcases hround.outputs with ⟨-, hsame, -⟩ | ⟨-, hadds⟩
    · exact hsame.ok h.ok
    · exact hadds.ok h.ok (fun x hx => hlt x (hsub.subset hx)) (hseq e (by simp [hinput]))
  · rcases hround.outputs with ⟨-, hsame, -⟩ | ⟨-, hadds⟩
    · rw [hsame.written]
      exact hsub.trans (List.sublist_append_left ..)
    · rw [hadds.written]
      exact hsub.append (List.Sublist.refl [e])
  · intro x hx
    rcases hround.outputs with ⟨hdrop, hsame, -⟩ | ⟨hkeep, hadds⟩
    · rw [hsame.written]
      rcases List.mem_append.1 hx with hx | hx
      · exact hmem x hx
      · obtain rfl := List.mem_singleton.1 hx
        exact iff_of_false (fun hw => hnew (hsub.subset hw)) (hdropped.1 hdrop)
    · rw [hadds.written, List.mem_append, List.mem_singleton]
      rcases List.mem_append.1 hx with hx | hx
      · rw [← hmem x hx]
        exact or_iff_left fun heq => hnew (heq ▸ hx)
      · obtain rfl := List.mem_singleton.1 hx
        exact iff_of_true (Or.inr rfl) (not_not.1 fun hnot => hkeep (hdropped.2 hnot))

end CompactionState

end RedisDb
