import SwissArmyKnife.RedisDb.CompactionMerge
import SwissArmyKnife.RedisDb.VersionInstall

/-!
# What reads see of a compaction

The version after a compaction has the files that were left out and the outputs.  It is layered again.  A read as of
the smallest snapshot or later sees the same in both versions, except where a deletion was dropped although an older
value of its user key is in a file of the next level that was left out (`Resurrects`).
-/

namespace RedisDb

variable {K V : Type*} [LinearOrder K]

/-- The version `v'` has the files `outs` of the next level, made of the inputs, in the place of the inputs. -/
structure Replaced (v v' : Version K V) (level : ℕ) (inputs0 inputs1 outs : List (FileMetaData K V)) : Prop where
  inputs : InputsOk v level inputs0 inputs1
  mem_files : ∀ l f, f ∈ v'.files l ↔
    f ∈ v.files l ∧ (l = level → f ∉ inputs0) ∧ (l = level + 1 → f ∉ inputs1) ∨ l = level + 1 ∧ f ∈ outs
  origin : ∀ f ∈ outs, ∀ e ∈ f.entries, ∃ g ∈ inputs0 ++ inputs1, e ∈ g.entries

namespace Replaced

variable {v v' : Version K V} {level : ℕ} {inputs0 inputs1 outs : List (FileMetaData K V)}

theorem mem_of_output (h : Replaced v v' level inputs0 inputs1 outs) {f : FileMetaData K V} (hf : f ∈ outs)
    {e : Entry K V} (he : e ∈ f.entries) :
    (∃ g ∈ inputs0, e ∈ g.entries ∧ g ∈ v.files level) ∨ ∃ g ∈ inputs1, e ∈ g.entries ∧ g ∈ v.files (level + 1) := by
  obtain ⟨g, hg, hmem⟩ := h.origin f hf e he
  rcases List.mem_append.1 hg with hg | hg
  · exact Or.inl ⟨g, hg, hmem, h.inputs.mem0 g hg⟩
  · exact Or.inr ⟨g, hg, hmem, h.inputs.mem1 g hg⟩

theorem contents_subset (h : Replaced v v' level inputs0 inputs1 outs) : v'.contents ⊆ v.contents := by
  rintro e ⟨l, f, hf, he⟩
  rcases (h.mem_files l f).1 hf with ⟨hf, -⟩ | ⟨-, hf⟩
  · exact ⟨l, f, hf, he⟩
  · rcases h.mem_of_output hf he with ⟨g, -, he, hg⟩ | ⟨g, -, he, hg⟩
    · exact ⟨_, g, hg, he⟩
    · exact ⟨_, g, hg, he⟩

/-- The new version is layered: what moves down is older than what is left out above it. -/
theorem layered {time : Entry K V → ℕ} (h : Replaced v v' level inputs0 inputs1 outs) (hlayered : v.Layered time)
    (hnewer : ∀ f ∈ v.files level, f ∉ inputs0 → ∀ g ∈ inputs0,
      Mvcc.Newer Entry.userkey time f.contents g.contents) : v'.Layered time := by
  refine ⟨?_, fun f hf g hg hnumber => ?_⟩
  · rintro i j hlt a ⟨f, hf, ha⟩ b ⟨g, hg, hb⟩ hkey
    rcases (h.mem_files i f).1 hf with ⟨hf, hupper, -⟩ | ⟨rfl, hfout⟩
    · rcases (h.mem_files j g).1 hg with ⟨hg, -, -⟩ | ⟨rfl, hgout⟩
      · exact hlayered.levels i j hlt a ⟨f, hf, ha⟩ b ⟨g, hg, hb⟩ hkey
      · rcases h.mem_of_output hgout hb with ⟨g', hg', hb, hmem⟩ | ⟨g', -, hb, hmem⟩
        · rcases Nat.lt_or_eq_of_le (Nat.lt_succ_iff.1 hlt) with hlt | rfl
          · exact hlayered.levels i level hlt a ⟨f, hf, ha⟩ b ⟨g', hmem, hb⟩ hkey
          · exact hnewer f hf (hupper rfl) g' hg' a ha b hb hkey
        · exact hlayered.levels i (level + 1) hlt a ⟨f, hf, ha⟩ b ⟨g', hmem, hb⟩ hkey
    · rcases (h.mem_files j g).1 hg with ⟨hg, -, -⟩ | ⟨rfl, hg⟩
      · rcases h.mem_of_output hfout ha with ⟨f', -, ha, hmem⟩ | ⟨f', -, ha, hmem⟩
        · exact hlayered.levels level j (by omega) a ⟨f', hmem, ha⟩ b ⟨g, hg, hb⟩ hkey
        · exact hlayered.levels (level + 1) j hlt a ⟨f', hmem, ha⟩ b ⟨g, hg, hb⟩ hkey
      · exact absurd hlt (Nat.lt_irrefl _)
  · rcases (h.mem_files 0 f).1 hf with ⟨hf, -, -⟩ | ⟨hzero, -⟩
    · rcases (h.mem_files 0 g).1 hg with ⟨hg, -, -⟩ | ⟨hzero, -⟩
      · exact hlayered.level0 f hf g hg hnumber
      · exact absurd hzero (by omega)
    · exact absurd hzero (by omega)

end Replaced

/-- The version `v'` has the outputs in the place of the inputs of the compaction. -/
structure Compacted (v v' : Version K V) (c : Compaction K V) (snap : ℕ) (outs : List (FileMetaData K V)) : Prop
    extends Replaced v v' c.level c.inputs0 c.inputs1 outs where
  input : ∀ e, e ∈ MakeInputIterator c ↔ ∃ f ∈ c.inputs0 ++ c.inputs1, e ∈ f.entries
  output : ∀ e, (∃ f ∈ outs, e ∈ f.entries) ↔
    e ∈ MakeInputIterator c ∧ Keeps c.inputversion c.level snap (MakeInputIterator c) e
  base : ∀ e ∈ MakeInputIterator c, IsBase c.inputversion c.level e.userkey → IsBase v c.level e.userkey

/-- The entries of the files of the next level that are left out. -/
def leftBelow (v : Version K V) (c : Compaction K V) : Set (Entry K V) :=
  {e | ∃ f ∈ v.files (c.level + 1), f ∉ c.inputs1 ∧ e ∈ f.entries}

/-- The entries of all files that are left out. -/
def leftOut (v : Version K V) (c : Compaction K V) : Set (Entry K V) :=
  {e | ∃ level, ∃ f ∈ v.files level, (level = c.level → f ∉ c.inputs0) ∧ (level = c.level + 1 → f ∉ c.inputs1) ∧
    e ∈ f.entries}

/-- A deletion in an input of the next level is what a read as of the snapshot sees of its user key, no file of a
deeper level has the key in its range, and what is left out of the next level has an older value of it. -/
def Resurrects (v : Version K V) (c : Compaction K V) (snap : ℕ) : Prop :=
  ∃ e, (∃ f ∈ c.inputs1, e ∈ f.entries) ∧ e.key.type = .kTypeDeletion ∧
    Mvcc.Newest Entry.userkey Entry.tag v.contents e.userkey (seekTag snap) e ∧ IsBase v c.level e.userkey ∧
    ∃ x, Mvcc.Newest Entry.userkey Entry.tag (leftBelow v c) e.userkey (seekTag snap) x ∧ x.key.type = .kTypeValue

namespace Compacted

variable {v v' : Version K V} {c : Compaction K V} {snap : ℕ} {outs : List (FileMetaData K V)}

theorem mem_of_input (h : Compacted v v' c snap outs) {e : Entry K V} (he : e ∈ MakeInputIterator c) :
    (∃ f ∈ c.inputs0, e ∈ f.entries ∧ f ∈ v.files c.level) ∨
      ∃ f ∈ c.inputs1, e ∈ f.entries ∧ f ∈ v.files (c.level + 1) := by
  obtain ⟨f, hf, hmem⟩ := (h.input e).1 he
  rcases List.mem_append.1 hf with hf | hf
  · exact Or.inl ⟨f, hf, hmem, h.inputs.mem0 f hf⟩
  · exact Or.inr ⟨f, hf, hmem, h.inputs.mem1 f hf⟩

theorem contents_eq (h : Compacted v v' c snap outs) :
    v'.contents = leftOut v c ∪ {e | ∃ f ∈ outs, e ∈ f.entries} := by
  ext e
  constructor
  · rintro ⟨level, f, hf, he⟩
    rcases (h.mem_files level f).1 hf with ⟨hf, hupper, hlower⟩ | ⟨-, hf⟩
    · exact Or.inl ⟨level, f, hf, hupper, hlower, he⟩
    · exact Or.inr ⟨f, hf, he⟩
  · rintro (⟨level, f, hf, hupper, hlower, he⟩ | ⟨f, hf, he⟩)
    · exact ⟨level, f, (h.mem_files level f).2 (Or.inl ⟨hf, hupper, hlower⟩), he⟩
    · exact ⟨c.level + 1, f, (h.mem_files _ f).2 (Or.inr ⟨rfl, hf⟩), he⟩

/-- An entry is left out or in an input. -/
theorem mem_leftOut_or_input (h : Compacted v v' c snap outs) {e : Entry K V} (he : e ∈ v.contents) :
    e ∈ leftOut v c ∨ e ∈ MakeInputIterator c := by
  obtain ⟨level, f, hf, he⟩ := he
  by_cases hupper : level = c.level ∧ f ∈ c.inputs0
  · exact Or.inr ((h.input e).2 ⟨f, List.mem_append_left _ hupper.2, he⟩)
  · by_cases hlower : level = c.level + 1 ∧ f ∈ c.inputs1
    · exact Or.inr ((h.input e).2 ⟨f, List.mem_append_right _ hlower.2, he⟩)
    · exact Or.inl ⟨level, f, hf, fun hl hm => hupper ⟨hl, hm⟩, fun hl hm => hlower ⟨hl, hm⟩, he⟩

/-- An older entry of the user key of an input that is left out is in the next level, and so is the input. -/
theorem below_of_older (h : Compacted v v' c snap outs) (hv : v.Sorted) (hlayered : v.Layered Entry.tag)
    {e x : Entry K V} (he : e ∈ MakeInputIterator c) (hx : x ∈ leftOut v c) (hkey : x.userkey = e.userkey)
    (hle : x.tag ≤ e.tag) (hbase : IsBase v c.level e.userkey) :
    x ∈ leftBelow v c ∧ ∃ f ∈ c.inputs1, e ∈ f.entries := by
  obtain ⟨level, g, hg, hupper, hlower, hx⟩ := hx
  have hg' : g.Ok := hv.ok level g hg
  -- A left-out file that is above the input is newer than it.
  have hnot : ∀ l, ∀ f ∈ v.files l, e ∈ f.entries → l ≤ level := by
    intro l f hf he
    by_contra hlt
    have := hlayered.levels level l (by omega) x ⟨g, hg, hx⟩ e ⟨f, hf, he⟩ hkey
    omega
  have hdeep : level < c.level + 2 := by
    by_contra hdeep
    exact hbase level (by omega) g hg (hkey ▸ hg'.userkey_mem hx)
  rcases h.mem_of_input he with ⟨f, hf, he, hmem⟩ | ⟨f, hf, he, hmem⟩
  · have hge := hnot c.level f hmem he
    rcases Nat.lt_or_eq_of_le hge with hlt | rfl
    · -- In the next level it shares no user key with an input of this level.
      obtain rfl : level = c.level + 1 := by omega
      have hrange := hg'.userkey_mem hx
      have hrange' := (hv.ok c.level f hmem).userkey_mem he
      rcases h.inputs.apart1 g hg (hlower rfl) f hf with hlt | hlt
      · exact absurd (hkey ▸ hrange.2) (not_le.2 (lt_of_lt_of_le hlt hrange'.1))
      · exact absurd (hkey ▸ hrange.1) (not_le.2 (lt_of_le_of_lt hrange'.2 hlt))
    · have := h.inputs.newer0 g hg (hupper rfl) f hf x hx e he hkey
      omega
  · obtain rfl : level = c.level + 1 := by
      have := hnot (c.level + 1) f hmem he
      omega
    exact ⟨⟨g, hg, hlower rfl, hx⟩, f, hf, he⟩

/-- A read as of the snapshot or later sees the same, when no value comes back. -/
theorem reads (h : Compacted v v' c snap outs) (hv : v.Sorted) (hlayered : v.Layered Entry.tag) (hv' : v'.Sorted)
    (hsnap : snap < kMaxSequenceNumber) (hres : ¬ Resurrects v c snap) {u : K} {s : ℕ}
    (hs : snap ≤ s) {r : Option V}
    (hr : Mvcc.Reads Entry.userkey Entry.tag Entry.result v.contents u (seekTag s) r) :
    Mvcc.Reads Entry.userkey Entry.tag Entry.result v'.contents u (seekTag s) r := by
  have hlayered' := h.layered hlayered h.inputs.newer0
  have hdistinct := Version.distinct hv hlayered
  refine hr.elide h.contents_subset fun e he => ?_
  by_cases hin : e ∈ v'.contents
  · exact Or.inl hin
  -- The entry was dropped.
  rw [h.contents_eq, Set.mem_union, not_or] at hin
  have hinput := (h.mem_leftOut_or_input he.mem).resolve_left hin.1
  have hdropped : ¬ Keeps c.inputversion c.level snap (MakeInputIterator c) e := fun hkeeps =>
    hin.2 ((h.output e).2 ⟨hinput, hkeeps⟩)
  have hvisible : ∀ e' ∈ MakeInputIterator c, e'.userkey = e.userkey → e'.key < e.key → snap < e'.sequence := by
    intro e' he' hkey hlt
    by_contra hle
    have hseen : e'.tag ≤ seekTag s := tag_le_seekTag_iff.2 (Nat.le_trans (Nat.not_lt.1 hle) hs)
    have hcontents : e' ∈ v.contents := by
      rcases h.mem_of_input he' with ⟨f, -, hmem, hf⟩ | ⟨f, -, hmem, hf⟩
      · exact ⟨_, f, hf, hmem⟩
      · exact ⟨_, f, hf, hmem⟩
    have := he.newest e' hcontents (hkey.trans he.key_eq) hseen
    exact absurd ((InternalKey.lt_iff_tag hkey).1 hlt) (Nat.not_lt.2 this)
  obtain ⟨htype, hseq, hbase⟩ : e.key.type = .kTypeDeletion ∧ e.sequence ≤ snap ∧
      IsBase c.inputversion c.level e.userkey := by
    by_contra hneeded
    exact hdropped ⟨hsnap, hvisible, fun htype hseq hbase => hneeded ⟨htype, hseq, hbase⟩⟩
  have hbase := h.base e hinput hbase
  have hold : e.tag ≤ seekTag snap := tag_le_seekTag_iff.2 hseq
  refine Or.inr ⟨Entry.result_eq_none_iff.2 htype, ?_⟩
  rcases Version.get_reads hv' hlayered' u s with ⟨x, hx, hresult⟩ | ⟨habsent, -⟩
  swap
  · exact Or.inr ⟨habsent, rfl⟩
  refine Or.inl ⟨x, hx, ?_⟩
  have hkey : x.userkey = e.userkey := hx.key_eq.trans he.key_eq.symm
  have hle : x.tag ≤ e.tag := he.newest x (h.contents_subset hx.mem) hx.key_eq hx.le
  have hmem := hx.mem
  rw [h.contents_eq] at hmem
  rcases hmem with hleft | hout
  · obtain ⟨hbelow, hinput1⟩ := h.below_of_older hv hlayered hinput hleft hkey hle hbase
    by_contra hvalue
    refine hres ⟨e, hinput1, htype, he.key_eq.symm ▸ he.of_le hold (seekTag_mono hs), hbase, x, ?_, ?_⟩
    · refine ⟨hbelow, hkey, Nat.le_trans hle hold, fun y hy hykey hytag => ?_⟩
      obtain ⟨g, hg, hgleft, hyg⟩ := hy
      have hmem : y ∈ v'.contents :=
        ⟨c.level + 1, g, (h.mem_files _ g).2 (Or.inl ⟨hg, by simp, fun _ => hgleft⟩), hyg⟩
      exact hx.newest y hmem (hykey.trans he.key_eq) (Nat.le_trans hytag (seekTag_mono hs))
    · cases hxtype : x.key.type with
      | kTypeValue => rfl
      | kTypeDeletion => exact absurd (Entry.result_eq_none_iff.2 hxtype) hvalue
  · -- An older entry of the user key would have been hidden by `e`.
    obtain ⟨hxinput, hkeeps⟩ := (h.output x).1 hout
    have hne : x.tag ≠ e.tag := fun htag =>
      hin.2 (hdistinct x (h.contents_subset hx.mem) e he.mem hkey htag ▸ hout)
    have hlt : e.key < x.key := (InternalKey.lt_iff_tag hkey.symm).2 (Nat.lt_of_le_of_ne hle hne)
    exact absurd (hkeeps.visible e hinput hkey.symm hlt) (Nat.not_lt.2 hseq)

/-- The value of a resurrected key is seen by a read as of the snapshot, which saw a deletion before. -/
theorem not_reads (h : Compacted v v' c snap outs) (hv : v.Sorted) (hlayered : v.Layered Entry.tag)
    (hversion : c.inputversion = v) (hres : Resurrects v c snap) :
    ∃ u value, Mvcc.Reads Entry.userkey Entry.tag Entry.result v.contents u (seekTag snap) none ∧
      Mvcc.Reads Entry.userkey Entry.tag Entry.result v'.contents u (seekTag snap) (some value) := by
  obtain ⟨e, ⟨f, hf, he⟩, htype, hnewest, hbase, x, hx, hxtype⟩ := hres
  have hfmem := h.inputs.mem1 f hf
  have hinput : e ∈ MakeInputIterator c := (h.input e).2 ⟨f, List.mem_append_right _ hf, he⟩
  have hseq : e.sequence ≤ snap := tag_le_seekTag_iff.1 hnewest.le
  have hvalue : x.result = some x.value := by
    unfold Entry.result
    rw [hxtype]
  refine ⟨e.userkey, x.value, Or.inl ⟨e, hnewest, Entry.result_eq_none_iff.2 htype⟩, Or.inl ⟨x, ?_, hvalue⟩⟩
  obtain ⟨g, hg, hleft, hxg⟩ := hx.mem
  refine ⟨⟨c.level + 1, g, (h.mem_files _ g).2 (Or.inl ⟨hg, by simp, fun _ => hleft⟩), hxg⟩, hx.key_eq, hx.le,
    fun y hy hkey hseen => ?_⟩
  have hle : y.tag ≤ e.tag := hnewest.newest y (h.contents_subset hy) hkey hseen
  rw [h.contents_eq] at hy
  rcases hy with hy | hy
  · -- What is left out and older than the deletion is in the next level.
    exact hx.newest y (h.below_of_older hv hlayered hinput hy hkey hle hbase).1 hkey hseen
  · -- The outputs have neither the deletion nor what it hides.
    obtain ⟨hyinput, hkeeps⟩ := (h.output y).1 hy
    rcases Nat.lt_or_eq_of_le hle with hlt | heq
    · have hlt : e.key < y.key := (InternalKey.lt_iff_tag hkey.symm).2 hlt
      exact absurd (hkeeps.visible e hinput hkey.symm hlt) (Nat.not_lt.2 hseq)
    · have hye : y = e := by
        have hycontents : y ∈ v.contents := by
          rcases h.mem_of_input hyinput with ⟨f', -, hmem, hf'⟩ | ⟨f', -, hmem, hf'⟩
          · exact ⟨_, f', hf', hmem⟩
          · exact ⟨_, f', hf', hmem⟩
        exact Version.distinct hv hlayered y hycontents e hnewest.mem hkey heq
      subst hye
      rw [hversion] at hkeeps
      exact absurd hbase (hkeeps.needed htype hseq)

/-- From the largest sequence number on nothing stays. -/
theorem contents_eq_leftOut (h : Compacted v v' c snap outs) (hsnap : kMaxSequenceNumber ≤ snap) :
    v'.contents = leftOut v c := by
  rw [h.contents_eq, Set.union_eq_left]
  intro e he
  exact absurd ((h.output e).1 he).2.snap_lt (Nat.not_lt.2 hsnap)

end Compacted

end RedisDb
