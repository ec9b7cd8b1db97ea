import SwissArmyKnife.RedisDb.Gets

/-!
# Reads in runs

A read that begins in a state finds the newest entry that it may see, unless the entry was in a memtable whose flush
was installed before the read came to the immutable memtable: the version that the read took does not have the table
yet, and the memtable is gone (`run_get_reads`).
-/

namespace RedisDb.Gets

open Transition Mvcc

variable {K V : Type*}

/-! ### Contents -/

def State.immEntries (s : State K V) : List (Entry K V) := s.imm.getD []

/-- What is in the memtables. -/
def State.memories (s : State K V) : Set (Entry K V) := {e | e ∈ s.mem ∨ e ∈ s.immEntries}

/-- What the database holds. -/
def State.contents (s : State K V) : Set (Entry K V) := s.memories ∪ s.current.contents

/-- What the actions insert, after a sequence number. -/
def written (n : ℕ) : List (Action K V) → List (Entry K V)
  | [] => []
  | .insert type key value :: as => ⟨⟨key, n + 1, type⟩, value⟩ :: written (n + 1) as
  | _ :: as => written n as

variable [LinearOrder K]

/-- What an action takes away from a call that has not come to the immutable memtable yet. -/
def lostBy (s : State K V) (call : ℕ) : Action K V → List (Entry K V)
  | .flush _ =>
    match s.gets[call]?.map Getting.phase with
    | some .mem | some .imm => s.immEntries
    | _ => []
  | _ => []

/-- The entries whose flush was installed before the call came to the immutable memtable. -/
def missed (call : ℕ) : State K V → List (Action K V) → List (Entry K V)
  | _, [] => []
  | s, a :: as => lostBy s call a ++ match step s a with
    | .next s' => missed call s' as
    | _ => []

/-- What is known of the versions that are installed: a flush adds the entries of the immutable memtable, and a
compaction keeps what is read at the last sequence number or later. -/
def Installs (s : State K V) : Action K V → Prop
  | .flush v => v.Sorted ∧ v.Layered Entry.tag ∧ v.contents = {e | e ∈ s.immEntries} ∪ s.current.contents
  | .compact v => v.Sorted ∧ v.Layered Entry.tag ∧ v.contents ⊆ s.current.contents ∧ ∀ key n r, s.lastsequence ≤ n →
      (Reads Entry.userkey Entry.tag Entry.result v.contents key (seekTag n) r ↔
        Reads Entry.userkey Entry.tag Entry.result s.current.contents key (seekTag n) r)
  | _ => True

/-- The entries of `A` have smaller sequence numbers than those of `B`. -/
def Before (A B : Set (Entry K V)) : Prop := ∀ a ∈ A, ∀ b ∈ B, a.sequence < b.sequence

omit [LinearOrder K] in
theorem Before.newer {A B : Set (Entry K V)} (h : Before A B) : Newer Entry.userkey Entry.tag B A :=
  fun b hb a ha _ => InternalKey.tag_lt_of_sequence_lt (h a ha b hb)

/-! ### Memtables -/

/-- The entries of a memtable are in the order of their keys and have different sequence numbers. -/
structure MemOk (mem : List (Entry K V)) : Prop where
  sorted : mem.Pairwise fun a b => a.key ≤ b.key
  distinct : ∀ a ∈ mem, ∀ b ∈ mem, a.sequence = b.sequence → a = b

theorem memOk_nil : MemOk ([] : List (Entry K V)) := ⟨List.Pairwise.nil, by simp⟩

theorem mem_memAdd {mem : List (Entry K V)} {e a : Entry K V} : a ∈ memAdd mem e ↔ a = e ∨ a ∈ mem :=
  List.mem_orderedInsert ..

theorem MemOk.memAdd {mem : List (Entry K V)} (h : MemOk mem) {e : Entry K V}
    (hnew : ∀ a ∈ mem, a.sequence < e.sequence) :
    MemOk (memAdd mem e) where
  sorted := by
    have : Std.Total fun a b : Entry K V => a.key ≤ b.key := ⟨fun a b => le_total a.key b.key⟩
    have : IsTrans (Entry K V) fun a b => a.key ≤ b.key := ⟨fun _ _ _ => le_trans⟩
    exact h.sorted.orderedInsert _ _
  distinct a ha b hb heq := by
    rcases mem_memAdd.1 ha with hae | ha'
    · rcases mem_memAdd.1 hb with hbe | hb'
      · rw [hae, hbe]
      · exact absurd (hae ▸ heq).symm (hnew b hb').ne
    · rcases mem_memAdd.1 hb with hbe | hb'
      · exact absurd (hbe ▸ heq) (hnew a ha').ne
      · exact h.distinct a ha' b hb' heq

/-- A read of a memtable finds the newest entry that it may see. -/
theorem MemOk.found {mem : List (Entry K V)} (h : mem.Pairwise fun a b => a.key ≤ b.key) (u : K) (s : ℕ) :
    ∃ found, Found Entry.userkey Entry.tag {e | e ∈ mem} u (seekTag s) found ∧
      memGet mem (LookupKey u s) = found.map Entry.result := by
  induction mem with
  | nil => exact ⟨none, fun e he => by simp at he, rfl⟩
  | cons e mem ih =>
    obtain ⟨hfirst, hrest⟩ := List.pairwise_cons.1 h
    obtain ⟨found, hfound, hget⟩ := ih hrest
    by_cases hle : LookupKey u s ≤ e.key
    · -- The first entry that is not before the key.
      have hseek : memGet (e :: mem) (LookupKey u s) = if e.key.userkey = u then some e.result else none := by
        rw [memGet, List.find?_cons_of_pos (by simpa using hle)]
        rfl
      have hle' := lookupKey_le_iff.1 hle
      by_cases hkey : e.key.userkey = u
      · refine ⟨some e, ⟨List.mem_cons_self .., hkey, ?_, fun e' he' hk _ => ?_⟩, by rw [hseek, if_pos hkey]; rfl⟩
        · exact hle'.elim (fun hlt => absurd hkey hlt.ne') And.right
        · rcases List.mem_cons.1 he' with rfl | he'
          · exact le_rfl
          · have hafter := InternalKey.le_iff.1 (hfirst e' he')
            exact hafter.elim (fun hlt => absurd (hkey.trans hk.symm) hlt.ne) And.right
      · refine ⟨none, fun e' he' hk => ?_, by rw [hseek, if_neg hkey]; rfl⟩
        have hlt : u < e.key.userkey := hle'.elim id fun heq => absurd heq.1.symm hkey
        rcases List.mem_cons.1 he' with rfl | he'
        · exact absurd hk hkey
        · have hafter := InternalKey.userkey_le (hfirst e' he')
          rw [show e'.key.userkey = u from hk] at hafter
          exact absurd hlt hafter.not_gt
    · -- The entry is of another key or too new.
      have hagree : Agree Entry.userkey Entry.tag {e' | e' ∈ mem} {e' | e' ∈ e :: mem} u (seekTag s) := by
        intro e' hk ht
        refine ⟨fun he' => List.mem_cons_of_mem _ he', fun he' => ?_⟩
        rcases List.mem_cons.1 he' with rfl | he'
        · exact absurd (lookupKey_le_iff.2 (Or.inr ⟨hk.symm, ht⟩)) hle
        · exact he'
      refine ⟨found, hagree.found hfound, ?_⟩
      rw [← hget, memGet, List.find?_cons_of_neg (by simpa using hle)]
      rfl

/-! ### States -/

/-- The memtables are newer than the version, and no sequence number is greater than the last one inserted. -/
structure Sound (s : State K V) : Prop where
  mem : MemOk s.mem
  imm : MemOk s.immEntries
  version : s.current.Sorted
  layered : s.current.Layered Entry.tag
  immMem : Before {e | e ∈ s.immEntries} {e | e ∈ s.mem}
  below : Before s.current.contents s.memories
  le : ∀ e ∈ s.contents, e.sequence ≤ s.inserted
  last : s.lastsequence ≤ s.inserted

/-- The entry that is inserted next. -/
def State.newest (s : State K V) (type : ValueType) (key : K) (value : V) : Entry K V :=
  ⟨⟨key, s.inserted + 1, type⟩, value⟩

section Steps

variable {s s' : State K V} {g : Getting K V} {held : Set (Entry K V)}

theorem sound_opened {v : Version K V} {n : ℕ} (hv : v.Sorted) (hlayered : v.Layered Entry.tag)
    (hle : ∀ e ∈ v.contents, e.sequence ≤ n) : Sound (opened v n) where
  mem := memOk_nil
  imm := memOk_nil
  version := hv
  layered := hlayered
  immMem := nofun
  below := by
    rintro a - b (hb | hb) <;> cases hb
  le := by
    rintro e ((he | he) | he)
    · cases he
    · cases he
    · exact hle e he
  last := le_rfl

omit [LinearOrder K] in
theorem immEntries_some {imm : List (Entry K V)} (h : s.imm = some imm) : s.immEntries = imm := by
  rw [State.immEntries, h, Option.getD_some]

omit [LinearOrder K] in
theorem immEntries_none (h : s.imm = none) : s.immEntries = [] := by
  rw [State.immEntries, h, Option.getD_none]

theorem Sound.lt_newest (h : Sound s) (type : ValueType) (key : K) (value : V) :
    ∀ e ∈ s.contents, e.sequence < (s.newest type key value).sequence :=
  fun e he => Nat.lt_succ_of_le (h.le e he)

theorem Sound.step (h : Sound s) {a : Action K V} (ha : Installs s a) (hs : Gets.step s a = .next s') : Sound s' := by
  cases a with
  | insert type key value =>
    simp only [Gets.step, Outcome.next.injEq] at hs
    subst hs
    have hlt := h.lt_newest type key value
    have hmem : ∀ e, e ∈ memAdd s.mem (s.newest type key value) ↔ e = s.newest type key value ∨ e ∈ s.mem := fun e =>
      mem_memAdd
    refine ⟨h.mem.memAdd fun a ha => hlt a (Or.inl (Or.inl ha)), h.imm, h.version, h.layered, ?_, ?_, ?_,
      h.last.trans (Nat.le_succ _)⟩
    · intro a ha b hb
      rcases (hmem b).1 hb with rfl | hb
      · exact hlt a (Or.inl (Or.inr ha))
      · exact h.immMem a ha b hb
    · rintro a ha b (hb | hb)
      · rcases (hmem b).1 hb with rfl | hb
        · exact hlt a (Or.inr ha)
        · exact h.below a ha b (Or.inl hb)
      · exact h.below a ha b (Or.inr hb)
    · rintro e ((he | he) | he)
      · rcases (hmem e).1 he with rfl | he
        · exact le_rfl
        · exact (hlt e (Or.inl (Or.inl he))).le
      · exact (hlt e (Or.inl (Or.inr he))).le
      · exact (hlt e (Or.inr he)).le
  | publish =>
    simp only [Gets.step, Outcome.next.injEq] at hs
    subst hs
    exact ⟨h.mem, h.imm, h.version, h.layered, h.immMem, h.below, h.le, le_rfl⟩
  | switch =>
    simp only [Gets.step] at hs
    split at hs
    · rename_i himm
      cases hs
      have hnone := immEntries_none himm
      refine ⟨memOk_nil, h.mem, h.version, h.layered, fun _ _ _ hb => absurd hb List.not_mem_nil, ?_, ?_, h.last⟩
      · rintro a ha b (hb | hb)
        · cases hb
        · exact h.below a ha b (Or.inl hb)
      · rintro e ((he | he) | he)
        · cases he
        · exact h.le e (Or.inl (Or.inl he))
        · exact h.le e (Or.inr he)
    · cases hs
  | flush v =>
    obtain ⟨hv, hlayered, hcontents⟩ := ha
    simp only [Gets.step] at hs
    split at hs
    · cases hs
      have hin : ∀ e ∈ v.contents, e ∈ s.immEntries ∨ e ∈ s.current.contents := fun e he => by rwa [hcontents] at he
      refine ⟨h.mem, memOk_nil, hv, hlayered, fun _ hb => absurd hb List.not_mem_nil, ?_, ?_, h.last⟩
      · rintro a ha b (hb | hb)
        · rcases hin a ha with ha | ha
          · exact h.immMem a ha b hb
          · exact h.below a ha b (Or.inl hb)
        · cases hb
      · rintro e ((he | he) | he)
        · exact h.le e (Or.inl (Or.inl he))
        · cases he
        · rcases hin e he with he | he
          · exact h.le e (Or.inl (Or.inr he))
          · exact h.le e (Or.inr he)
    · cases hs
  | compact v =>
    obtain ⟨hv, hlayered, hsub, -⟩ := ha
    simp only [Gets.step, Outcome.next.injEq] at hs
    subst hs
    refine ⟨h.mem, h.imm, hv, hlayered, h.immMem, fun a ha => h.below a (hsub ha), ?_, h.last⟩
    rintro e (he | he)
    · exact h.le e (Or.inl he)
    · exact h.le e (Or.inr (hsub he))
  | get key snapshot =>
    simp only [Gets.step] at hs
    split at hs
    · cases hs
      exact ⟨h.mem, h.imm, h.version, h.layered, h.immMem, h.below, h.le, h.last⟩
    · cases hs
  | probe call =>
    simp only [Gets.step] at hs
    split at hs
    · cases hs
      exact ⟨h.mem, h.imm, h.version, h.layered, h.immMem, h.below, h.le, h.last⟩
    · cases hs

/-! ### One call -/

/-- What a call that has come to a phase still looks at holds, of the key and as old as it may be, what is held. -/
def Watch (s : State K V) (g : Getting K V) (held : Set (Entry K V)) : Prop :=
  match g.phase with
  | .mem => Agree Entry.userkey Entry.tag held (s.memories ∪ g.current.contents) g.key (seekTag g.snapshot)
  | .imm =>
    Agree Entry.userkey Entry.tag held ({e | e ∈ s.immEntries} ∪ g.current.contents) g.key (seekTag g.snapshot) ∧
      Absent Entry.userkey Entry.tag {e | e ∈ s.mem} g.key (seekTag g.snapshot)
  | .version => Agree Entry.userkey Entry.tag held g.current.contents g.key (seekTag g.snapshot)
  | .done r => Reads Entry.userkey Entry.tag Entry.result held g.key (seekTag g.snapshot) r

structure Follows (s : State K V) (g : Getting K V) (held : Set (Entry K V)) : Prop where
  version : g.current.Sorted
  layered : g.current.Layered Entry.tag
  below : Before g.current.contents s.memories
  le : ∀ e ∈ g.current.contents, e.sequence ≤ s.inserted
  snapshot : g.snapshot ≤ s.inserted
  watch : Watch s g held

/-- A new entry is too new for the call. -/
theorem Follows.too_new (h : Follows s g held) (type : ValueType) (key : K) (value : V) :
    ¬(s.newest type key value).tag ≤ seekTag g.snapshot := by
  intro hle
  have hseq : s.inserted + 1 ≤ g.snapshot := tag_le_seekTag_iff.1 hle
  have hsnapshot := h.snapshot
  omega

theorem Follows.insert (h : Follows s g held) (type : ValueType) (key : K) (value : V) :
    Follows { s with mem := memAdd s.mem (s.newest type key value), inserted := s.inserted + 1 } g held := by
  have hmem : ∀ e, e.tag ≤ seekTag g.snapshot → (e ∈ memAdd s.mem (s.newest type key value) ↔ e ∈ s.mem) := by
    intro e ht
    rw [mem_memAdd]
    exact or_iff_right fun heq => h.too_new type key value (heq ▸ ht)
  refine ⟨h.version, h.layered, ?_, fun e he => (h.le e he).trans (Nat.le_succ _),
    h.snapshot.trans (Nat.le_succ _), ?_⟩
  · rintro a ha b (hb | hb)
    · rcases mem_memAdd.1 hb with rfl | hb
      · exact Nat.lt_succ_of_le (h.le a ha)
      · exact h.below a ha b (Or.inl hb)
    · exact h.below a ha b (Or.inr hb)
  · have hwatch := h.watch
    unfold Watch at hwatch ⊢
    cases hphase : g.phase with
    | mem =>
      rw [hphase] at hwatch
      intro e hk ht
      rw [hwatch e hk ht]
      exact or_congr_left (or_congr_left (hmem e ht).symm)
    | imm =>
      rw [hphase] at hwatch
      refine ⟨hwatch.1, fun e he hk => lt_of_not_ge fun ht => ?_⟩
      exact (hwatch.2 e ((hmem e ht).1 he) hk).not_ge ht
    | version =>
      rw [hphase] at hwatch
      exact hwatch
    | done r =>
      rw [hphase] at hwatch
      exact hwatch

theorem Follows.switch (h : Follows s g held) (himm : s.imm = none) :
    Follows { s with mem := [], imm := some s.mem } g held := by
  have hnone : ∀ e, ¬e ∈ s.immEntries := by simp [immEntries_none himm]
  refine ⟨h.version, h.layered, ?_, h.le, h.snapshot, ?_⟩
  · rintro a ha b (hb | hb)
    · cases hb
    · exact h.below a ha b (Or.inl hb)
  · have hwatch := h.watch
    unfold Watch at hwatch ⊢
    cases hphase : g.phase with
    | mem =>
      rw [hphase] at hwatch
      intro e hk ht
      rw [hwatch e hk ht]
      refine or_congr_left ?_
      calc e ∈ s.mem ∨ e ∈ s.immEntries ↔ e ∈ s.mem := or_iff_left (hnone e)
        _ ↔ e ∈ ([] : List (Entry K V)) ∨ e ∈ s.mem := (or_iff_right List.not_mem_nil).symm
    | imm =>
      rw [hphase] at hwatch
      obtain ⟨hagree, habsent⟩ := hwatch
      refine ⟨fun e hk ht => ?_, fun e he => absurd he List.not_mem_nil⟩
      rw [hagree e hk ht]
      have hmem : ¬e ∈ s.mem := fun he => (habsent e he hk).not_ge ht
      exact or_congr_left (iff_of_false (hnone e) hmem)
    | version =>
      rw [hphase] at hwatch
      exact hwatch
    | done r =>
      rw [hphase] at hwatch
      exact hwatch

/-- The immutable memtable is gone, and the version of the call does not have its table. -/
theorem Follows.flush (h : Follows s g held) (hs : Sound s) (v : Version K V) :
    Follows { s with imm := none, current := v } g
      (match g.phase with
        | .mem | .imm => held \ {e | e ∈ s.immEntries}
        | _ => held) := by
  have hversion : ∀ e ∈ s.immEntries, ¬e ∈ g.current.contents := fun e he hv =>
    lt_irrefl _ (h.below e hv e (Or.inr he))
  refine ⟨h.version, h.layered, ?_, h.le, h.snapshot, ?_⟩
  · rintro a ha b (hb | hb)
    · exact h.below a ha b (Or.inl hb)
    · cases hb
  · have hwatch := h.watch
    unfold Watch at hwatch ⊢
    cases hphase : g.phase with
    | mem =>
      rw [hphase] at hwatch
      intro e hk ht
      have hmem : e ∈ s.immEntries → ¬e ∈ s.mem := fun he he' => lt_irrefl _ (hs.immMem e he e he')
      rw [Set.mem_sdiff, hwatch e hk ht]
      constructor
      · rintro ⟨(he | he) | he, hnot⟩
        · exact Or.inl (Or.inl he)
        · exact absurd he hnot
        · exact Or.inr he
      · rintro ((he | he) | he)
        · exact ⟨Or.inl (Or.inl he), fun he' => hmem he' he⟩
        · cases he
        · exact ⟨Or.inr he, fun he' => hversion e he' he⟩
    | imm =>
      rw [hphase] at hwatch
      obtain ⟨hagree, habsent⟩ := hwatch
      refine ⟨fun e hk ht => ?_, habsent⟩
      rw [Set.mem_sdiff, hagree e hk ht]
      constructor
      · rintro ⟨he | he, hnot⟩
        · exact absurd he hnot
        · exact Or.inr he
      · rintro (he | he)
        · cases he
        · exact ⟨Or.inr he, fun he' => hversion e he' he⟩
    | version =>
      rw [hphase] at hwatch
      exact hwatch
    | done r =>
      rw [hphase] at hwatch
      exact hwatch

/-- A step of the call itself. -/
theorem Follows.next (h : Follows s g held) (hs : Sound s) {g' : Getting K V} (hnext : g.next s = some g') :
    g'.key = g.key ∧ g'.snapshot = g.snapshot ∧ Follows s g' held := by
  have hwatch := h.watch
  unfold Watch at hwatch
  unfold Getting.next at hnext
  cases hphase : g.phase with
  | mem =>
    simp only [hphase] at hwatch hnext
    cases hnext
    obtain ⟨found, hfound, hget⟩ := MemOk.found hs.mem.sorted g.key g.snapshot
    refine ⟨rfl, rfl, h.version, h.layered, h.below, h.le, h.snapshot, ?_⟩
    have hnewer : Newer Entry.userkey Entry.tag {e | e ∈ s.mem} ({e | e ∈ s.immEntries} ∪ g.current.contents) := by
      rintro a ha b (hb | hb) hk
      · exact hs.immMem.newer a ha b hb hk
      · exact (h.below.newer a (Or.inl ha) b hb hk)
    have hset : s.memories ∪ g.current.contents = {e | e ∈ s.mem} ∪ ({e | e ∈ s.immEntries} ∪ g.current.contents) :=
      Set.union_assoc ..
    rw [hset] at hwatch
    rw [hget]
    cases found with
    | some e => exact Agree.reads hwatch.symm ((reads_union_iff hnewer).2 (Or.inl ⟨e, hfound, rfl⟩))
    | none =>
      refine ⟨fun e hk ht => ?_, hfound⟩
      rw [hwatch e hk ht]
      exact or_iff_right fun he => (hfound e he hk).not_ge ht
  | imm =>
    simp only [hphase] at hwatch hnext
    cases hnext
    obtain ⟨hagree, -⟩ := hwatch
    refine ⟨rfl, rfl, h.version, h.layered, h.below, h.le, h.snapshot, ?_⟩
    obtain ⟨found, hfound, hget⟩ := MemOk.found hs.imm.sorted g.key g.snapshot
    have hprobe : (s.imm.bind fun imm => memGet imm (LookupKey g.key g.snapshot)) = found.map Entry.result := by
      rw [← hget]
      cases himm : s.imm with
      | none => rw [immEntries_none himm]; rfl
      | some imm => rw [immEntries_some himm]; rfl
    have hnewer : Newer Entry.userkey Entry.tag {e | e ∈ s.immEntries} g.current.contents := fun a ha b hb hk =>
      h.below.newer a (Or.inr ha) b hb hk
    rw [hprobe]
    cases found with
    | some e => exact Agree.reads hagree.symm ((reads_union_iff hnewer).2 (Or.inl ⟨e, hfound, rfl⟩))
    | none =>
      intro e hk ht
      rw [hagree e hk ht]
      exact or_iff_right fun he => (hfound e he hk).not_ge ht
  | version =>
    simp only [hphase] at hwatch hnext
    cases hnext
    refine ⟨rfl, rfl, h.version, h.layered, h.below, h.le, h.snapshot, ?_⟩
    exact Agree.reads hwatch.symm (Version.get_reads h.version h.layered g.key g.snapshot)
  | done r =>
    simp only [hphase] at hnext
    cases hnext

/-! ### Runs -/

omit [LinearOrder K] in
theorem getElem?_append_some {gets : List (Getting K V)} {call : ℕ} (hg : gets[call]? = some g) (g' : Getting K V) :
    (gets ++ [g'])[call]? = some g := by
  rw [List.getElem?_append_left (List.getElem?_eq_some_iff.1 hg).1, hg]

/-- What a step does to a call. -/
theorem Follows.step (h : Follows s g held) (hs : Sound s) {call : ℕ} (hg : s.gets[call]? = some g) {a : Action K V}
    (hstep : Gets.step s a = .next s') : ∃ g', s'.gets[call]? = some g' ∧ g'.key = g.key ∧ g'.snapshot = g.snapshot ∧
      Follows s' g' (held \ {e | e ∈ lostBy s call a}) := by
  have hkeep : (∀ v, a ≠ .flush v) → ∀ {s' g'}, Follows s' g' held →
      Follows s' g' (held \ {e | e ∈ lostBy s call a}) := by
    intro ha s' g' h
    have hnil : lostBy s call a = [] := by
      cases a with
      | flush v => exact absurd rfl (ha v)
      | _ => rfl
    simpa [hnil] using h
  cases a with
  | insert type key value =>
    cases hstep
    exact ⟨g, hg, rfl, rfl, hkeep nofun (h.insert type key value)⟩
  | publish =>
    cases hstep
    exact ⟨g, hg, rfl, rfl, hkeep nofun ⟨h.version, h.layered, h.below, h.le, h.snapshot, h.watch⟩⟩
  | switch =>
    simp only [Gets.step] at hstep
    split at hstep
    · rename_i himm
      cases hstep
      exact ⟨g, hg, rfl, rfl, hkeep nofun (h.switch himm)⟩
    · cases hstep
  | flush v =>
    simp only [Gets.step] at hstep
    split at hstep
    · cases hstep
      refine ⟨g, hg, rfl, rfl, ?_⟩
      have hflush := h.flush hs v
      cases hphase : g.phase <;> simpa [lostBy, hg, hphase] using hflush
    · cases hstep
  | compact v =>
    cases hstep
    exact ⟨g, hg, rfl, rfl, hkeep nofun ⟨h.version, h.layered, h.below, h.le, h.snapshot, h.watch⟩⟩
  | get key snapshot =>
    simp only [Gets.step] at hstep
    split at hstep
    · cases hstep
      exact ⟨g, getElem?_append_some hg _, rfl, rfl,
        hkeep nofun ⟨h.version, h.layered, h.below, h.le, h.snapshot, h.watch⟩⟩
    · cases hstep
  | probe other =>
    simp only [Gets.step] at hstep
    split at hstep
    · rename_i g' hnext
      cases hstep
      obtain ⟨g₀, hg₀, hnext⟩ := Option.bind_eq_some_iff.1 hnext
      by_cases hcall : other = call
      · subst hcall
        obtain rfl := Option.some.inj (hg.symm.trans hg₀)
        obtain ⟨hkey, hsnapshot, h'⟩ := h.next hs hnext
        refine ⟨g', ?_, hkey, hsnapshot,
          hkeep nofun ⟨h'.version, h'.layered, h'.below, h'.le, h'.snapshot, h'.watch⟩⟩
        rw [List.getElem?_set_self (List.getElem?_eq_some_iff.1 hg).1]
      · refine ⟨g, ?_, rfl, rfl, hkeep nofun ⟨h.version, h.layered, h.below, h.le, h.snapshot, h.watch⟩⟩
        rw [List.getElem?_set_ne hcall, hg]
    · cases hstep

/-- A call along a run. -/
theorem Follows.run {as : List (Action K V)} (h : Follows s g held) (hs : Sound s) {call : ℕ}
    (hg : s.gets[call]? = some g) (hmeets : Meets Gets.step Installs s as)
    (hrun : Transition.run Gets.step s as = .next s') :
    ∃ g', s'.gets[call]? = some g' ∧ g'.key = g.key ∧ g'.snapshot = g.snapshot ∧
      Follows s' g' (held \ {e | e ∈ missed call s as}) := by
  induction as generalizing s g held with
  | nil =>
    cases hrun
    exact ⟨g, hg, rfl, rfl, by simpa [missed] using h⟩
  | cons a as ih =>
    obtain ⟨hinstalls, hrest⟩ := hmeets
    rw [Transition.run] at hrun
    cases hstep : Gets.step s a with
    | disabled => simp [hstep, Outcome.bind] at hrun
    | aborted => simp [hstep, Outcome.bind] at hrun
    | next s₁ =>
      rw [hstep] at hrun
      obtain ⟨g₁, hg₁, hkey₁, hsnapshot₁, h₁⟩ := h.step hs hg hstep
      obtain ⟨g', hg', hkey', hsnapshot', h'⟩ := ih h₁ (hs.step hinstalls hstep) hg₁ (hrest s₁ hstep) hrun
      refine ⟨g', hg', hkey'.trans hkey₁, hsnapshot'.trans hsnapshot₁, ?_⟩
      have hmissed : {e | e ∈ missed call s (a :: as)} = {e | e ∈ lostBy s call a} ∪ {e | e ∈ missed call s₁ as} := by
        ext e
        simp [missed, hstep]
      rwa [hmissed, ← Set.sdiff_sdiff]

end Steps

/-! ### What is written -/

section Written

variable {v : Version K V} {n : ℕ} {s s' : State K V} {as : List (Action K V)}

omit [LinearOrder K] in
theorem written_append (n : ℕ) (as bs : List (Action K V)) :
    written n (as ++ bs) = written n as ++ written (n + (written n as).length) bs := by
  induction as generalizing n with
  | nil => rfl
  | cons a as ih =>
    cases a with
    | insert type key value =>
      rw [List.cons_append, written, written, ih, List.length_cons, List.cons_append, Nat.add_assoc, Nat.add_comm 1]
    | _ => exact ih n

/-- No two entries have the same key. -/
theorem Sound.distinct (h : Sound s) : Distinct Entry.userkey Entry.tag s.contents := by
  have hseq : ∀ {a b : Entry K V}, a.tag = b.tag → a.sequence = b.sequence := fun heq =>
    le_antisymm (InternalKey.sequence_le_of_tag_le heq.le) (InternalKey.sequence_le_of_tag_le heq.ge)
  have hbefore : ∀ {A B : Set (Entry K V)} {a b : Entry K V}, Before A B → a ∈ A → b ∈ B → a.tag ≠ b.tag :=
    fun hAB ha hb heq => absurd (hseq heq) (hAB _ ha _ hb).ne
  rintro a ((ha | ha) | ha) b ((hb | hb) | hb) hk ht
  · exact h.mem.distinct a ha b hb (hseq ht)
  · exact absurd ht.symm (hbefore h.immMem hb ha)
  · exact absurd ht.symm (hbefore h.below hb (Or.inl ha))
  · exact absurd ht (hbefore h.immMem ha hb)
  · exact h.imm.distinct a ha b hb (hseq ht)
  · exact absurd ht.symm (hbefore h.below hb (Or.inr ha))
  · exact absurd ht (hbefore h.below ha (Or.inl hb))
  · exact absurd ht (hbefore h.below ha (Or.inr hb))
  · exact Version.distinct h.version h.layered a ha b hb hk ht

theorem Sound.exists_reads (h : Sound s) (key : K) (m : ℕ) :
    ∃ r, Reads Entry.userkey Entry.tag Entry.result s.contents key (seekTag m) r := by
  obtain ⟨found, hfound, -⟩ := MemOk.found h.mem.sorted key m
  obtain ⟨found', hfound', -⟩ := MemOk.found h.imm.sorted key m
  have hmemories : Found Entry.userkey Entry.tag s.memories key (seekTag m) (found.or found') :=
    Found.union h.immMem.newer hfound hfound'
  have hversion := Version.get_reads h.version h.layered key m
  cases hor : found.or found' with
  | some e =>
    rw [hor] at hmemories
    exact ⟨e.result, (reads_union_iff h.below.newer).2 (Or.inl ⟨e, hmemories, rfl⟩)⟩
  | none =>
    rw [hor] at hmemories
    exact ⟨_, (reads_union_iff h.below.newer).2 (Or.inr ⟨hmemories, hversion⟩)⟩

/-- What was in the first version and what was written since. -/
def history (v : Version K V) (n : ℕ) (as : List (Action K V)) : Set (Entry K V) :=
  v.contents ∪ {e | e ∈ written n as}

/-- The state reads like its history from the last sequence number on. -/
structure Keeps (v : Version K V) (n : ℕ) (as : List (Action K V)) (s : State K V) : Prop where
  sound : Sound s
  inserted : s.inserted = n + (written n as).length
  le : ∀ e ∈ history v n as, e.sequence ≤ s.inserted
  reads : ∀ key m r, s.lastsequence ≤ m →
    (Reads Entry.userkey Entry.tag Entry.result s.contents key (seekTag m) r ↔
      Reads Entry.userkey Entry.tag Entry.result (history v n as) key (seekTag m) r)

theorem keeps_opened (hv : v.Sorted) (hlayered : v.Layered Entry.tag) (hle : ∀ e ∈ v.contents, e.sequence ≤ n) :
    Keeps v n [] (opened v n) := by
  have hcontents : (opened v n).contents = history v n [] := by
    ext e
    simp [State.contents, State.memories, State.immEntries, history, written, opened]
  refine ⟨sound_opened hv hlayered hle, rfl, ?_, fun key m r _ => by rw [hcontents]⟩
  rw [← hcontents]
  exact (sound_opened hv hlayered hle).le

/-- Nothing is inserted, and the state reads as before. -/
theorem Keeps.congr (h : Keeps v n as s) (hsound : Sound s') {a : Action K V}
    (ha : written n (as ++ [a]) = written n as)
    (hinserted : s'.inserted = s.inserted) (hlast : s.lastsequence ≤ s'.lastsequence)
    (hreads : ∀ key m r, s.lastsequence ≤ m →
      (Reads Entry.userkey Entry.tag Entry.result s'.contents key (seekTag m) r ↔
      Reads Entry.userkey Entry.tag Entry.result s.contents key (seekTag m) r)) :
    Keeps v n (as ++ [a]) s' := by
  have hhistory : history v n (as ++ [a]) = history v n as := by rw [history, ha, history]
  refine ⟨hsound, by rw [hinserted, ha, h.inserted], ?_, fun key m r hm => ?_⟩
  · rw [hhistory, hinserted]
    exact h.le
  · rw [hhistory, hreads key m r (hlast.trans hm), h.reads key m r (hlast.trans hm)]

theorem Keeps.step (h : Keeps v n as s) {a : Action K V} (ha : Installs s a) (hs : Gets.step s a = .next s') :
    Keeps v n (as ++ [a]) s' := by
  have hsound := h.sound.step ha hs
  have hother : (∀ type key value, a ≠ .insert type key value) → written n (as ++ [a]) = written n as := by
    intro ha
    rw [written_append]
    cases a with
    | insert type key value => exact absurd rfl (ha type key value)
    | _ => exact List.append_nil _
  cases a with
  | insert type key value =>
    cases hs
    -- The entry is newer than what the state and its history hold.
    have hwritten : written n (as ++ [.insert type key value]) = written n as ++ [s.newest type key value] := by
      rw [written_append, State.newest, h.inserted]
      rfl
    have hcontents : State.contents { s with
        mem := memAdd s.mem (s.newest type key value), inserted := s.inserted + 1 } =
        {s.newest type key value} ∪ s.contents := by
      ext e
      simp [State.contents, State.memories, State.immEntries, mem_memAdd, or_assoc]
    have hhistory : history v n (as ++ [.insert type key value]) = {s.newest type key value} ∪ history v n as := by
      ext e
      simp only [history, hwritten, List.mem_append, List.mem_singleton, Set.mem_union, Set.mem_ofPred_eq,
        Set.mem_singleton_iff]
      tauto
    have hnewer : ∀ B : Set (Entry K V), (∀ e ∈ B, e.sequence ≤ s.inserted) →
        Newer Entry.userkey Entry.tag {s.newest type key value} B := by
      intro B hB a ha b hb _
      rw [Set.mem_singleton_iff.1 ha]
      exact InternalKey.tag_lt_of_sequence_lt (Nat.lt_succ_of_le (hB b hb))
    refine ⟨hsound, by rw [hwritten, List.length_append, h.inserted]; rfl, ?_, fun key' m r hm => ?_⟩
    · rw [hhistory]
      rintro e (he | he)
      · exact (congrArg Entry.sequence (Set.mem_singleton_iff.1 he)).le
      · exact (h.le e he).trans (Nat.le_succ _)
    · rw [hhistory]
      exact hcontents ▸ Newer.reads_congr (hnewer _ h.sound.le) (hnewer _ h.le) (h.reads key' m r hm)
  | publish =>
    cases hs
    exact h.congr hsound (hother nofun) rfl h.sound.last fun _ _ _ _ => Iff.rfl
  | switch =>
    simp only [Gets.step] at hs
    split at hs
    · rename_i himm
      cases hs
      refine h.congr hsound (hother nofun) rfl le_rfl fun key m r _ => ?_
      have hcontents : State.contents { s with mem := [], imm := some s.mem } = s.contents := by
        ext e
        simp [State.contents, State.memories, State.immEntries, himm]
      rw [hcontents]
    · cases hs
  | flush v' =>
    obtain ⟨-, -, hcontents⟩ := ha
    simp only [Gets.step] at hs
    split at hs
    · cases hs
      refine h.congr hsound (hother nofun) rfl le_rfl fun key m r _ => ?_
      have hcontents' : State.contents { s with imm := none, current := v' } = s.contents := by
        ext e
        simp [State.contents, State.memories, State.immEntries, hcontents, or_assoc]
      rw [hcontents']
    · cases hs
  | compact v' =>
    obtain ⟨-, -, -, hreads⟩ := ha
    cases hs
    refine h.congr hsound (hother nofun) rfl le_rfl fun key m r hm => ?_
    exact Newer.reads_congr hsound.below.newer h.sound.below.newer (hreads key m r hm)
  | get key snapshot =>
    simp only [Gets.step] at hs
    split at hs
    · cases hs
      exact h.congr hsound (hother nofun) rfl le_rfl fun _ _ _ _ => Iff.rfl
    · cases hs
  | probe call =>
    simp only [Gets.step] at hs
    split at hs
    · cases hs
      exact h.congr hsound (hother nofun) rfl le_rfl fun _ _ _ _ => Iff.rfl
    · cases hs

theorem keeps_of_run (hv : v.Sorted) (hlayered : v.Layered Entry.tag) (hle : ∀ e ∈ v.contents, e.sequence ≤ n)
    (hmeets : Meets Gets.step Installs (opened v n) as) (hrun : Transition.run Gets.step (opened v n) as = .next s) :
    Keeps v n as s :=
  run_invariant (keeps_opened hv hlayered hle) (fun _ _ _ _ h ha hs => h.step ha hs) hmeets hrun

end Written

/-- A call of `Get` among any other steps.  When it is done it has read what the database held when it began, without
the entries whose flush was installed before it came to the immutable memtable.  So a call at the last sequence number
returns what was written last exactly if the newest entry that it may see is not among these, or what it found instead
reads the same. -/
theorem run_get_reads {v : Version K V} {n : ℕ} (hv : v.Sorted) (hlayered : v.Layered Entry.tag)
    (hle : ∀ e ∈ v.contents, e.sequence ≤ n) {before after : List (Action K V)} {key : K} {snapshot : Option ℕ}
    (hmeets : Meets Gets.step Installs (opened v n) (before ++ .get key snapshot :: after)) {s₁ s₂ : State K V}
    (h₁ : Transition.run Gets.step (opened v n) before = .next s₁)
    (h₂ : Transition.run Gets.step s₁ (.get key snapshot :: after) = .next s₂) :
    ∃ g, s₂.gets[s₁.gets.length]? = some g ∧ g.key = key ∧ g.snapshot = snapshot.getD s₁.lastsequence ∧
      ∀ r, g.phase = .done r →
        Reads Entry.userkey Entry.tag Entry.result
          (s₁.contents \ {e | e ∈ missed s₁.gets.length s₁ (.get key snapshot :: after)}) key (seekTag g.snapshot) r ∧
        (snapshot = none →
          (Reads Entry.userkey Entry.tag Entry.result (history v n before) key (seekTag g.snapshot) r ↔
            ∀ e ∈ missed s₁.gets.length s₁ (.get key snapshot :: after),
              Newest Entry.userkey Entry.tag s₁.contents key (seekTag g.snapshot) e → e.result = r)) := by
  obtain ⟨hbefore, hafter⟩ := hmeets.append
  obtain ⟨hinstalls, hmeets'⟩ := hafter s₁ h₁
  have hkeeps := keeps_of_run hv hlayered hle hbefore h₁
  have hsound := hkeeps.sound
  rw [Transition.run] at h₂
  cases hstep : Gets.step s₁ (.get key snapshot) with
  | disabled => simp [hstep, Outcome.bind] at h₂
  | aborted => simp [hstep, Outcome.bind] at h₂
  | next s =>
    rw [hstep] at h₂
    have hmissed : missed s₁.gets.length s₁ (.get key snapshot :: after) = missed s₁.gets.length s after := by
      simp [missed, hstep, lostBy]
    rw [hmissed]
    have hs := hsound.step hinstalls hstep
    have hrest := hmeets' s hstep
    simp only [Gets.step] at hstep
    split at hstep
    · rename_i hlast
      cases hstep
      have hfollows : Follows { s₁ with gets := s₁.gets ++ [⟨key, snapshot.getD s₁.lastsequence, s₁.current, .mem⟩] }
          ⟨key, snapshot.getD s₁.lastsequence, s₁.current, .mem⟩ s₁.contents :=
        ⟨hsound.version, hsound.layered, hsound.below, fun e he => hsound.le e (Or.inr he), hlast.trans hsound.last,
          fun _ _ _ => Iff.rfl⟩
      obtain ⟨g, hg, hkey, hsnapshot, hend⟩ := hfollows.run hs List.getElem?_concat_length hrest h₂
      refine ⟨g, hg, hkey, hsnapshot, fun r hdone => ?_⟩
      have hreads := hend.watch
      rw [Watch, hdone] at hreads
      dsimp only at hreads hkey hsnapshot
      rw [hkey] at hreads
      refine ⟨hreads, ?_⟩
      rintro rfl
      rw [← hkeeps.reads key g.snapshot r (by rw [hsnapshot]; exact le_rfl)]
      obtain ⟨r', hr'⟩ := hsound.exists_reads key g.snapshot
      exact Reads.sdiff_iff hsound.distinct hreads hr'
    · cases hstep

/-! ### A value that is not found -/

/-- A version with the given files, all in level 0. -/
def level0 (files : List (FileMetaData ℕ ℕ)) : Version ℕ ℕ := ⟨fun level => if level = 0 then files else [], none⟩

theorem files_level0 {files : List (FileMetaData ℕ ℕ)} {level : ℕ} {f : FileMetaData ℕ ℕ}
    (hf : f ∈ (level0 files).files level) : level = 0 ∧ f ∈ files := by
  by_cases hlevel : level = 0
  · exact ⟨hlevel, by simpa [level0, hlevel] using hf⟩
  · simp [level0, hlevel] at hf

theorem sorted_level0 {files : List (FileMetaData ℕ ℕ)} (hfiles : ∀ f ∈ files, f.Ok)
    (hnumbers : files.Pairwise fun f g => f.number ≠ g.number) : (level0 files).Sorted where
  ok level f hf := hfiles f (files_level0 hf).2
  disjoint level hlevel := by simp [level0, hlevel.ne']
  numbers level := by
    by_cases hlevel : level = 0
    · simpa [level0, hlevel] using hnumbers
    · simp [level0, hlevel]
  deepest level hlevel := by
    have hne : level ≠ 0 := by
      rintro rfl
      exact absurd hlevel (by decide)
    simp [level0, hne]

theorem layered_level0 {files : List (FileMetaData ℕ ℕ)} (hfiles : files.length ≤ 1) :
    (level0 files).Layered Entry.tag where
  levels level below hlt a ha b hb _ := by
    obtain ⟨f, hf, -⟩ := ha
    obtain ⟨g, hg, -⟩ := hb
    have hlevel := (files_level0 hf).1
    have hbelow := (files_level0 hg).1
    omega
  level0 f hf g hg hlt := by
    obtain ⟨i, hi, rfl⟩ := List.mem_iff_getElem.1 (files_level0 hf).2
    obtain ⟨j, hj, rfl⟩ := List.mem_iff_getElem.1 (files_level0 hg).2
    obtain rfl : i = j := by omega
    exact absurd hlt (lt_irrefl _)

def lostEntry : Entry ℕ ℕ := ⟨⟨1, 1, .kTypeValue⟩, 7⟩

def lostFile : FileMetaData ℕ ℕ := ⟨9, 100, lostEntry.key, lostEntry.key, [lostEntry]⟩

/-- A value is written and its memtable is switched.  A call of `Get` looks into the new memtable, then the flush is
installed, and the call finds nothing. -/
theorem run_get_reads_lost : ∃ s₁ s₂ : State ℕ ℕ,
    Transition.run Gets.step (opened (level0 []) 0) [.insert .kTypeValue 1 7, .publish, .switch] = .next s₁ ∧
    Transition.run Gets.step s₁ [.get 1 none, .probe 0, .flush (level0 [lostFile]), .probe 0, .probe 0] = .next s₂ ∧
    ∃ g, s₂.gets[0]? = some g ∧ g.phase = .done none ∧
      ¬Reads Entry.userkey Entry.tag Entry.result
        (history (level0 []) 0 [.insert .kTypeValue 1 7, .publish, .switch]) 1
        (seekTag g.snapshot) none := by
  have hempty : (level0 []).Sorted := sorted_level0 (by simp) List.Pairwise.nil
  have hfile : lostFile.Ok := ⟨List.pairwise_singleton .., rfl, rfl, by decide⟩
  have hcontents : (level0 [lostFile]).contents = {e | e ∈ [lostEntry]} ∪ (level0 []).contents := by
    ext e
    constructor
    · rintro ⟨level, f, hf, he⟩
      obtain rfl := List.mem_singleton.1 (files_level0 hf).2
      exact Or.inl he
    · rintro (he | ⟨level, f, hf, -⟩)
      · exact ⟨0, lostFile, List.mem_singleton_self _, he⟩
      · exact absurd (files_level0 hf).2 List.not_mem_nil
  have hmeets : Meets Gets.step Installs (opened (level0 []) 0) ([.insert .kTypeValue 1 7, .publish, .switch] ++
      .get 1 none :: [.probe 0, .flush (level0 [lostFile]), .probe 0, .probe 0]) := by
    refine ⟨trivial, fun _ h => ?_⟩; cases h
    refine ⟨trivial, fun _ h => ?_⟩; cases h
    refine ⟨trivial, fun _ h => ?_⟩; cases h
    refine ⟨trivial, fun _ h => ?_⟩; cases h
    refine ⟨trivial, fun _ h => ?_⟩; cases h
    refine ⟨⟨sorted_level0 (by simpa using hfile) (List.pairwise_singleton ..), layered_level0 le_rfl, hcontents⟩,
      fun _ h => ?_⟩
    cases h
    refine ⟨trivial, fun _ h => ?_⟩; cases h
    exact ⟨trivial, fun _ _ => trivial⟩
  obtain ⟨g, hg, -, hsnapshot, hdone⟩ := run_get_reads hempty (layered_level0 (Nat.zero_le 1)) (by
    rintro e ⟨level, f, hf, -⟩
    exact absurd (files_level0 hf).2 List.not_mem_nil) hmeets rfl rfl
  have hphase : g.phase = .done none := by
    obtain rfl := Option.some.inj hg
    rfl
  refine ⟨_, _, rfl, rfl, g, hg, hphase, fun hreads => ?_⟩
  have hright := ((hdone none hphase).2 rfl).1 hreads lostEntry (List.mem_singleton_self lostEntry)
  have hsnapshot' : g.snapshot = 1 := hsnapshot
  rw [hsnapshot'] at hright
  have hnone := hright ⟨Or.inl (Or.inr (List.mem_singleton_self lostEntry)), rfl, by decide, by
    rintro e ((he | he) | ⟨level, f, hf, -⟩) - -
    · cases he
    · exact (List.mem_singleton.1 he ▸ le_rfl)
    · exact absurd (files_level0 hf).2 List.not_mem_nil⟩
  cases hnone

end RedisDb.Gets
