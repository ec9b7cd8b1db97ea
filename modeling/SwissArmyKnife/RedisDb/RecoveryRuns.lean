import SwissArmyKnife.RedisDb.Recovery
import SwissArmyKnife.RedisDb.WriterRuns

/-!
# Recovery after a crash

A crash leaves prefixes of the bytes of the logs.  Of each log the rounds are recovered whose records lie wholly
inside the prefix (`Kept`), and `Recover` puts what they had logged into memtables, in order (`recover_crash`).  A
round whose sync failed is recovered like the others.
-/

namespace RedisDb.Writers

open Encoded WriteBatchInternal Transition
open BatchOp (writes)

/-! ### The rounds that are kept -/

/-- The log with the records of some rounds. -/
def logOf (n : ℕ) (history : List Round) : LogWriter :=
  ((LogWriter.new (.opened [] []) 0).addRecords (records n history)).1

/-- The longest part of the history whose records lie within the first `bytes` bytes of the log. -/
structure Kept (n : ℕ) (history : List Round) (bytes : ℕ) (kept : List Round) : Prop where
  isPrefix : kept <+: history
  le : (logOf n kept).dest.contents.length ≤ bytes
  longest : ∀ h, h <+: history → (logOf n h).dest.contents.length ≤ bytes → h <+: kept

/-- What the records of a history insert when they are recovered, whatever the writers were told. -/
def logged (n : ℕ) (history : List Round) : List Write := inserted n (history.map fun r => { r with status := .OK })

theorem logged_cons (n : ℕ) (r : Round) (history : List Round) :
    logged n (r :: history) =
      (if r.logged then writes (UInt64.ofNat (n + 1)) r.ops else []) ++ logged (n + r.numbered.length) history := by
  have hround : Round.inserted n { r with status := .OK } = if r.logged then
      writes (UInt64.ofNat (n + 1)) r.ops else [] := by
    simp only [Round.inserted, and_true]
    rfl
  rw [← hround]
  rfl

theorem flushed_addRecords {w : LogWriter} {records : List Slice} (hw : w.dest.flushed = w.dest.contents)
    (hok : ∀ a ∈ (w.addRecords records).2, a.status = .OK) :
    (w.addRecords records).1.dest.flushed = (w.addRecords records).1.dest.contents := by
  induction records generalizing w with
  | nil => exact hw
  | cons record records ih =>
    have hfirst : (w.AddRecord record).2 = .OK := hok _ (List.mem_cons_self ..)
    exact ih (LogWriter.flushed_of_ok hfirst) fun a ha => hok a (List.mem_cons_of_mem _ ha)

/-- Without failures the log only grows. -/
theorem length_addRecords_le (us zs : List Slice) :
    ((LogWriter.new (.opened [] []) 0).addRecords us).1.dest.contents.length ≤
      ((LogWriter.new (.opened [] []) 0).addRecords (us ++ zs)).1.dest.contents.length := by
  obtain ⟨-, -, -, -, hok⟩ :=
    LogWriter.writeSessions_records (show (WritableFile.opened [] []).results = [] from rfl) [us]
  have hflushed : ((LogWriter.new (.opened [] []) 0).addRecords us).1.dest.flushed =
      ((LogWriter.new (.opened [] []) 0).addRecords us).1.dest.contents :=
    flushed_addRecords rfl fun a ha => hok a (List.mem_append_left _ ha)
  have hgrow := ((LogWriter.new (.opened [] []) 0).addRecords us).1.flushed_addRecords zs
  rw [hflushed, ← LogWriter.addRecords_append] at hgrow
  exact hgrow.length_le.trans (List.take_prefix ..).length_le

theorem endoffset_le_addRecords (us zs : List Slice) :
    ∀ a ∈ (((LogWriter.new (.opened [] []) 0).addRecords us).1.addRecords zs).2,
      ((LogWriter.new (.opened [] []) 0).addRecords us).1.dest.contents.length ≤ a.endoffset := by
  induction zs generalizing us with
  | nil => exact nofun
  | cons record zs ih =>
    have hnext : (((LogWriter.new (.opened [] []) 0).addRecords us).1.AddRecord record).1 =
        ((LogWriter.new (.opened [] []) 0).addRecords (us ++ [record])).1 :=
      (LogWriter.addRecords_append _ us [record]).symm
    have hgrow := length_addRecords_le us [record]
    rw [(LogWriter.addRecords_cons ..).2, hnext]
    exact List.forall_mem_cons.2 ⟨hgrow, fun a ha => hgrow.trans (ih (us ++ [record]) a ha)⟩

/-- Of the records that follow `us`, those are within the first bytes that belong to the longest part of the
history. -/
theorem exists_kept_from (us : List Slice) (n bytes : ℕ) (history : List Round)
    (hle : ((LogWriter.new (.opened [] []) 0).addRecords us).1.dest.contents.length ≤ bytes) :
    ∃ kept, kept <+: history ∧
      ((((LogWriter.new (.opened [] []) 0).addRecords us).1.addRecords (records n history)).2.filter
        fun a => decide (a.endoffset ≤ bytes)).map (·.record) = records n kept ∧
      ((LogWriter.new (.opened [] []) 0).addRecords (us ++ records n kept)).1.dest.contents.length ≤ bytes ∧
      ∀ h, h <+: history →
      ((LogWriter.new (.opened [] []) 0).addRecords (us ++ records n h)).1.dest.contents.length ≤ bytes →
        h <+: kept := by
  induction history generalizing us n with
  | nil =>
    refine ⟨[], List.prefix_rfl, rfl, ?_, fun h hh _ => hh⟩
    rwa [records, List.append_nil]
  | cons r history ih =>
    cases hlogged : r.logged with
    | false =>
      have hrecords : ∀ h, records n (r :: h) = records (n + r.numbered.length) h := by
        intro h
        rw [records, Round.records, hlogged]
        rfl
      obtain ⟨kept, hfront, hread, hkept, hlongest⟩ := ih us (n + r.numbered.length) hle
      refine ⟨r :: kept, List.cons_prefix_cons.2 ⟨rfl, hfront⟩, ?_, ?_, fun h hh hbytes => ?_⟩
      · rw [hrecords, hrecords, hread]
      · rwa [hrecords]
      · cases h with
        | nil => exact List.nil_prefix
        | cons r' h =>
          obtain ⟨rfl, hrest⟩ := List.cons_prefix_cons.1 hh
          rw [hrecords] at hbytes
          exact List.cons_prefix_cons.2 ⟨rfl, hlongest h hrest hbytes⟩
    | true =>
      have hrecords : ∀ h, records n (r :: h) =
          (WriteBatch.record (UInt64.ofNat (n + 1)) r.ops).rep :: records (n + r.numbered.length) h := by
        intro h
        rw [records, Round.records, hlogged]
        rfl
      generalize (WriteBatch.record (UInt64.ofNat (n + 1)) r.ops).rep = record at hrecords
      have hfirst : ((LogWriter.new (.opened [] []) 0).addRecords (us ++ [record])).1 =
          (((LogWriter.new (.opened [] []) 0).addRecords us).1.AddRecord record).1 := LogWriter.addRecords_append ..
      have hsplit : ∀ h, us ++ records n (r :: h) = us ++ [record] ++ records (n + r.numbered.length) h := by
        intro h
        rw [hrecords, List.append_assoc, List.singleton_append]
      by_cases hbytes : ((LogWriter.new (.opened [] []) 0).addRecords (us ++ [record])).1.dest.contents.length ≤ bytes
      · obtain ⟨kept, hfront, hread, hkept, hlongest⟩ := ih (us ++ [record]) (n + r.numbered.length) hbytes
        refine ⟨r :: kept, List.cons_prefix_cons.2 ⟨rfl, hfront⟩, ?_, ?_, fun h hh hle => ?_⟩
        · rw [hfirst] at hread hbytes
          rw [hrecords, hrecords, (LogWriter.addRecords_cons ..).2, List.filter_cons_of_pos (by simpa using hbytes),
            List.map_cons, hread]
        · rwa [hsplit]
        · cases h with
          | nil => exact List.nil_prefix
          | cons r' h =>
            obtain ⟨rfl, hrest⟩ := List.cons_prefix_cons.1 hh
            rw [hsplit] at hle
            exact List.cons_prefix_cons.2 ⟨rfl, hlongest h hrest hle⟩
      · refine ⟨[], List.nil_prefix, ?_, ?_, fun h hh hle' => ?_⟩
        · have hend : ∀ a ∈ (((LogWriter.new (.opened [] []) 0).addRecords us).1.addRecords
              (records n (r :: history))).2,
              ¬a.endoffset ≤ bytes := by
            rw [hrecords, (LogWriter.addRecords_cons ..).2, ← hfirst]
            refine List.forall_mem_cons.2 ⟨hbytes, fun a ha hle' => hbytes ?_⟩
            exact (endoffset_le_addRecords (us ++ [record]) _ a ha).trans hle'
          rw [List.filter_eq_nil_iff.2 fun a ha => by simpa using hend a ha]
          rfl
        · rwa [records, List.append_nil]
        · cases h with
          | nil => exact List.nil_prefix
          | cons r' h =>
            obtain ⟨rfl, -⟩ := List.cons_prefix_cons.1 hh
            rw [hsplit] at hle'
            exact absurd ((length_addRecords_le _ _).trans hle') hbytes

/-- What a reader finds in a prefix of a log. -/
theorem exists_kept (n bytes : ℕ) (history : List Round) : ∃ kept, Kept n history bytes kept ∧
    (LogReader.new ⟨(logOf n history).dest.contents.take bytes, []⟩ true true 0).readAll.2 = records n kept := by
  obtain ⟨-, -, hread, -⟩ := readAll_take_writeSessions [records n history] bytes true
  obtain ⟨kept, hfront, hkept, hle, hlongest⟩ := exists_kept_from [] n bytes history (Nat.zero_le _)
  refine ⟨kept, ⟨hfront, hle, hlongest⟩, ?_⟩
  rw [← hkept]
  refine hread.trans ?_
  simp only [LogWriter.writeSessions, List.append_nil]
  rfl

/-! ### Recovery -/

/-- Memtables that hold the writes one after the other. -/
def HoldAll (comparator : Slice → Slice → Ordering) (mems : List MemTable) (l : List Write) : Prop :=
  ∃ parts, List.Forall₂ (MemTable.Holds comparator) mems parts ∧ parts.flatten = l

/-- What has been recovered up to a sequence number, without an error. -/
structure Recovers (comparator : Slice → Slice → Ordering) (n : ℕ) (r : Recovery) (l : List Write) : Prop where
  status : r.status = .OK
  held : HoldAll comparator (r.tables ++ r.mem.toList ++ (r.reused.map Prod.fst).toList) l
  saved : r.tables ≠ [] → r.savemanifest = true
  seq : ∀ a ∈ l, a.seq.toNat ≤ r.maxsequence.toNat
  le : r.maxsequence.toNat ≤ n

section Loop

variable {comparator : Slice → Slice → Ordering} {options : RecoveryOptions} {n : ℕ} {r : Recovery} {l : List Write}

theorem HoldAll.snoc {mems : List MemTable} {mem : MemTable} {part : List Write} (h : HoldAll comparator mems l)
    (hmem : mem.Holds comparator part) : HoldAll comparator (mems ++ [mem]) (l ++ part) := by
  obtain ⟨parts, hparts, rfl⟩ := h
  refine ⟨parts ++ [part], List.rel_append hparts (.cons hmem .nil), ?_⟩
  rw [List.flatten_append, List.flatten_singleton]

/-- The memtable that is being filled, which is new when there is none. -/
theorem HoldAll.exists_mem {tables : List MemTable} {mem : Option MemTable}
    (h : HoldAll comparator (tables ++ mem.toList) l) :
    ∃ before part, HoldAll comparator tables before ∧ (mem.getD .new).Holds comparator part ∧ l = before ++ part := by
  cases mem with
  | none =>
    rw [Option.toList_none, List.append_nil] at h
    exact ⟨l, [], h, MemTable.holds_new comparator, (List.append_nil l).symm⟩
  | some mem =>
    obtain ⟨parts, hparts, rfl⟩ := h
    have hbefore := (List.forall₂_take_append _ _ _ hparts.flip).flip
    have hlast := (List.forall₂_drop_append _ _ _ hparts.flip).flip
    obtain ⟨part, _, hpart, hnil, heq⟩ := List.forall₂_cons_left_iff.1 hlast
    obtain rfl := List.forall₂_nil_left_iff.1 hnil
    refine ⟨_, part, ⟨_, hbefore, rfl⟩, hpart, ?_⟩
    calc parts.flatten
      _ = (parts.take tables.length ++ parts.drop tables.length).flatten := by rw [List.take_append_drop]
      _ = (parts.take tables.length).flatten ++ part := by rw [List.flatten_append, heq, List.flatten_singleton]

theorem Recovers.mono (h : Recovers comparator n r l) {n' : ℕ} (hle : n ≤ n') : Recovers comparator n' r l :=
  ⟨h.status, h.held, h.saved, h.seq, h.le.trans hle⟩

/-- The last sequence number of a batch. -/
theorem lastseq_record {n : ℕ} {ops : List BatchOp} (hcount : ops.length < 2 ^ 31) :
    GetSequence (WriteBatch.record (UInt64.ofNat (n + 1)) ops) +
      (Count (WriteBatch.record (UInt64.ofNat (n + 1)) ops)).toInt64.toUInt64 - 1 =
        UInt64.ofNat (n + ops.length) := by
  have hholds := WriteBatch.record_holds (UInt64.ofNat (n + 1)) ops
  rw [hholds.count_toUInt64 hcount, GetSequence, hholds, decodeFixed64_append, ← UInt64.ofNat_add,
    show n + 1 + ops.length = n + ops.length + 1 by omega, UInt64.ofNat_add]
  exact add_sub_cancel_right ..

variable (options) in
/-- One record: the batch is inserted, and a memtable that is full becomes a table. -/
theorem Recovers.record [Std.TransCmp comparator] (h : Recovers comparator n r l) (hreused : r.reused = none)
    {ops : List BatchOp} (hops : ∀ op ∈ ops, op.Insertable) (hcount : ops.length < 2 ^ 31)
    (hbound : n + ops.length ≤ kMaxSequenceNumber) (draws : ℕ → List Bool) :
    ∃ mem, InsertInto comparator (WriteBatch.record (UInt64.ofNat (n + 1)) ops) (r.mem.getD .new) draws =
      some (mem, .OK) ∧
      Recovers comparator (n + ops.length) (r.inserted options (WriteBatch.record (UInt64.ofNat (n + 1)) ops) mem)
        (l ++ writes (UInt64.ofNat (n + 1)) ops) ∧
      (r.inserted options (WriteBatch.record (UInt64.ofNat (n + 1)) ops) mem).reused = none := by
  have hheld := h.held
  rw [hreused, Option.map_none, Option.toList_none, List.append_nil] at hheld
  obtain ⟨before, part, hbefore, hpart, rfl⟩ := hheld.exists_mem
  obtain ⟨hnumbers, hpairwise⟩ := numbered_writes hbound
  have hfits : ∀ a ∈ writes (UInt64.ofNat (n + 1)) ops, a.Fits := by
    intro a ha
    obtain ⟨op, hop, heq⟩ := BatchOp.mem_writes ha
    rw [heq]
    exact (hops op hop).write ((hnumbers a ha).2.trans hbound)
  -- The numbers of the batch are greater than those before.
  have hdistinct : MemTable.Distinct comparator (part ++ writes (UInt64.ofNat (n + 1)) ops) := by
    refine List.pairwise_append.2 ⟨hpart.distinct, ?_, fun a ha b hb _ heq => ?_⟩
    · exact hpairwise.imp fun hlt _ heq => by
        rw [heq] at hlt
        exact absurd hlt (lt_irrefl _)
    · have hle := h.seq a (List.mem_append_right _ ha)
      have hlt := (hnumbers b hb).1
      have hbase := h.le
      rw [heq] at hle
      omega
  obtain ⟨mem, hinsert, hmem⟩ :=
    (WriteBatch.record_holds (UInt64.ofNat (n + 1)) ops).insertInto hops hpart hfits hdistinct
    draws
  refine ⟨mem, hinsert, ?_⟩
  have hlast : (UInt64.ofNat (n + ops.length)).toNat = n + ops.length := by
    rw [UInt64.toNat_ofNat', Nat.mod_eq_of_lt]
    exact lt_of_le_of_lt hbound (by decide)
  have htables : HoldAll comparator (r.tables ++ [mem]) (before ++ part ++ writes (UInt64.ofNat (n + 1)) ops) := by
    rw [List.append_assoc]
    exact hbefore.snoc hmem
  have hmax : (if r.maxsequence < UInt64.ofNat (n + ops.length) then UInt64.ofNat (n + ops.length)
      else r.maxsequence).toNat = n + ops.length := by
    have hbase := h.le
    split_ifs with hlt
    · exact hlast
    · rw [UInt64.lt_iff_toNat_lt, hlast] at hlt
      omega
  have hseq : ∀ a ∈ before ++ part ++ writes (UInt64.ofNat (n + 1)) ops, a.seq.toNat ≤ n + ops.length := by
    intro a ha
    rcases List.mem_append.1 ha with ha | ha
    · exact ((h.seq a ha).trans h.le).trans (Nat.le_add_right ..)
    · exact (hnumbers a ha).2
  rw [Recovery.inserted, lastseq_record hcount]
  generalize (if r.maxsequence < UInt64.ofNat (n + ops.length) then UInt64.ofNat (n + ops.length)
    else r.maxsequence) = m at hmax
  rw [← hmax] at hseq ⊢
  dsimp only
  split
  · refine ⟨⟨h.status, ?_, fun _ => rfl, hseq, Nat.le_refl _⟩, hreused⟩
    simpa [Recovery.WriteLevel0Table, hreused] using htables
  · refine ⟨⟨h.status, ?_, h.saved, hseq, Nat.le_refl _⟩, hreused⟩
    simpa [hreused] using htables

/-- The records of a history, one after the other. -/
theorem Recovers.recoverRecords [Std.TransCmp comparator] (hcomparator : options.comparator = comparator)
    {history : List Round} (h : Recovers comparator n r l) (hreused : r.reused = none)
    (hcount : ∀ r ∈ history, r.ops.length < 2 ^ 31) (hops : ∀ op ∈ numbered history, op.Insertable)
    (hbound : n + (numbered history).length ≤ kMaxSequenceNumber) (draws : ℕ → ℕ → List Bool) :
    ∃ r', Recovery.recoverRecords options draws r (records n history) = some r' ∧
      Recovers comparator (n + (numbered history).length) r' (l ++ logged n history) ∧ r'.reused = none := by
  induction history generalizing n r l draws with
  | nil =>
    rw [logged, List.map_nil, inserted, List.append_nil]
    exact ⟨r, rfl, h, hreused⟩
  | cons round history ih =>
    have hlength : (numbered (round :: history)).length = round.numbered.length + (numbered history).length := by
      rw [numbered, List.flatMap_cons, List.length_append]
      rfl
    have hrest : ∀ op ∈ numbered history, op.Insertable := fun op hop => hops op (List.mem_append_right _ hop)
    rw [hlength, ← Nat.add_assoc] at hbound
    rw [hlength, ← Nat.add_assoc, logged_cons, ← List.append_assoc, records]
    cases hlogged : round.logged with
    | false =>
      have hnumbered : round.numbered = [] := by simp [Round.numbered, hlogged]
      rw [hnumbered, List.length_nil, Nat.add_zero] at hbound ⊢
      rw [Round.records, hlogged]
      simpa using ih h hreused (fun r hr => hcount r (List.mem_cons_of_mem _ hr)) hrest hbound draws
    | true =>
      have hnumbered : round.numbered = round.ops := if_pos hlogged
      rw [hnumbered] at hbound ⊢
      have hround : ∀ op ∈ round.ops, op.Insertable := fun op hop =>
        hops op (List.mem_append_left _ (hnumbered ▸ hop))
      obtain ⟨mem, hinsert, hnext, hreused'⟩ := h.record options hreused hround
        (hcount round (List.mem_cons_self ..)) (by omega) (draws 0)
      obtain ⟨r', hrun, hr'⟩ := ih hnext hreused' (fun r hr => hcount r (List.mem_cons_of_mem _ hr)) hrest hbound
        fun i => draws (i + 1)
      refine ⟨r', ?_, hr'⟩
      rw [Round.records, hlogged]
      have hsize : ¬(WriteBatch.record (UInt64.ofNat (n + 1)) round.ops).rep.length < 12 :=
        Nat.not_lt.2 (WriteBatch.record_holds ..).length
      have hcontents : SetContents (WriteBatch.record (UInt64.ofNat (n + 1)) round.ops).rep =
          some (WriteBatch.record (UInt64.ofNat (n + 1)) round.ops) := if_pos (WriteBatch.record_holds ..).length
      simp only [if_true, List.singleton_append, Recovery.recoverRecords, if_neg hsize,
        hcontents, hcomparator, hinsert,
        Option.bind_eq_bind, Option.bind_some]
      exact hrun

variable (options) in
/-- At the end of a log the memtable is reused with it or written as a table. -/
theorem Recovers.finish (h : Recovers comparator n r l) (hreused : r.reused = none)
    (lastLog : Bool) (contents : Slice) :
    Recovers comparator n (Recovery.finish options lastLog contents r) l ∧
      (Recovery.finish options lastLog contents r).mem = none ∧
      (lastLog = false → (Recovery.finish options lastLog contents r).reused = none) := by
  have hheld := h.held
  rw [hreused, Option.map_none, Option.toList_none, List.append_nil] at hheld
  have htable : ∀ mem, r.mem = some mem → HoldAll comparator (r.tables ++ [mem]) l := by
    intro mem hmem
    rwa [hmem] at hheld
  unfold Recovery.finish
  split_ifs with hreuse
  · refine ⟨⟨h.status, ?_, h.saved, h.seq, h.le⟩, rfl, fun hlast => by simp [hlast] at hreuse⟩
    cases hmem : r.mem with
    | some mem => simpa [hmem] using htable mem hmem
    | none =>
      rw [hmem] at hheld
      have hnew := hheld.snoc (MemTable.holds_new comparator)
      simpa [hmem] using hnew
  · cases hmem : r.mem with
    | some mem =>
      have hok : r.status.ok = true := by rw [h.status]; rfl
      simp only [hmem, hok, if_true]
      refine ⟨⟨h.status, ?_, fun _ => rfl, h.seq, h.le⟩, rfl, fun _ => hreused⟩
      simpa [Recovery.WriteLevel0Table, hreused] using htable mem hmem
    | none =>
      simp only [hmem]
      exact ⟨h, trivial, fun _ => hreused⟩

/-- A log of which some bytes are left. -/
theorem Recovers.recoverLogFile [Std.TransCmp comparator] (hcomparator : options.comparator = comparator)
    {history kept : List Round} {contents : Slice} (h : Recovers comparator n r l) (hmem : r.mem = none)
    (hreused : r.reused = none) (hkept : kept <+: history)
    (hread : (LogReader.new ⟨contents, []⟩ true true 0).readAll.2 = records n kept)
    (hcount : ∀ r ∈ history, r.ops.length < 2 ^ 31) (hops : ∀ op ∈ numbered history, op.Insertable)
    (hbound : n + (numbered history).length ≤ kMaxSequenceNumber) (draws : ℕ → ℕ → List Bool) (lastLog : Bool) :
    ∃ r', r.RecoverLogFile options draws lastLog contents = some r' ∧
      Recovers comparator (n + (numbered history).length) r' (l ++ logged n kept) ∧ r'.mem = none ∧
      (lastLog = false → r'.reused = none) := by
  obtain ⟨rest, rfl⟩ := hkept
  rw [numbered_append, List.length_append] at hbound ⊢
  have hstart : Recovers comparator n { r with mem := none, compactions := 0 } l := by
    refine ⟨h.status, ?_, h.saved, h.seq, h.le⟩
    have hheld := h.held
    rwa [hmem] at hheld
  obtain ⟨r', hrun, hr', hreused'⟩ := hstart.recoverRecords hcomparator hreused
    (fun r hr => hcount r (List.mem_append_left _ hr))
    (fun op hop => hops op (numbered_append kept rest ▸ List.mem_append_left _ hop)) (by omega) draws
  obtain ⟨hfinish, hfinish'⟩ := hr'.finish options hreused' lastLog contents
  refine ⟨_, ?_, hfinish.mono (by omega), hfinish'⟩
  rw [Recovery.RecoverLogFile, hread, hrun]
  rfl

end Loop

/-! ### Crashes -/

/-- The logs of which a crash has left the first bytes: the log of the memtable that is being flushed and the current
one. -/
def crashed (s : State) (oldbytes bytes : ℕ) : List Slice :=
  s.oldlogs.map (fun dest => dest.contents.take oldbytes) ++ [s.log.dest.contents.take bytes]

variable {comparator : Slice → Slice → Ordering} {Outcomes : List IoResult → Prop} {base : ℕ}
  {tmpbatch : Option WriteBatch} {as : List Action} {s : State} {history pending : List Round}

/-- The rounds that are in the logs, with the one in progress. -/
theorem Serves.written (h : Serves comparator Outcomes base tmpbatch as s history pending)
    (hsound : Sound Outcomes base as) :
    (∀ r ∈ history ++ pending, r.ops.length < 2 ^ 31) ∧
      base + (numbered (history ++ pending)).length ≤ kMaxSequenceNumber ∧
      ∀ op ∈ numbered (history ++ pending), op.Insertable := by
  have hhistory : ∀ r ∈ history, r.ops.length < 2 ^ 31 := fun r hr => (h.served.ok r hr).count
  have hphase : pending = [] ∨ ∃ group lastsequence status, pending = [⟨s.writers.take group.last, true, status⟩] ∧
      Leads base tmpbatch s history group lastsequence := by
    have hphase := h.phase
    unfold Pending at hphase
    split at hphase
    · exact Or.inl hphase.1
    · exact Or.inl hphase.1
    · exact Or.inl hphase.1
    · exact Or.inr ⟨_, _, _, hphase⟩
  rcases hphase with rfl | ⟨group, lastsequence, status, rfl, hleads⟩
  · have hinsertable := h.served.insertable hsound 0
    rw [List.take_zero, List.flatMap_nil, List.append_nil] at hinsertable
    rw [List.append_nil]
    exact ⟨hhistory, hinsertable⟩
  · have hinsertable := h.served.insertable hsound group.last
    have hnumbered : numbered (history ++ [⟨s.writers.take group.last, true, status⟩]) =
        numbered history ++ (s.writers.take group.last).flatMap Writer.ops := by
      rw [numbered_append]
      exact congrArg _ (List.append_nil _)
    rw [hnumbered]
    refine ⟨fun r hr => ?_, hinsertable⟩
    rcases List.mem_append.1 hr with hr | hr
    · exact hhistory r hr
    · exact List.mem_singleton.1 hr ▸ (hleads.ok status).count

theorem Segment.log_eq {n : ℕ} {mem : MemTable} {log : LogWriter}
    (h : Segment comparator (· = []) n history mem log) :
    log = logOf n history := by
  obtain ⟨results, rfl, hlog⟩ := h.log
  exact hlog

variable (comparator base tmpbatch) in
/-- After a crash of a run whose calls on log files all succeed, `Recover` finds no error.  It puts into tables, and
into the memtable that is reused with the last log, what the rounds inserted of which the crash has left the
records. -/
theorem recover_crash [Std.TransCmp comparator] (htmp : TmpOk tmpbatch) (writebuffersize level0 : ℕ)
    (hsound : Sound (· = []) base as)
    (hrun : run (step comparator writebuffersize) (opened tmpbatch [] (UInt64.ofNat base) level0) as = .next s)
    (options : RecoveryOptions) (hcomparator : options.comparator = comparator) (draws : ℕ → ℕ → ℕ → List Bool)
    (oldbytes bytes : ℕ) :
    ∃ history pending older immutable recent, Serves comparator (· = []) base tmpbatch as s history pending ∧
      history ++ pending = older ++ immutable ++ recent ∧ Stored comparator (· = []) base s older immutable recent ∧
      ∃ kept kept' r, Kept (base + (numbered older).length) immutable oldbytes kept ∧
        Kept (base + (numbered (older ++ immutable)).length) recent bytes kept' ∧
        Recovery.Recover options draws .init (crashed s oldbytes bytes) = some r ∧ r.mem = none ∧
        Recovers comparator (base + (numbered (history ++ pending)).length) r
          (logged (base + (numbered older).length) kept ++
            logged (base + (numbered (older ++ immutable)).length) kept') := by
  obtain ⟨history, pending, h⟩ :=
    serves_of_run comparator (· = []) writebuffersize base tmpbatch htmp rfl level0 hsound
    hrun
  obtain ⟨hcount, hbound, hops⟩ := h.written hsound
  obtain ⟨older, immutable, recent, heq, hst⟩ := h.stored
  refine ⟨history, pending, older, immutable, recent, h, heq, hst, ?_⟩
  rw [heq] at hcount hbound hops ⊢
  have hlength : base + (numbered (older ++ immutable ++ recent)).length =
      base + (numbered (older ++ immutable)).length + (numbered recent).length := by
    rw [numbered_append (older ++ immutable), List.length_append, Nat.add_assoc]
  rw [hlength] at hbound ⊢
  have hinit : Recovers comparator (base + (numbered older).length) .init [] :=
    ⟨rfl, ⟨[], .nil, rfl⟩, fun hne => absurd rfl hne, nofun, Nat.zero_le _⟩
  obtain ⟨kept', hkept', hread'⟩ := exists_kept (base + (numbered (older ++ immutable)).length) bytes recent
  -- The current log, after what has been recovered from the other one.
  have hcurrent : ∀ {r : Recovery} {l : List Write},
      Recovers comparator (base + (numbered (older ++ immutable)).length) r l →
      r.mem = none → r.reused = none →
      ∃ r', Recovery.Recover options draws r [s.log.dest.contents.take bytes] = some r' ∧
        r'.mem = none ∧ Recovers comparator
          (base + (numbered (older ++ immutable)).length + (numbered recent).length) r'
          (l ++ logged (base + (numbered (older ++ immutable)).length) kept') := by
    intro r l hr hmem hreused
    rw [hst.recent.log_eq]
    obtain ⟨r', hr', hrecovers, hmem', -⟩ := hr.recoverLogFile hcomparator hmem hreused hkept'.isPrefix hread'
      (fun r hr => hcount r (List.mem_append_right _ hr))
      (fun op hop => hops op (numbered_append (older ++ immutable) recent ▸ List.mem_append_right _ hop)) hbound
        (draws 0)
      true
    refine ⟨r', ?_, hmem', hrecovers⟩
    simp [Recovery.Recover, hr']
  have himmutable := hst.immutable
  cases himm : s.imm with
  | none =>
    rw [himm] at himmutable
    obtain ⟨rfl, holdlogs⟩ := himmutable
    obtain ⟨kept, hkept, -⟩ := exists_kept (base + (numbered older).length) oldbytes []
    obtain rfl := List.prefix_nil.1 hkept.isPrefix
    have hmono : base + (numbered older).length ≤ base + (numbered (older ++ [])).length := by rw [List.append_nil]
    obtain ⟨r, hr, hmem, hrecovers⟩ := hcurrent (hinit.mono hmono) rfl rfl
    refine ⟨[], kept', r, hkept, hkept', ?_, hmem, hrecovers⟩
    rw [crashed, holdlogs]
    exact hr
  | some imm =>
    rw [himm] at himmutable
    obtain ⟨log, hsegment, holdlogs⟩ := himmutable
    obtain ⟨kept, hkept, hread⟩ := exists_kept (base + (numbered older).length) oldbytes immutable
    have hmiddle : base + (numbered older).length + (numbered immutable).length =
        base + (numbered (older ++ immutable)).length := by
      rw [numbered_append, List.length_append, Nat.add_assoc]
    obtain ⟨r, hr, hrecovers, hmem, hreused⟩ := hinit.recoverLogFile hcomparator rfl rfl hkept.isPrefix hread
      (fun r hr => hcount r (List.mem_append_left _ (List.mem_append_right _ hr)))
      (fun op hop => hops op (by
        rw [numbered_append, numbered_append]
        exact List.mem_append_left _ (List.mem_append_right _ hop))) (by omega) (draws 1) false
    rw [hmiddle] at hrecovers
    obtain ⟨r', hr', hmem', hrecovers'⟩ := hcurrent hrecovers hmem (hreused rfl)
    refine ⟨kept, kept', r', hkept, hkept', ?_, hmem', hrecovers'⟩
    have hok : r.status.ok = true := by rw [hrecovers.status]; rfl
    rw [crashed, holdlogs, hsegment.log_eq]
    simpa [Recovery.Recover, hr, hok] using hr'

/-- A batch is logged, and a crash comes before its round has ended. -/
theorem recover_crash_logged : ∃ s, run (step compare 100) (opened none [] (UInt64.ofNat 4) 0)
      [.enter (some (.build [.Put [1] [2]])) true, .lead, .room (.ok []), .log none fun _ => []] = .next s ∧
    ∃ r, Recovery.Recover ⟨compare, 100, false, false⟩ (fun _ _ _ => []) .init (crashed s 0 100) = some r ∧
      r.mem = none ∧ r.status = .OK := by
  have hbuilt : (WriteBatch.build [.Put [1] [2]]).Built := ⟨0, _, WriteBatch.build_holds _, by decide, by decide⟩
  have hsound : Sound (· = []) 4 [.enter (some (.build [.Put [1] [2]])) true, .lead, .room (.ok []),
      .log none fun _ => []] :=
    { outcomes := by simp
      built := by
        intro w hw batch hbatch
        rw [List.mem_singleton.1 hw] at hbatch
        exact Option.some.inj hbatch ▸ hbuilt
      bound := by
        have hops : (WriteBatch.build [.Put [1] [2]]).ops = [.Put [1] [2]] :=
          (WriteBatch.build_holds _).ops_eq (by decide)
        show 4 + ((WriteBatch.build [.Put [1] [2]]).ops ++ []).length ≤ kMaxSequenceNumber
        rw [hops]
        decide }
  obtain ⟨s, hrun, -⟩ : ∃ s, run (step compare 100) (opened none [] (UInt64.ofNat 4) 0)
      [.enter (some (.build [.Put [1] [2]])) true, .lead, .room (.ok []), .log none fun _ => []] = .next s ∧
      s.log.dest.contents.length = 24 := by decide +kernel
  obtain ⟨_, _, _, _, _, -, -, -, _, _, r, -, -, hr, hmem, hrecovers⟩ :=
    recover_crash compare 4 none nofun 100 0 hsound
    hrun ⟨compare, 100, false, false⟩ rfl (fun _ _ _ => []) 0 100
  exact ⟨s, hrun, r, hr, hmem, hrecovers.status⟩

end RedisDb.Writers
