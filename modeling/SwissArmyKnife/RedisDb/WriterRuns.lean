import Mathlib.Data.List.Flatten
import SwissArmyKnife.RedisDb.LogFaults
import SwissArmyKnife.RedisDb.WriterGroups

/-!
# Runs of the queue of writers

What a run has done is a history of rounds (`Round`), in each of which the writers at the front of the queue were
served together.  The operations of the rounds that got as far as the log have consecutive sequence numbers, in the
order in which their writers have entered the queue; each round is one record of the log, and the memtables hold the
operations of the rounds that ended well (`run_serves`).
-/

namespace RedisDb.Writers

open Encoded Transition WriteBatchInternal
open BatchOp (writes)

/-! ### Histories -/

/-- Writers that were served together; `logged` tells whether they had room and a batch. -/
structure Round where
  members : List Writer
  logged : Bool
  status : Status

namespace Round

def ops (r : Round) : List BatchOp := r.members.flatMap Writer.ops

/-- The operations that got sequence numbers. -/
def numbered (r : Round) : List BatchOp := if r.logged then r.ops else []

/-- The calls of `MemTable::Add`, after the sequence number `n`. -/
def inserted (n : ℕ) (r : Round) : List Write :=
  if r.logged ∧ r.status = .OK then writes (UInt64.ofNat (n + 1)) r.ops else []

/-- The records that are added to the log. -/
def records (n : ℕ) (r : Round) : List Slice :=
  if r.logged then [(WriteBatch.record (UInt64.ofNat (n + 1)) r.ops).rep] else []

def replies (r : Round) : List (ℕ × Status) := r.members.map fun w => (w.call, r.status)

/-- A sync writer is served by a sync writer only, and with a batch it is not told that all is well unless the batch
was logged.  Without a temporary batch there is at most one batch.  The operations are no more than a count can
tell. -/
structure Ok (tmpbatch : Option WriteBatch) (r : Round) : Prop where
  sync : ∀ w ∈ r.members, w.sync = true → ∃ leader ∈ r.members.head?, leader.sync = true
  acknowledged : r.status = .OK → r.logged = true ∨ ∀ w ∈ r.members, w.batch = none
  single : tmpbatch = none → ∀ w ∈ r.members.tail, w.batch = none
  count : r.ops.length < 2 ^ 31

end Round

def numbered (history : List Round) : List BatchOp := history.flatMap Round.numbered

/-- What is inserted, after the sequence number `n`. -/
def inserted : ℕ → List Round → List Write
  | _, [] => []
  | n, r :: history => r.inserted n ++ inserted (n + r.numbered.length) history

def records : ℕ → List Round → List Slice
  | _, [] => []
  | n, r :: history => r.records n ++ records (n + r.numbered.length) history

theorem numbered_append (h h' : List Round) : numbered (h ++ h') = numbered h ++ numbered h' := List.flatMap_append

theorem inserted_append (n : ℕ) (h h' : List Round) :
    inserted n (h ++ h') = inserted n h ++ inserted (n + (numbered h).length) h' := by
  induction h generalizing n with
  | nil => rfl
  | cons r h ih =>
    rw [List.cons_append, inserted, inserted, ih, List.append_assoc, numbered, numbered, List.flatMap_cons,
      List.length_append, Nat.add_assoc]

theorem records_append (n : ℕ) (h h' : List Round) :
    records n (h ++ h') = records n h ++ records (n + (numbered h).length) h' := by
  induction h generalizing n with
  | nil => rfl
  | cons r h ih =>
    rw [List.cons_append, records, records, ih, List.append_assoc, numbered, numbered, List.flatMap_cons,
      List.length_append, Nat.add_assoc]

theorem inserted_singleton (n : ℕ) (r : Round) : inserted n [r] = r.inserted n := List.append_nil _

theorem records_singleton (n : ℕ) (r : Round) : records n [r] = r.records n := List.append_nil _

/-! ### Sequence numbers -/

/-- The sequence numbers of the writes increase between two bounds. -/
def Numbered (lo hi : ℕ) (l : List Write) : Prop :=
  (∀ a ∈ l, lo < a.seq.toNat ∧ a.seq.toNat ≤ hi) ∧ l.Pairwise fun a b => a.seq.toNat < b.seq.toNat

theorem Numbered.nil (lo hi : ℕ) : Numbered lo hi [] := ⟨by simp, List.Pairwise.nil⟩

theorem Numbered.append {lo mid hi : ℕ} {l l' : List Write} (h : Numbered lo mid l) (h' : Numbered mid hi l')
    (hlo : lo ≤ mid) (hhi : mid ≤ hi) : Numbered lo hi (l ++ l') := by
  refine ⟨fun a ha => ?_, List.pairwise_append.2 ⟨h.2, h'.2, fun a ha b hb => ?_⟩⟩
  · rcases List.mem_append.1 ha with ha | ha
    · exact ⟨(h.1 a ha).1, (h.1 a ha).2.trans hhi⟩
    · exact ⟨hlo.trans_lt (h'.1 a ha).1, (h'.1 a ha).2⟩
  · exact (h.1 a ha).2.trans_lt (h'.1 b hb).1

theorem numbered_writes {n : ℕ} {ops : List BatchOp} (h : n + ops.length ≤ kMaxSequenceNumber) :
    Numbered n (n + ops.length) (writes (UInt64.ofNat (n + 1)) ops) := by
  induction ops generalizing n with
  | nil => exact .nil _ _
  | cons op ops ih =>
    rw [List.length_cons] at h ⊢
    have hnext : UInt64.ofNat (n + 1) + 1 = UInt64.ofNat (n + 1 + 1) := (UInt64.ofNat_add ..).symm
    have hseq : (UInt64.ofNat (n + 1)).toNat = n + 1 := by
      rw [UInt64.toNat_ofNat', Nat.mod_eq_of_lt]
      exact lt_of_le_of_lt (by omega : n + 1 ≤ kMaxSequenceNumber) (by decide)
    have hhead : Numbered n (n + 1) [op.write (UInt64.ofNat (n + 1))] := by
      refine ⟨fun a ha => ?_, List.pairwise_singleton ..⟩
      rw [List.mem_singleton.1 ha, BatchOp.seq_write, hseq]
      omega
    rw [writes, hnext, ← Nat.add_right_comm n 1, show n + (ops.length + 1) = n + 1 + ops.length by omega]
    exact hhead.append (ih (by omega)) (by omega) (by omega)

theorem numbered_inserted {n : ℕ} {h : List Round} (hbound : n + (numbered h).length ≤ kMaxSequenceNumber) :
    Numbered n (n + (numbered h).length) (inserted n h) := by
  induction h generalizing n with
  | nil => exact .nil _ _
  | cons r h ih =>
    have hlength : (numbered (r :: h)).length = r.numbered.length + (numbered h).length := by
      rw [numbered, List.flatMap_cons, List.length_append]
      rfl
    rw [hlength] at hbound ⊢
    rw [inserted, ← Nat.add_assoc]
    have hhead : Numbered n (n + r.numbered.length) (r.inserted n) := by
      rw [Round.inserted]
      split_ifs with hlogged
      · have hnumbered : r.numbered = r.ops := if_pos hlogged.1
        rw [hnumbered] at hbound ⊢
        exact numbered_writes (by omega)
      · exact .nil _ _
    exact hhead.append (ih (by omega)) (by omega) (by omega)

theorem mem_inserted {n : ℕ} {h : List Round} {a : Write} (ha : a ∈ inserted n h) :
    ∃ op ∈ numbered h, a = op.write a.seq := by
  induction h generalizing n with
  | nil => simp [inserted] at ha
  | cons r h ih =>
    rw [inserted] at ha
    rw [numbered, List.flatMap_cons]
    rcases List.mem_append.1 ha with ha | ha
    · rw [Round.inserted] at ha
      split_ifs at ha with hlogged
      · obtain ⟨op, hop, heq⟩ := BatchOp.mem_writes ha
        refine ⟨op, List.mem_append_left _ ?_, heq⟩
        rwa [Round.numbered, if_pos hlogged.1]
      · simp at ha
    · obtain ⟨op, hop, heq⟩ := ih ha
      exact ⟨op, List.mem_append_right _ hop, heq⟩

/-- What is inserted fits into a memtable, and no two of the writes have the same sequence number. -/
theorem fits_inserted {comparator : Slice → Slice → Ordering} {n : ℕ} {h : List Round}
    (hbound : n + (numbered h).length ≤ kMaxSequenceNumber) (hops : ∀ op ∈ numbered h, op.Insertable) :
    (∀ a ∈ inserted n h, a.Fits) ∧ MemTable.Distinct comparator (inserted n h) := by
  obtain ⟨hbounds, hpairwise⟩ := numbered_inserted hbound
  refine ⟨fun a ha => ?_, hpairwise.imp fun hlt _ heq => ?_⟩
  · obtain ⟨op, hop, heq⟩ := mem_inserted ha
    rw [heq]
    exact (hops op hop).write ((hbounds a ha).2.trans hbound)
  · rw [heq] at hlt
    exact absurd hlt (lt_irrefl _)

/-! ### What holds of a run -/

/-- The calls in the order in which they enter the queue. -/
def entrants : ℕ → List Action → List Writer
  | _, [] => []
  | n, .enter batch sync :: as => ⟨n, batch, sync⟩ :: entrants (n + 1) as
  | n, _ :: as => entrants n as

theorem entrants_append (n : ℕ) (as bs : List Action) :
    entrants n (as ++ bs) = entrants n as ++ entrants (n + (entrants n as).length) bs := by
  induction as generalizing n with
  | nil => rfl
  | cons a as ih =>
    cases a with
    | enter batch sync =>
      rw [List.cons_append, entrants, entrants, ih, List.length_cons, List.cons_append, Nat.add_assoc, Nat.add_comm 1]
    | _ => exact ih n

variable (comparator : Slice → Slice → Ordering) (Outcomes : List IoResult → Prop) (writebuffersize base : ℕ)
  (tmpbatch : Option WriteBatch)

/-- A memtable and its log, with the rounds that were written to them.  `Outcomes` is what is known of the outcomes of
the calls on a log file. -/
structure Segment (n : ℕ) (history : List Round) (mem : MemTable) (log : LogWriter) : Prop where
  mem : mem.Holds comparator (inserted n history)
  log : ∃ results, Outcomes results ∧
    log = ((LogWriter.new (.opened [] results) 0).addRecords (records n history)).1

/-- The rounds in the memtable that is being flushed, and those in the current one. -/
structure Stored (s : State) (older immutable recent : List Round) : Prop where
  recent : Segment comparator Outcomes (base + (numbered (older ++ immutable)).length) recent s.mem s.log
  immutable : match s.imm with
    | none => immutable = [] ∧ s.oldlogs = []
    | some imm =>
      ∃ log, Segment comparator Outcomes (base + (numbered older).length) immutable imm log ∧ s.oldlogs = [log.dest]

/-- The calls have been served in the order of the queue, and the others wait. -/
structure Served (as : List Action) (s : State) (history : List Round) : Prop where
  queue : history.flatMap Round.members ++ s.writers = entrants 0 as
  entered : s.entered = (entrants 0 as).length
  replies : s.replies = history.flatMap Round.replies
  ok : ∀ r ∈ history, r.Ok tmpbatch

/-- The group of the call at the front. -/
structure Leads (s : State) (history : List Round) (group : Group) (lastsequence : UInt64) : Prop where
  pos : 0 < group.last
  le : group.last ≤ s.writers.length
  updates : group.updates = .record (UInt64.ofNat (base + (numbered history).length + 1))
    ((s.writers.take group.last).flatMap Writer.ops)
  lastsequence : lastsequence = UInt64.ofNat (base + (numbered history).length +
    ((s.writers.take group.last).flatMap Writer.ops).length)
  ok : ∀ status, Round.Ok tmpbatch ⟨s.writers.take group.last, true, status⟩
  tmp : group.tmp = false → TmpOk s.tmpbatch
  own : tmpbatch = none → group.tmp = false

/-- The round that is written already while its writers still wait. -/
def Pending (s : State) (history pending : List Round) : Prop :=
  match s.phase with
  | .waiting => pending = [] ∧ TmpOk s.tmpbatch
  | .room _ _ => pending = [] ∧ TmpOk s.tmpbatch ∧ s.writers ≠ []
  | .logging group lastsequence => pending = [] ∧ Leads base tmpbatch s history group lastsequence
  | .logged group lastsequence status _ =>
    pending = [⟨s.writers.take group.last, true, status⟩] ∧ Leads base tmpbatch s history group lastsequence

/-- What holds after the actions, with the rounds that they have finished and the one in progress. -/
structure Serves (as : List Action) (s : State) (history pending : List Round) : Prop where
  served : Served tmpbatch as s history
  lastsequence : s.lastsequence = UInt64.ofNat (base + (numbered history).length)
  tmp : s.tmpbatch = none ↔ tmpbatch = none
  phase : Pending base tmpbatch s history pending
  stored : ∃ older immutable recent, history ++ pending = older ++ immutable ++ recent ∧
    Stored comparator Outcomes base s older immutable recent

/-- The outcomes on log files are as known, the batches of the calls were built, and the sequence numbers suffice for
their operations. -/
structure Sound (as : List Action) : Prop where
  outcomes : ∀ results, .room (.ok results) ∈ as → Outcomes results
  built : ∀ w ∈ entrants 0 as, w.Built
  bound : base + ((entrants 0 as).flatMap Writer.ops).length ≤ kMaxSequenceNumber

/-- No second batch is to be taken into a group when there is no temporary batch. -/
def TmpUnused (s : State) : Action → Prop
  | .room newFile => s.tmpbatch = none → ∀ force allowdelay w writers batch, s.phase = .room force allowdelay →
      s.writers = w :: writers → w.batch = some batch →
      MakeRoomForWrite writebuffersize s force allowdelay newFile = .return .OK →
      second w.sync (maxSize (ByteSize batch)) (ByteSize batch) writers = false
  | _ => True

/-! ### Steps that leave the rounds alone -/

section Frame

variable {comparator Outcomes writebuffersize base tmpbatch} {as : List Action} {s s' : State}
  {history pending : List Round}

theorem entrants_other {a : Action} (h : ∀ batch sync, a ≠ .enter batch sync) :
    entrants 0 (as ++ [a]) = entrants 0 as := by
  rw [entrants_append]
  cases a with
  | enter batch sync => exact absurd rfl (h batch sync)
  | _ => exact List.append_nil _

theorem Leads.congr {group : Group} {lastsequence : UInt64} (h : Leads base tmpbatch s history group lastsequence)
    (hwriters : s.writers <+: s'.writers) (htmp : s'.tmpbatch = s.tmpbatch) :
    Leads base tmpbatch s' history group lastsequence := by
  obtain ⟨more, hmore⟩ := hwriters
  have htake : s'.writers.take group.last = s.writers.take group.last := by
    rw [← hmore, List.take_append_of_le_length h.le]
  exact {
    pos := h.pos
    le := by
      rw [← hmore, List.length_append]
      exact Nat.le_add_right_of_le h.le
    updates := htake ▸ h.updates
    lastsequence := htake ▸ h.lastsequence
    ok := htake ▸ h.ok
    tmp := htmp ▸ h.tmp
    own := h.own }

theorem Pending.congr (h : Pending base tmpbatch s history pending) (hphase : s'.phase = s.phase)
    (hwriters : s.writers <+: s'.writers) (htmp : s'.tmpbatch = s.tmpbatch) :
    Pending base tmpbatch s' history pending := by
  unfold Pending at h ⊢
  rw [hphase]
  cases hp : s.phase with
  | waiting =>
    rw [hp] at h
    exact ⟨h.1, htmp ▸ h.2⟩
  | room force allowdelay =>
    rw [hp] at h
    exact ⟨h.1, htmp ▸ h.2.1, fun hnil => h.2.2 (List.prefix_nil.1 (hnil ▸ hwriters))⟩
  | logging group lastsequence =>
    rw [hp] at h
    exact ⟨h.1, h.2.congr hwriters htmp⟩
  | logged group lastsequence status syncerror =>
    rw [hp] at h
    obtain ⟨hpending, hleads⟩ := h
    obtain ⟨more, hmore⟩ := hwriters
    refine ⟨?_, hleads.congr ⟨more, hmore⟩ htmp⟩
    rw [hpending, ← hmore, List.take_append_of_le_length hleads.le]

/-- A step that does not touch the queue, the logs and the memtables. -/
theorem Serves.congr {a : Action} (h : Serves comparator Outcomes base tmpbatch as s history pending)
    (ha : ∀ batch sync, a ≠ .enter batch sync) (hwriters : s'.writers = s.writers) (hentered : s'.entered = s.entered)
    (hreplies : s'.replies = s.replies) (hlastsequence : s'.lastsequence = s.lastsequence)
    (htmp : s'.tmpbatch = s.tmpbatch) (hpending : Pending base tmpbatch s' history pending)
    (hstored : s'.log = s.log ∧ s'.oldlogs = s.oldlogs ∧ s'.mem = s.mem ∧ s'.imm = s.imm) :
    Serves comparator Outcomes base tmpbatch (as ++ [a]) s' history pending where
  served :=
    { queue := by rw [entrants_other ha, hwriters, h.served.queue]
      entered := by rw [entrants_other ha, hentered, h.served.entered]
      replies := by rw [hreplies, h.served.replies]
      ok := h.served.ok }
  lastsequence := by rw [hlastsequence, h.lastsequence]
  tmp := by rw [htmp, h.tmp]
  phase := hpending
  stored := by
    obtain ⟨older, immutable, recent, heq, hst⟩ := h.stored
    obtain ⟨hlog, holdlogs, hmem, himm⟩ := hstored
    refine ⟨older, immutable, recent, heq, ?_, ?_⟩
    · rw [hmem, hlog]
      exact hst.recent
    · rw [himm, holdlogs]
      exact hst.immutable

theorem serves_enter (h : Serves comparator Outcomes base tmpbatch as s history pending) (batch : Option WriteBatch)
    (sync : Bool) : Serves comparator Outcomes base tmpbatch (as ++ [.enter batch sync])
      { s with writers := s.writers ++ [⟨s.entered, batch, sync⟩], entered := s.entered + 1 } history pending := by
  have hentrants : entrants 0 (as ++ [.enter batch sync]) = entrants 0 as ++ [⟨s.entered, batch, sync⟩] := by
    rw [entrants_append, Nat.zero_add, ← h.served.entered]
    rfl
  exact {
    served :=
      { queue := by rw [hentrants, ← h.served.queue, List.append_assoc]
        entered := by rw [hentrants, List.length_append, ← h.served.entered]; rfl
        replies := h.served.replies
        ok := h.served.ok }
    lastsequence := h.lastsequence
    tmp := h.tmp
    phase := h.phase.congr rfl (List.prefix_append ..) rfl
    stored := by
      obtain ⟨older, immutable, recent, heq, hst⟩ := h.stored
      exact ⟨older, immutable, recent, heq, hst.recent, hst.immutable⟩ }

/-- The table of `imm` is installed, and its log is not needed any more. -/
theorem serves_flushed (h : Serves comparator Outcomes base tmpbatch as s history pending) (level0 : ℕ) :
    Serves comparator Outcomes base tmpbatch
      (as ++ [.flushed level0]) { s with imm := none, oldlogs := [], level0 := level0 }
      history pending := by
  have hserved : Served tmpbatch (as ++ [.flushed level0]) s history := by
    have heq : entrants 0 (as ++ [.flushed level0]) = entrants 0 as := entrants_other nofun
    exact ⟨heq ▸ h.served.queue, heq ▸ h.served.entered, h.served.replies, h.served.ok⟩
  obtain ⟨older, immutable, recent, heq, hst⟩ := h.stored
  refine ⟨⟨hserved.queue, hserved.entered, hserved.replies, hserved.ok⟩, h.lastsequence, h.tmp,
    h.phase.congr rfl List.prefix_rfl rfl, older ++ immutable, [], recent, by simpa using heq, ?_, rfl, rfl⟩
  simpa using hst.recent

end Frame

/-! ### Rounds -/

section Rounds

variable {comparator Outcomes writebuffersize base tmpbatch} {as : List Action} {s s' : State}
  {history pending : List Round}

theorem exists_bgerror (s : State) (status : Status) :
    ∃ e, RecordBackgroundError s status = { s with bgerror := e } := by
  unfold RecordBackgroundError
  split
  · exact ⟨status, rfl⟩
  · exact ⟨s.bgerror, rfl⟩

/-- A round that does not return delays the call, waits, or switches to a new memtable and a new log. -/
theorem makeRoomForWrite_again {force allowdelay : Bool} {newFile : Except String (List IoResult)}
    (h : MakeRoomForWrite writebuffersize s force allowdelay newFile = .again s') :
    s' = { s with phase := .room force false } ∨ s' = s ∨ s.imm = none ∧
    ∃ results, newFile = .ok results ∧ s' = { s with
      log := .new (.opened [] results) 0, oldlogs := s.oldlogs ++ [s.log.dest], imm := some s.mem, mem := .new,
      phase := .room false allowdelay } := by
  unfold MakeRoomForWrite at h
  split_ifs at h with herror hdelay hroom himm hstop hempty
  · cases h
    exact Or.inl rfl
  · cases h
    exact Or.inr (Or.inl rfl)
  · cases h
    exact Or.inr (Or.inl rfl)
  · cases newFile with
    | error msg => cases h
    | ok results =>
      cases h
      exact Or.inr (Or.inr ⟨by simpa using himm, results, rfl, rfl⟩)

theorem Served.pop (h : Served tmpbatch as s history) {n : ℕ} {logged : Bool} {status : Status}
    (hok : Round.Ok tmpbatch ⟨s.writers.take n, logged, status⟩) :
    Served tmpbatch as (popWriters s n status) (history ++ [⟨s.writers.take n, logged, status⟩]) where
  queue := by
    rw [List.flatMap_append, List.append_assoc, List.flatMap_singleton]
    show _ ++ (s.writers.take n ++ s.writers.drop n) = _
    rw [List.take_append_drop, h.queue]
  entered := h.entered
  replies := by
    rw [List.flatMap_append, List.flatMap_singleton, ← h.replies]
    rfl
  ok r hr := by
    rcases List.mem_append.1 hr with hr | hr
    · exact h.ok r hr
    · exact List.mem_singleton.1 hr ▸ hok

/-- A call that has no room or no batch leaves the queue alone. -/
theorem serves_refused (h : Serves comparator Outcomes base tmpbatch as s history pending)
    {w : Writer} {writers : List Writer}
    {status : Status} {force allowdelay : Bool} (hphase : s.phase = .room force allowdelay)
    (hwriters : s.writers = w :: writers) (hbuilt : w.Built) (hstatus : status = .OK → w.batch = none) :
    Serves comparator Outcomes base tmpbatch as (popWriters s 1 status) (history ++ [⟨[w], false, status⟩]) [] := by
  have hround : (⟨[w], false, status⟩ : Round) = ⟨s.writers.take 1, false, status⟩ := by rw [hwriters]; rfl
  have hok : Round.Ok tmpbatch ⟨[w], false, status⟩ :=
    { sync := fun v hv hsync => ⟨w, rfl, by rw [← List.mem_singleton.1 hv]; exact hsync⟩
      acknowledged := fun hst => Or.inr fun v hv => by rw [List.mem_singleton.1 hv]; exact hstatus hst
      single := by simp
      count := by
        rw [Round.ops, List.flatMap_singleton]
        exact hbuilt.length_ops }
  obtain ⟨hpending, htmp, -⟩ : pending = [] ∧ TmpOk s.tmpbatch ∧ s.writers ≠ [] := by
    have := h.phase
    rwa [Pending, hphase] at this
  have hnumbered : numbered (history ++ [⟨[w], false, status⟩]) = numbered history := by
    rw [numbered_append]
    exact List.append_nil _
  obtain ⟨older, immutable, recent, heq, hst⟩ := h.stored
  refine ⟨hround ▸ h.served.pop (hround ▸ hok), ?_, h.tmp, ⟨rfl, htmp⟩, older, immutable,
    recent ++ [⟨[w], false, status⟩], ?_, ⟨⟨?_, ?_⟩, hst.immutable⟩⟩
  · rw [hnumbered]
    exact h.lastsequence
  · rw [List.append_nil, ← List.append_assoc, ← heq, hpending, List.append_nil]
  · rw [inserted_append, inserted_singleton, show Round.inserted _ ⟨[w], false, status⟩ =
      [] from rfl, List.append_nil]
    exact hst.recent.mem
  · rw [records_append, records_singleton, show Round.records _ ⟨[w], false, status⟩ = [] from rfl, List.append_nil]
    exact hst.recent.log

/-- The operations that have sequence numbers and those of the writers at the front are those of calls. -/
theorem Served.ops_sublist (h : Served tmpbatch as s history) (n : ℕ) :
    (numbered history ++ (s.writers.take n).flatMap Writer.ops).Sublist ((entrants 0 as).flatMap Writer.ops) := by
  rw [← h.queue, List.flatMap_append, List.flatMap_assoc]
  refine List.Sublist.append (List.Sublist.flatMap_right _ fun r _ => ?_) ((List.take_sublist n s.writers).flatMap _)
  rw [Round.numbered]
  split
  · exact List.Sublist.refl _
  · exact List.nil_sublist _

/-- The rounds written so far, with the one in progress, have operations that memtables take. -/
theorem Served.insertable (h : Served tmpbatch as s history) (hsound : Sound Outcomes base as) (n : ℕ) :
    base + (numbered history ++ (s.writers.take n).flatMap Writer.ops).length ≤ kMaxSequenceNumber ∧
      ∀ op ∈ numbered history ++ (s.writers.take n).flatMap Writer.ops, op.Insertable := by
  have hsub := h.ops_sublist n
  refine ⟨(Nat.add_le_add_left hsub.length_le base).trans hsound.bound, fun op hop => ?_⟩
  obtain ⟨w, hw, hop⟩ := List.mem_flatMap.1 (hsub.subset hop)
  unfold Writer.ops at hop
  cases hbatch : w.batch with
  | none => simp [hbatch] at hop
  | some batch =>
    rw [hbatch] at hop
    exact (hsound.built w hw batch hbatch).insertable op hop

theorem Served.built (h : Served tmpbatch as s history) (hsound : Sound Outcomes base as) :
    ∀ w ∈ s.writers, w.Built :=
  fun w hw => hsound.built w (h.queue ▸ List.mem_append_right _ hw)

/-- The call at the front leads the writers that it has put together. -/
theorem leads_beginGroup (h : Serves comparator Outcomes base tmpbatch as s history pending)
    {w : Writer} {writers : List Writer}
    (hwriters : s.writers = w :: writers) {group : Group} {n : ℕ} (hpos : 0 < n) (hle : n ≤ s.writers.length)
    (hlast : group.last = n) {seq : UInt64} (hholds : group.updates.Holds seq ((s.writers.take n).flatMap Writer.ops))
    (hlength : ((s.writers.take n).flatMap Writer.ops).length < 2 ^ 31)
    (hsync : ∀ v ∈ s.writers.take n, v.sync = true → w.sync = true)
    (hown : tmpbatch = none → group.tmp = false)
    (halone : tmpbatch = none → ∀ v ∈ writers.take (n - 1), v.batch = none) (htmp : TmpOk s.tmpbatch) :
    ∃ group' lastsequence, (beginGroup s group).phase = .logging group' lastsequence ∧
      Leads base tmpbatch (beginGroup s group) history group' lastsequence := by
  refine ⟨_, _, rfl, ?_⟩
  subst hlast
  have hseq : s.lastsequence + 1 = UInt64.ofNat (base + (numbered history).length + 1) := by
    rw [h.lastsequence]
    exact (UInt64.ofNat_add ..).symm
  exact {
    pos := hpos
    le := hle
    updates := by
      rw [← hseq]
      exact hholds.eq_record _
    lastsequence := by
      rw [(hholds.setSequence _).count_toUInt64 hlength, h.lastsequence]
      exact (UInt64.ofNat_add ..).symm
    ok := fun status =>
      { sync := fun v hv hv' => by
          refine ⟨w, ?_, hsync v hv hv'⟩
          show w ∈ (s.writers.take group.last).head?
          rw [hwriters, List.take_cons hpos]
          rfl
        acknowledged := fun _ => Or.inl rfl
        single := fun hnone v hv => by
          refine halone hnone v ?_
          rw [show (beginGroup s group).writers = s.writers from rfl, hwriters] at hv
          rwa [List.take_cons hpos] at hv
        count := hlength }
    tmp := fun hown => by
      have hown : group.tmp = false := hown
      show TmpOk (if group.tmp then _ else s.tmpbatch)
      rwa [hown]
    own := hown }

/-- The call at the front has made room and puts its group together. -/
theorem startGroup_decides (h : Serves comparator Outcomes base tmpbatch as s history pending)
    (hsound : Sound Outcomes base as)
    {w : Writer} {writers : List Writer} {status : Status} {force allowdelay : Bool}
    (hphase : s.phase = .room force allowdelay) (hwriters : s.writers = w :: writers) :
    (startGroup s w writers status).Decides
      (s.tmpbatch = none → ∀ batch, w.batch = some batch → status = .OK →
        second w.sync (maxSize (ByteSize batch)) (ByteSize batch) writers = false)
      fun s' => ∃ history' pending', Serves comparator Outcomes base tmpbatch as s' history' pending' := by
  unfold startGroup
  have hbuilt : w.Built := h.served.built hsound w (hwriters ▸ List.mem_cons_self ..)
  cases hbatch : w.batch with
  | none => exact ⟨nofun, _, _, serves_refused h hphase hwriters hbuilt fun _ => hbatch⟩
  | some batch =>
    by_cases hok : status.ok
    · obtain ⟨hpending, htmp, -⟩ : pending = [] ∧ TmpOk s.tmpbatch ∧ s.writers ≠ [] := by
        have := h.phase
        rwa [Pending, hphase] at this
      have hspec := buildBatchGroup_spec htmp hbatch (hwriters ▸ h.served.built hsound)
      simp only [hok, if_true]
      cases hgroup : BuildBatchGroup s.tmpbatch batch w.sync writers with
      | none =>
        rw [hgroup] at hspec
        intro hsecond
        have := hsecond hspec.1 batch rfl (Status.ok_iff.1 hok)
        rw [hspec.2] at this
        cases this
      | some group =>
        rw [hgroup] at hspec
        obtain ⟨n, hpos, hle, hlast, ⟨seq, hholds⟩, hlength, hsync, halone⟩ := hspec
        rw [← hwriters] at hle hholds hlength hsync
        obtain ⟨group', lastsequence, hphase', hleads⟩ :=
          leads_beginGroup h hwriters hpos hle hlast hholds hlength hsync
          (fun hnone => (halone (h.tmp.2 hnone)).2.1) (fun hnone => (halone (h.tmp.2 hnone)).2.2) htmp
        refine ⟨fun hnone b hb _ => ?_, history, [], ?_⟩
        · obtain rfl := Option.some.inj hb
          exact (halone hnone).1
        · obtain ⟨older, immutable, recent, heq, hst⟩ := h.stored
          refine ⟨⟨h.served.queue, h.served.entered, h.served.replies, h.served.ok⟩, h.lastsequence, ?_, ?_,
            older, immutable, recent, hpending ▸ heq, hst.recent, hst.immutable⟩
          · show (if group.tmp then _ else s.tmpbatch) = none ↔ _
            split_ifs with hown
            · refine iff_of_false (by simp) fun hnone => ?_
              rw [(halone (h.tmp.2 hnone)).2.1] at hown
              cases hown
            · exact h.tmp
          · rw [Pending, hphase']
            exact ⟨rfl, hleads⟩
    · simp only [hok]
      have hstatus : status ≠ .OK := fun heq => hok (by rw [heq]; rfl)
      exact ⟨fun _ _ _ heq => absurd heq hstatus, _, _,
        serves_refused h hphase hwriters hbuilt fun heq => absurd heq hstatus⟩

variable (base) in
/-- The last rounds of a history, after the sequence number `n`. -/
structure Tail (history : List Round) (n : ℕ) (recent : List Round) : Prop where
  number : base + (numbered history).length = n + (numbered recent).length
  sub : ∀ op ∈ numbered recent, op ∈ numbered history

theorem tail_of_append {older recent : List Round} (heq : history = older ++ recent) :
    Tail base history (base + (numbered older).length) recent where
  number := by rw [heq, numbered_append, List.length_append, Nat.add_assoc]
  sub op hop := by
    rw [heq, numbered_append]
    exact List.mem_append_right _ hop

/-- The log has the record of the group, and the memtable what is inserted of it. -/
theorem serves_logged (h : Serves comparator Outcomes base tmpbatch as s history pending) {group : Group}
    {lastsequence : UInt64} (hphase : s.phase = .logging group lastsequence) {mem : MemTable} {status : Status}
    (hmem : ∀ {n : ℕ} {recent : List Round}, Tail base history n recent → s.mem.Holds comparator (inserted n recent) →
      mem.Holds comparator (inserted n (recent ++ [⟨s.writers.take group.last, true, status⟩]))) (syncerror : Bool) :
    Serves comparator Outcomes base tmpbatch as
      { s with
        log := (s.log.AddRecord (Contents group.updates)).1, mem := mem,
        phase := .logged group lastsequence status syncerror }
      history [⟨s.writers.take group.last, true, status⟩] := by
  obtain ⟨hpending, hleads⟩ : pending = [] ∧ Leads base tmpbatch s history group lastsequence := by
    have := h.phase
    rwa [Pending, hphase] at this
  obtain ⟨older, immutable, recent, heq, hst⟩ := h.stored
  rw [hpending, List.append_nil] at heq
  have htail : Tail base history _ recent := tail_of_append heq
  obtain ⟨results, hresults, hlog⟩ := hst.recent.log
  refine ⟨⟨h.served.queue, h.served.entered, h.served.replies, h.served.ok⟩, h.lastsequence, h.tmp,
    ⟨rfl, ⟨hleads.pos, hleads.le, hleads.updates, hleads.lastsequence, hleads.ok, hleads.tmp, hleads.own⟩⟩,
    older, immutable, recent ++ [⟨s.writers.take group.last, true, status⟩], ?_,
    ⟨hmem htail hst.recent.mem, results, hresults, ?_⟩, hst.immutable⟩
  · rw [heq, List.append_assoc]
  · have hrecord : records (base + (numbered (older ++ immutable)).length)
        (recent ++ [⟨s.writers.take group.last, true, status⟩]) =
        records (base + (numbered (older ++ immutable)).length) recent ++ [Contents group.updates] := by
      rw [records_append, records_singleton, ← htail.number, hleads.updates]
      rfl
    rw [hrecord, LogWriter.addRecords_append, ← hlog]
    rfl

/-- The group can be inserted into the memtable. -/
theorem exists_insertInto [Std.TransCmp comparator] (h : Served tmpbatch as s history)
    (hsound : Sound Outcomes base as)
    {group : Group} {lastsequence : UInt64} (hleads : Leads base tmpbatch s history group lastsequence)
    (draws : ℕ → List Bool) {n : ℕ} {recent : List Round} (htail : Tail base history n recent)
    (hmem : s.mem.Holds comparator (inserted n recent)) :
    ∃ mem, InsertInto comparator group.updates s.mem draws = some (mem, .OK) ∧
      mem.Holds comparator (inserted n (recent ++ [⟨s.writers.take group.last, true, .OK⟩])) := by
  obtain ⟨hbound, hops⟩ := h.insertable hsound group.last
  have hholds := WriteBatch.record_holds (UInt64.ofNat (base + (numbered history).length + 1))
    ((s.writers.take group.last).flatMap Writer.ops)
  -- What is inserted behind the recent rounds.
  have hinserted : inserted n (recent ++ [⟨s.writers.take group.last, true, .OK⟩]) = inserted n recent ++
      writes (UInt64.ofNat (base + (numbered history).length + 1))
        ((s.writers.take group.last).flatMap Writer.ops) := by
    rw [inserted_append, inserted_singleton, ← htail.number]
    rfl
  have hnumbered : numbered (recent ++ [⟨s.writers.take group.last, true, .OK⟩]) =
      numbered recent ++ (s.writers.take group.last).flatMap Writer.ops := by
    rw [numbered_append]
    exact congrArg _ (List.append_nil _)
  obtain ⟨hfits, hdistinct⟩ : (∀ a ∈ inserted n (recent ++ [⟨s.writers.take group.last, true, .OK⟩]), a.Fits) ∧
      MemTable.Distinct comparator (inserted n (recent ++ [⟨s.writers.take group.last, true, .OK⟩])) :=
    fits_inserted (by
      rw [hnumbered, List.length_append, ← Nat.add_assoc, ← htail.number]
      rwa [List.length_append, ← Nat.add_assoc] at hbound) (by
      rw [hnumbered]
      exact fun op hop => hops op ((List.mem_append.1 hop).elim (fun hop => List.mem_append_left _ (htail.sub op hop))
        (List.mem_append_right _)))
  rw [hinserted] at hfits hdistinct ⊢
  rw [← hleads.updates] at hholds
  exact hholds.insertInto (fun op hop => hops op (List.mem_append_right _ hop)) hmem
    (fun a ha => hfits a (List.mem_append_right _ ha)) hdistinct draws

theorem logGroup_decides [Std.TransCmp comparator] (h : Serves comparator Outcomes base tmpbatch as s history pending)
    (hsound : Sound Outcomes base as) {group : Group} {lastsequence : UInt64}
    (hphase : s.phase = .logging group lastsequence)
    (sync : Bool) (syncError : Option String) (draws : ℕ → List Bool) :
    (logGroup comparator s sync group lastsequence syncError draws).Decides True
      fun s' => ∃ history' pending', Serves comparator Outcomes base tmpbatch as s' history' pending' := by
  obtain ⟨hpending, hleads⟩ : pending = [] ∧ Leads base tmpbatch s history group lastsequence := by
    have := h.phase
    rwa [Pending, hphase] at this
  -- Nothing is inserted when the group failed.
  have hfailed : ∀ status, status ≠ .OK →
      ∀ {n : ℕ} {recent : List Round}, s.mem.Holds comparator (inserted n recent) →
      s.mem.Holds comparator (inserted n (recent ++ [⟨s.writers.take group.last, true, status⟩])) := by
    intro status hstatus n recent hmem
    rw [inserted_append, inserted_singleton, Round.inserted, if_neg fun hlogged => hstatus hlogged.2, List.append_nil]
    exact hmem
  unfold logGroup
  by_cases hok : (s.log.AddRecord (Contents group.updates)).2.ok
  · simp only [hok, if_true]
    cases hsync : (if sync then syncError else none) with
    | some msg =>
      have hstatus : Status.IOError msg ≠ .OK := nofun
      exact ⟨trivial, _, _, serves_logged h hphase (fun _ => hfailed _ hstatus) true⟩
    | none =>
      have hinsert :=
        @exists_insertInto comparator Outcomes base tmpbatch as s history _ h.served hsound group lastsequence hleads
        draws
      obtain ⟨older, immutable, recent, heq, hst⟩ := h.stored
      rw [hpending, List.append_nil] at heq
      obtain ⟨mem, hmem, -⟩ := hinsert (tail_of_append heq) hst.recent.mem
      simp only [hmem]
      refine ⟨trivial, _, _, serves_logged h hphase (fun htail hrecent => ?_) false⟩
      obtain ⟨mem', hmem', hholds⟩ := hinsert htail hrecent
      obtain ⟨rfl, -⟩ := Prod.mk.inj (Option.some.inj (hmem.symm.trans hmem'))
      exact hholds
  · simp only [hok]
    have hstatus : (s.log.AddRecord (Contents group.updates)).2 ≠ .OK := fun heq => hok (by rw [heq]; rfl)
    exact ⟨trivial, _, _, serves_logged h hphase (fun _ => hfailed _ hstatus) false⟩

theorem serves_finishGroup (h : Serves comparator Outcomes base tmpbatch as s history pending) {group : Group}
    {lastsequence : UInt64} {status : Status} {syncerror : Bool}
    (hphase : s.phase = .logged group lastsequence status syncerror) :
    Serves comparator Outcomes base tmpbatch as (finishGroup s group lastsequence status syncerror)
      (history ++ [⟨s.writers.take group.last, true, status⟩]) [] := by
  obtain ⟨hpending, hleads⟩ : pending = [⟨s.writers.take group.last, true, status⟩] ∧
      Leads base tmpbatch s history group lastsequence := by
    have := h.phase
    rwa [Pending, hphase] at this
  obtain ⟨e, he⟩ : ∃ e, (if syncerror then RecordBackgroundError s status else s) = { s with bgerror := e } := by
    cases syncerror with
    | true => exact exists_bgerror s status
    | false => exact ⟨s.bgerror, rfl⟩
  have hserved := h.served.pop (hleads.ok status)
  obtain ⟨older, immutable, recent, heq, hst⟩ := h.stored
  rw [finishGroup, he]
  refine ⟨⟨hserved.queue, hserved.entered, hserved.replies, hserved.ok⟩, ?_, ?_, ⟨rfl, ?_⟩,
    older, immutable, recent, ?_, hst.recent, hst.immutable⟩
  · show lastsequence = _
    rw [numbered_append, List.length_append, ← Nat.add_assoc, hleads.lastsequence]
    congr 2
    exact congrArg List.length (List.append_nil _).symm
  · show (if group.tmp then some WriteBatch.new else s.tmpbatch) = none ↔ _
    cases hown : group.tmp with
    | true => exact iff_of_false nofun fun hnone => by simp [hleads.own hnone] at hown
    | false => exact h.tmp
  · show TmpOk (if group.tmp then some WriteBatch.new else s.tmpbatch)
    cases hown : group.tmp with
    | true =>
      intro t ht
      obtain rfl := Option.some.inj ht
      exact ⟨0, WriteBatch.new_holds⟩
    | false => exact hleads.tmp hown
  · rw [List.append_nil, ← heq, hpending]

/-! ### Runs -/

theorem Serves.of_entrants {bs : List Action} (h : Serves comparator Outcomes base tmpbatch as s history pending)
    (heq : entrants 0 bs = entrants 0 as) : Serves comparator Outcomes base tmpbatch bs s history pending :=
  ⟨⟨heq ▸ h.served.queue, heq ▸ h.served.entered, h.served.replies, h.served.ok⟩, h.lastsequence, h.tmp, h.phase,
    h.stored⟩

theorem serves_again (h : Serves comparator Outcomes base tmpbatch as s history pending) {force allowdelay : Bool}
    (hphase : s.phase = .room force allowdelay) {newFile : Except String (List IoResult)}
    (houtcomes : ∀ results, newFile = .ok results → Outcomes results)
    (hagain : MakeRoomForWrite writebuffersize s force allowdelay newFile = .again s') :
    Serves comparator Outcomes base tmpbatch as s' history pending := by
  have hroom : pending = [] ∧ TmpOk s.tmpbatch ∧ s.writers ≠ [] := by
    have := h.phase
    rwa [Pending, hphase] at this
  obtain ⟨older, immutable, recent, heq, hst⟩ := h.stored
  rcases makeRoomForWrite_again hagain with rfl | rfl | ⟨himm, results, hnew, rfl⟩
  · exact ⟨⟨h.served.queue, h.served.entered, h.served.replies, h.served.ok⟩, h.lastsequence, h.tmp, hroom,
      older, immutable, recent, heq, hst.recent, hst.immutable⟩
  · exact h
  · have himmutable := hst.immutable
    rw [himm] at himmutable
    obtain ⟨rfl, holdlogs⟩ := himmutable
    have hrecent := hst.recent
    rw [List.append_nil] at heq hrecent
    refine ⟨⟨h.served.queue, h.served.entered, h.served.replies, h.served.ok⟩, h.lastsequence, h.tmp, hroom,
      older, recent, [], by
        rw [heq, List.append_nil], ⟨MemTable.holds_new comparator, results, houtcomes results hnew, rfl⟩, s.log,
          hrecent, ?_⟩
    show s.oldlogs ++ [s.log.dest] = [s.log.dest]
    rw [holdlogs, List.nil_append]

theorem sound_of_append {a : Action} (h : Sound Outcomes base (as ++ [a])) : Sound Outcomes base as := by
  obtain ⟨houtcomes, hbuilt, hbound⟩ := h
  rw [entrants_append] at hbuilt hbound
  rw [List.flatMap_append, List.length_append] at hbound
  exact ⟨fun results hmem => houtcomes results (List.mem_append_left _ hmem),
    fun w hw => hbuilt w (List.mem_append_left _ hw), by omega⟩

theorem step_decides [Std.TransCmp comparator] {a : Action} (hsound : Sound Outcomes base (as ++ [a]))
    (h : ∃ history pending, Serves comparator Outcomes base tmpbatch as s history pending) :
    (step comparator writebuffersize s a).Decides (TmpUnused writebuffersize s a)
      fun s' => ∃ history pending, Serves comparator Outcomes base tmpbatch (as ++ [a]) s' history pending := by
  obtain ⟨history, pending, h⟩ := h
  have hbefore := sound_of_append hsound
  cases a with
  | enter batch sync => exact ⟨trivial, history, pending, serves_enter h batch sync⟩
  | lead =>
    simp only [step]
    split
    · rename_i w writers hphase hwriters
      refine ⟨trivial, history, pending, h.congr nofun rfl rfl rfl rfl rfl ?_ ⟨rfl, rfl, rfl, rfl⟩⟩
      have hpending := h.phase
      rw [Pending, hphase] at hpending
      exact ⟨hpending.1, hpending.2, by simp [hwriters]⟩
    · trivial
  | room newFile =>
    have heq : entrants 0 (as ++ [.room newFile]) = entrants 0 as := entrants_other nofun
    simp only [step]
    split
    · rename_i force allowdelay w writers hphase hwriters
      cases hroom : MakeRoomForWrite writebuffersize s force allowdelay newFile with
      | «return» status =>
        refine ((startGroup_decides h hbefore hphase hwriters).mono
          fun s' ⟨history', pending', h'⟩ => ⟨history', pending', h'.of_entrants heq⟩).congr ⟨?_, ?_⟩
        · intro hsecond hnone force' allowdelay' w' writers' batch hphase' hwriters' hbatch hok
          obtain ⟨rfl, rfl⟩ := Phase.room.inj (hphase.symm.trans hphase')
          obtain ⟨rfl, rfl⟩ := List.cons.inj (hwriters.symm.trans hwriters')
          exact hsecond hnone batch hbatch (Room.return.inj (hroom.symm.trans hok))
        · intro hunused hnone batch hbatch hok
          exact hunused hnone force allowdelay w writers batch hphase hwriters hbatch (hok ▸ hroom)
      | again s' =>
        have houtcomes : ∀ results, newFile = .ok results → Outcomes results := fun results hnew =>
          hsound.outcomes results (List.mem_append_right _ (hnew ▸ List.mem_singleton_self _))
        refine ⟨?_, history, pending, (serves_again h hphase houtcomes hroom).of_entrants heq⟩
        intro _ force' allowdelay' _ _ _ hphase' _ _ hok
        obtain ⟨rfl, rfl⟩ := Phase.room.inj (hphase.symm.trans hphase')
        exact absurd (hroom.symm.trans hok) nofun
    · trivial
  | log syncError draws =>
    have heq : entrants 0 (as ++ [.log syncError draws]) = entrants 0 as := entrants_other nofun
    simp only [step]
    split
    · rename_i group lastsequence w _ hphase _
      exact (logGroup_decides h hbefore hphase w.sync syncError draws).mono fun s' ⟨history', pending', h'⟩ =>
        ⟨history', pending', h'.of_entrants heq⟩
    · trivial
  | finish =>
    simp only [step]
    split
    · rename_i group lastsequence status syncerror hphase
      exact ⟨trivial, _, [], (serves_finishGroup h hphase).of_entrants (entrants_other nofun)⟩
    · trivial
  | flushed level0 =>
    simp only [step]
    split_ifs
    · exact ⟨trivial, history, pending, serves_flushed h level0⟩
    · trivial
  | compacted level0 =>
    exact ⟨trivial, history, pending, h.congr nofun rfl rfl rfl rfl rfl (h.phase.congr rfl List.prefix_rfl rfl)
      ⟨rfl, rfl, rfl, rfl⟩⟩
  | failed status =>
    obtain ⟨e, he⟩ := exists_bgerror s status
    refine ⟨trivial, history, pending, ?_⟩
    rw [he]
    exact h.congr nofun rfl rfl rfl rfl rfl (h.phase.congr rfl List.prefix_rfl rfl) ⟨rfl, rfl, rfl, rfl⟩

theorem serves_opened (htmp : TmpOk tmpbatch) {results : List IoResult} (hresults : Outcomes results) (level0 : ℕ) :
    Serves comparator Outcomes base tmpbatch [] (opened tmpbatch results (UInt64.ofNat base) level0) [] [] where
  served := ⟨rfl, rfl, rfl, by simp⟩
  lastsequence := rfl
  tmp := Iff.rfl
  phase := ⟨rfl, htmp⟩
  stored := ⟨[], [], [], rfl, ⟨MemTable.holds_new comparator, results, hresults, rfl⟩, rfl, rfl⟩

variable (comparator Outcomes writebuffersize base tmpbatch) in
theorem serves_of_run [Std.TransCmp comparator] (htmp : TmpOk tmpbatch) {results : List IoResult}
    (hresults : Outcomes results) (level0 : ℕ) (hsound : Sound Outcomes base as)
    (hrun : run (step comparator writebuffersize) (opened tmpbatch results (UInt64.ofNat base) level0) as = .next s) :
    ∃ history pending, Serves comparator Outcomes base tmpbatch as s history pending := by
  have hable : run (step comparator writebuffersize) (opened tmpbatch results (UInt64.ofNat base) level0) as ≠
      .disabled := by simp [hrun]
  obtain ⟨-, hnext⟩ := run_decides_of (H := Sound Outcomes base) (fun _ _ => sound_of_append)
    (fun as s => ∃ history pending, Serves comparator Outcomes base tmpbatch as s history pending)
    ⟨[], [], serves_opened htmp hresults level0⟩ (fun _ _ _ hsound h => step_decides hsound h) hsound hable
  exact hnext s hrun

end Rounds

/-- In every run from an opened database the writers are served in the order of the queue: their batches are logged
and inserted in rounds, with consecutive sequence numbers, and every writer gets the status of its round.  The run
ends in an access through the null pointer exactly when a second batch is to be taken into a group while `tmpbatch` is
null. -/
theorem run_serves [Std.TransCmp comparator] (htmp : TmpOk tmpbatch) {results : List IoResult}
    (hresults : Outcomes results) (level0 : ℕ) {as : List Action} (hsound : Sound Outcomes base as)
    (hable : run (step comparator writebuffersize) (opened tmpbatch results (UInt64.ofNat base) level0) as ≠
      .disabled) :
    (run (step comparator writebuffersize) (opened tmpbatch results (UInt64.ofNat base) level0) as ≠ .aborted ↔
      MeetsAfter (step comparator writebuffersize) (fun _ => TmpUnused writebuffersize)
        (opened tmpbatch results (UInt64.ofNat base) level0) as) ∧
    ∀ s, run (step comparator writebuffersize) (opened tmpbatch results (UInt64.ofNat base) level0) as = .next s →
      ∃ history pending, Serves comparator Outcomes base tmpbatch as s history pending :=
  run_decides_of (H := Sound Outcomes base) (fun _ _ => sound_of_append)
    (fun as s => ∃ history pending, Serves comparator Outcomes base tmpbatch as s history pending)
    ⟨[], [], serves_opened htmp hresults level0⟩ (fun _ _ _ hsound h => step_decides hsound h) hsound hable

private def twoCalls : List Action :=
  [.enter (some (.build [.Put [1] [2], .Delete [3]])) true, .enter none false, .lead,
    .room (.ok []), .log none fun _ => [],
    .finish]

/-- A call with a batch and one without are served together, while `tmpbatch` is null. -/
theorem run_serves_twoCalls : ∃ s, run (step compare 100) (opened none [] (UInt64.ofNat 4) 0) twoCalls = .next s ∧
    s.replies = [(0, .OK), (1, .OK)] ∧
      ∃ history pending, Serves compare (fun _ => True) 4 none twoCalls s history pending := by
  have hbuilt : (WriteBatch.build [.Put [1] [2], .Delete [3]]).Built :=
    ⟨0, _, WriteBatch.build_holds _, by decide, by decide⟩
  have hsound : Sound (fun _ => True) 4 twoCalls :=
    { outcomes := fun _ _ => trivial
      built := by
        intro w hw
        rcases List.mem_cons.1 hw with rfl | hw
        · intro batch hbatch
          exact Option.some.inj hbatch ▸ hbuilt
        · rw [List.mem_singleton.1 hw]
          exact nofun
      bound := by
        have hops : (WriteBatch.build [.Put [1] [2], .Delete [3]]).ops = [.Put [1] [2], .Delete [3]] :=
          (WriteBatch.build_holds _).ops_eq (by decide)
        show 4 + ((WriteBatch.build [.Put [1] [2], .Delete [3]]).ops ++ ([] ++ [])).length ≤ kMaxSequenceNumber
        rw [hops]
        decide }
  obtain ⟨s, hrun, hreplies⟩ : ∃ s, run (step compare 100) (opened none [] (UInt64.ofNat 4) 0) twoCalls = .next s ∧
      s.replies = [(0, .OK), (1, .OK)] := by decide +kernel
  have hable : run (step compare 100) (opened none [] (UInt64.ofNat 4) 0) twoCalls ≠ .disabled := by
    rw [hrun]
    simp
  exact ⟨s, hrun, hreplies, (run_serves compare (fun _ => True) 100 4 none nofun trivial 0 hsound hable).2 s hrun⟩

end RedisDb.Writers
