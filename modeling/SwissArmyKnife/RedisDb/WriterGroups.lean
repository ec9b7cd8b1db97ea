import SwissArmyKnife.RedisDb.Writers

/-!
# Groups of writers

What `BuildBatchGroup` makes of the writers at the front of the queue: a batch with the operations of some of them, in
their order (`buildBatchGroup_spec`).  It needs `tmpbatch` when there is a second batch to take in (`second`).
-/

namespace RedisDb

open Encoded WriteBatchInternal

/-! ### The operations of a batch -/

namespace BatchOp

/-- The operation can be inserted into a memtable. -/
def Insertable : BatchOp → Prop
  | Put key value => key.length + 8 < 2 ^ 32 ∧ value.length < 2 ^ 32
  | Delete key => key.length + 8 < 2 ^ 32

instance : (op : BatchOp) → Decidable op.Insertable
  | Put _ _ => inferInstanceAs (Decidable (_ ∧ _))
  | Delete _ => inferInstanceAs (Decidable (_ < _))

theorem Insertable.fits {op : BatchOp} (h : op.Insertable) : op.Fits := by
  cases op with
  | Put key value => exact ⟨by have := h.1; omega, h.2⟩
  | Delete key =>
    have : key.length + 8 < 2 ^ 32 := h
    show key.length < 2 ^ 32
    omega

theorem Insertable.write {op : BatchOp} (h : op.Insertable) {seq : UInt64} (hseq : seq.toNat ≤ kMaxSequenceNumber) :
    (op.write seq).Fits := by
  cases op with
  | Put key value => exact ⟨hseq, h.1, h.2⟩
  | Delete key => exact ⟨hseq, h, by show 0 < 2 ^ 32; omega⟩

theorem two_le_length_encode (op : BatchOp) : 2 ≤ op.encode.length := by
  have hpos : ∀ d : Slice, 1 ≤ (PutLengthPrefixedSlice d).length := by
    intro d
    have := List.length_pos_iff.2 (encodeVarint32_ne_nil (UInt32.ofNat d.length))
    rw [PutLengthPrefixedSlice, List.length_append]
    omega
  cases op with
  | Put key value =>
    have := hpos key
    simp only [encode, List.length_cons, List.length_append]
    omega
  | Delete key =>
    have := hpos key
    simp only [encode, List.length_cons]
    omega

/-- The operation that a call of `MemTable::Add` is for. -/
def ofWrite (a : Write) : BatchOp :=
  match a.type with
  | .kTypeValue => .Put a.key a.value
  | .kTypeDeletion => .Delete a.key

@[simp] theorem ofWrite_write (op : BatchOp) (seq : UInt64) : ofWrite (op.write seq) = op := by
  cases op <;> rfl

@[simp] theorem seq_write (op : BatchOp) (seq : UInt64) : (op.write seq).seq = seq := by
  cases op <;> rfl

theorem mem_writes {seq : UInt64} {ops : List BatchOp} {a : Write} (h : a ∈ writes seq ops) :
    ∃ op ∈ ops, a = op.write a.seq := by
  obtain ⟨i, hi⟩ := List.mem_iff_getElem?.1 h
  rw [getElem?_writes] at hi
  obtain ⟨op, hop, rfl⟩ := Option.map_eq_some_iff.1 hi
  exact ⟨op, List.mem_of_getElem? hop, by rw [seq_write]⟩

theorem map_ofWrite_writes (seq : UInt64) (ops : List BatchOp) : (writes seq ops).map ofWrite = ops := by
  induction ops generalizing seq with
  | nil => rfl
  | cons op ops ih => simp [writes, ih]

end BatchOp

open BatchOp (writes)

namespace WriteBatch

/-- The operations that `Iterate` finds. -/
def ops (b : WriteBatch) : List BatchOp := (b.Iterate 0).1.map BatchOp.ofWrite

variable {b : WriteBatch} {seq : UInt64} {ops : List BatchOp}

/-- The batch was built by calls of `Put` and `Delete` with keys and values that a memtable takes, no more than a
count can tell. -/
def Built (b : WriteBatch) : Prop :=
  ∃ seq ops, b.Holds seq ops ∧ (∀ op ∈ ops, op.Insertable) ∧ ops.length < 2 ^ 31

theorem Holds.iterate (h : b.Holds seq ops) (hops : ∀ op ∈ ops, op.Insertable) (n : UInt64) :
    b.Iterate n = (writes n ops, .OK) :=
  iterate_of_accepts (h.accepts fun op hop => (hops op hop).fits) n

theorem Holds.ops_eq (h : b.Holds seq ops) (hops : ∀ op ∈ ops, op.Insertable) : b.ops = ops := by
  rw [WriteBatch.ops, h.iterate hops, BatchOp.map_ofWrite_writes]

theorem Built.holds (h : b.Built) : ∃ seq, b.Holds seq b.ops := by
  obtain ⟨seq, ops, hholds, hops, -⟩ := h
  exact ⟨seq, hholds.ops_eq hops ▸ hholds⟩

theorem Built.insertable (h : b.Built) : ∀ op ∈ b.ops, op.Insertable := by
  obtain ⟨seq, ops, hholds, hops, -⟩ := h
  rwa [hholds.ops_eq hops]

theorem Built.length (h : b.Built) : b.ops.length < 2 ^ 31 := by
  obtain ⟨seq, ops, hholds, hops, hlength⟩ := h
  rwa [hholds.ops_eq hops]

theorem Holds.two_mul_length_le (h : b.Holds seq ops) : 2 * ops.length ≤ ByteSize b := by
  have hbody : 2 * ops.length ≤ (ops.flatMap BatchOp.encode).length := by
    clear h
    induction ops with
    | nil => exact Nat.zero_le _
    | cons op ops ih =>
      have := op.two_le_length_encode
      rw [List.flatMap_cons, List.length_append, List.length_cons]
      omega
  rw [ByteSize, h, List.length_append, List.length_append]
  omega

/-- The contents with which operations from a sequence number on are logged. -/
def record (seq : UInt64) (ops : List BatchOp) : WriteBatch := SetSequence (build ops) seq

theorem Holds.eq_record (h : b.Holds seq ops) (n : UInt64) : SetSequence b n = record n ops := by
  have hleft : (SetSequence b n).rep = _ := h.setSequence n
  have hright : (record n ops).rep = _ := (build_holds ops).setSequence n
  rw [show SetSequence b n = ⟨(SetSequence b n).rep⟩ from rfl, hleft, ← hright]

/-- The count of a batch as it is added to a sequence number. -/
theorem Holds.count_toUInt64 (h : b.Holds seq ops) (hlength : ops.length < 2 ^ 31) :
    (Count b).toInt64.toUInt64 = UInt64.ofNat ops.length := by
  have hmax : (ops.length : ℤ) ≤ Int32.maxValue.toInt := by
    rw [Int32.toInt_maxValue]
    omega
  rw [h.count, UInt32.toInt32_ofNat', Int32.toInt64_ofNat' hmax]
  rfl

theorem record_holds (seq : UInt64) (ops : List BatchOp) : (record seq ops).Holds seq ops :=
  (build_holds ops).setSequence seq

private theorem map_snd_mapIdx {α β : Type} (l : List β) (f : ℕ → α) :
    ((l.mapIdx fun i a => (f i, a)).map Prod.snd) = l := by
  apply List.ext_getElem?
  intro i
  simp

/-- A batch is inserted behind what the memtable holds. -/
theorem Holds.insertInto {comparator : Slice → Slice → Ordering} [Std.TransCmp comparator] (h : b.Holds seq ops)
    (hops : ∀ op ∈ ops, op.Insertable) {m : MemTable} {l : List Write} (hm : m.Holds comparator l)
    (hfits : ∀ a ∈ writes seq ops, a.Fits) (hdistinct : MemTable.Distinct comparator (l ++ writes seq ops))
    (draws : ℕ → List Bool) :
    ∃ m', InsertInto comparator b m draws = some (m', .OK) ∧ m'.Holds comparator (l ++ writes seq ops) := by
  have hseq : GetSequence b = seq := by rw [GetSequence, h, decodeFixed64_append]
  have hiterate : b.Iterate (GetSequence b) = (writes seq ops, .OK) := by rw [hseq, h.iterate hops]
  have hcalls := map_snd_mapIdx (writes seq ops) draws
  rw [← hcalls] at hfits hdistinct ⊢
  obtain ⟨m', hadd, hnew⟩ := hm.addAll hfits hdistinct
  refine ⟨m', ?_, hnew⟩
  rw [InsertInto, hiterate, hadd]
  rfl

end WriteBatch

def Writer.ops (w : Writer) : List BatchOp :=
  match w.batch with
  | some batch => batch.ops
  | none => []

/-- The batch of the writer, if it has one, was built. -/
def Writer.Built (w : Writer) : Prop := ∀ batch ∈ w.batch, batch.Built

theorem Writer.Built.length_ops {w : Writer} (h : w.Built) : w.ops.length < 2 ^ 31 := by
  unfold Writer.ops
  cases hbatch : w.batch with
  | none => exact Nat.two_pow_pos 31
  | some batch => exact (h batch hbatch).length

namespace Writers

/-! ### What is taken into a group -/

/-- A second batch is to be taken into the group. -/
def second (sync : Bool) (maxSize size : ℕ) : List Writer → Bool
  | [] => false
  | w :: writers =>
    if w.sync && !sync then false
    else
      match w.batch with
      | none => second sync maxSize size writers
      | some batch => size + ByteSize batch ≤ maxSize

/-- `tmpbatch` is null or empty. -/
def TmpOk (tmpbatch : Option WriteBatch) : Prop := ∀ t ∈ tmpbatch, ∃ seq, t.Holds seq []

/-- The group has the operations of the writers, after those that it had.  They are not too many, and without a
temporary batch there are none. -/
structure Takes (tmpbatch : Option WriteBatch) (sync : Bool) (limit : ℕ) (group : Group) (ops : List BatchOp)
    (writers : List Writer) (group' : Group) : Prop where
  last : group'.last = group.last + writers.length
  holds : ∃ seq, group'.updates.Holds seq (ops ++ writers.flatMap Writer.ops)
  sync : ∀ w ∈ writers, w.sync = true → sync = true
  count : writers.flatMap Writer.ops = [] ∨ 2 * (ops ++ writers.flatMap Writer.ops).length ≤ limit
  alone : tmpbatch = none → group.tmp = false → group'.tmp = false ∧ ∀ w ∈ writers, w.batch = none

variable {tmpbatch : Option WriteBatch} {sync : Bool} {limit size : ℕ} {group : Group} {seq : UInt64}
  {ops : List BatchOp} {writers : List Writer}

theorem Takes.refl (h : group.updates.Holds seq ops) : Takes tmpbatch sync limit group ops [] group :=
  ⟨rfl, ⟨seq, by simpa using h⟩, by simp, Or.inl rfl, fun _ htmp => ⟨htmp, by simp⟩⟩

theorem Takes.cons {group' next : Group} {w : Writer}
    (h : Takes tmpbatch sync limit next (ops ++ w.ops) writers group') (hlast : next.last = group.last + 1)
    (hw : ¬(w.sync = true ∧ sync = false)) (hcount : w.ops = [] ∨ 2 * (ops ++ w.ops).length ≤ limit)
    (halone : tmpbatch = none → group.tmp = false → next.tmp = false ∧ w.batch = none) :
    Takes tmpbatch sync limit group ops (w :: writers) group' where
  last := by
    rw [h.last, hlast, List.length_cons]
    omega
  holds := by
    obtain ⟨seq, hholds⟩ := h.holds
    exact ⟨seq, by simpa using hholds⟩
  sync v hv hsync := by
    rcases List.mem_cons.1 hv with rfl | hv
    · simpa [hsync] using hw
    · exact h.sync v hv hsync
  count := by
    rw [List.flatMap_cons, ← List.append_assoc]
    rcases h.count with hnil | hle
    · rw [hnil, List.append_nil, List.append_nil]
      exact hcount
    · exact Or.inr hle
  alone htmp hown := by
    obtain ⟨hnext, hbatch⟩ := halone htmp hown
    obtain ⟨hlast', hrest⟩ := h.alone htmp hnext
    exact ⟨hlast', List.forall_mem_cons.2 ⟨hbatch, hrest⟩⟩

private theorem target_holds (htmp : TmpOk tmpbatch) (hgroup : group.updates.Holds seq ops)
    (hsome : group.tmp = true ∨ tmpbatch.isSome = true) :
    ∃ result seq', group.target tmpbatch = some result ∧ result.Holds seq' ops := by
  unfold Group.target
  cases hown : group.tmp with
  | true => exact ⟨_, seq, if_pos rfl, hgroup⟩
  | false =>
    obtain ⟨t, rfl⟩ := Option.isSome_iff_exists.1 (hsome.resolve_left (by simp [hown]))
    obtain ⟨seq', ht⟩ := htmp t rfl
    obtain ⟨result, happend, hresult⟩ := ht.append hgroup
    have hcount : Count t = 0 := by
      rw [ht.count]
      rfl
    exact ⟨result, seq', by simp [hcount, happend], by simpa using hresult⟩

/-- Without a temporary batch the loop stops at the second batch. -/
theorem groupFrom_eq_none_iff (htmp : TmpOk tmpbatch) (hgroup : group.updates.Holds seq ops)
    (hwriters : ∀ w ∈ writers, w.Built) :
    groupFrom tmpbatch sync limit size group writers = none ↔
      tmpbatch = none ∧ group.tmp = false ∧ second sync limit size writers = true := by
  induction writers generalizing size group seq ops with
  | nil => simp [groupFrom, second]
  | cons w writers ih =>
    have hrest : ∀ v ∈ writers, v.Built := fun v hv => hwriters v (List.mem_cons_of_mem _ hv)
    rw [groupFrom, second]
    split_ifs with hsync
    · simp
    · cases hbatch : w.batch with
      | none =>
        have hgroup : ({ group with last := group.last + 1 } : Group).updates.Holds seq ops := hgroup
        exact ih hgroup hrest
      | some batch =>
        simp only [decide_eq_true_eq]
        split_ifs with hbig
        · simp [Nat.not_le.2 hbig]
        · rw [and_iff_left (Nat.not_lt.1 hbig)]
          by_cases hsome : group.tmp = true ∨ tmpbatch.isSome = true
          · obtain ⟨result, seq', htarget, hresult⟩ := target_holds htmp hgroup hsome
            obtain ⟨_, hholds⟩ := (hwriters w (List.mem_cons_self ..) batch hbatch).holds
            obtain ⟨updates, happend, hupdates⟩ := hresult.append hholds
            simp only [htarget, happend, Option.bind_eq_bind, Option.bind_some]
            rw [ih hupdates hrest]
            constructor
            · simp
            · rintro ⟨hnone, hown⟩
              simp [hnone, hown] at hsome
          · obtain ⟨hown, hnone⟩ : group.tmp = false ∧ tmpbatch = none := by simpa using hsome
            simp [Group.target, hown, hnone]

theorem groupFrom_takes (htmp : TmpOk tmpbatch) (hgroup : group.updates.Holds seq ops) (hsize : 2 * ops.length ≤ size)
    (hwriters : ∀ w ∈ writers, w.Built) {group' : Group}
    (h : groupFrom tmpbatch sync limit size group writers = some group') :
    ∃ n, n ≤ writers.length ∧ Takes tmpbatch sync limit group ops (writers.take n) group' := by
  induction writers generalizing size group seq ops with
  | nil =>
    cases h
    exact ⟨0, Nat.le_refl _, .refl hgroup⟩
  | cons w writers ih =>
    have hrest : ∀ v ∈ writers, v.Built := fun v hv => hwriters v (List.mem_cons_of_mem _ hv)
    have hstop : ∃ n, n ≤ (w :: writers).length ∧ Takes tmpbatch sync limit group ops ((w :: writers).take n) group :=
      ⟨0, Nat.zero_le _, .refl hgroup⟩
    rw [groupFrom] at h
    split_ifs at h with hsync
    · cases h
      exact hstop
    · have hw : ¬(w.sync = true ∧ sync = false) := by simpa using hsync
      cases hbatch : w.batch with
      | none =>
        rw [hbatch] at h
        have hnil : w.ops = [] := by simp [Writer.ops, hbatch]
        have hgroup : ({ group with last := group.last + 1 } : Group).updates.Holds seq ops := hgroup
        obtain ⟨n, hn, htakes⟩ := ih hgroup hsize hrest h
        rw [show ops = ops ++ w.ops by rw [hnil, List.append_nil]] at htakes
        exact ⟨n + 1, Nat.succ_le_succ hn, htakes.cons rfl hw (Or.inl hnil) fun _ hown => ⟨hown, hbatch⟩⟩
      | some batch =>
        simp only [hbatch] at h
        split_ifs at h with hbig
        · cases h
          exact hstop
        · obtain ⟨result, htarget, h⟩ := Option.bind_eq_some_iff.1 h
          obtain ⟨updates, happend, h⟩ := Option.bind_eq_some_iff.1 h
          have hsome : group.tmp = true ∨ tmpbatch.isSome = true := by
            cases htmp' : tmpbatch with
            | some t => exact Or.inr rfl
            | none =>
              refine Or.inl (by_contra fun hown => ?_)
              simp [Group.target, htmp', hown] at htarget
          obtain ⟨result', seq', htarget', hresult⟩ := target_holds htmp hgroup hsome
          obtain rfl := Option.some.inj (htarget.symm.trans htarget')
          obtain ⟨_, hholds⟩ := (hwriters w (List.mem_cons_self ..) batch hbatch).holds
          obtain ⟨updates', happend', hupdates⟩ := hresult.append hholds
          obtain rfl := Option.some.inj (happend.symm.trans happend')
          have hbound := hholds.two_mul_length_le
          have hops : batch.ops = w.ops := by simp [Writer.ops, hbatch]
          rw [hops] at hupdates hbound
          have hsize' : 2 * (ops ++ w.ops).length ≤ size + ByteSize batch := by
            rw [List.length_append]
            omega
          obtain ⟨n, hn, htakes⟩ := ih hupdates hsize' hrest h
          refine ⟨n + 1, Nat.succ_le_succ hn, htakes.cons rfl hw (Or.inr (by omega)) fun hnone hown => ?_⟩
          simp [hnone, hown] at hsome

/-- The writers that are served together with the one at the front, and the batch that they are served with. -/
theorem buildBatchGroup_spec {w : Writer} {batch : WriteBatch} (htmp : TmpOk tmpbatch) (hbatch : w.batch = some batch)
    (hwriters : ∀ v ∈ w :: writers, v.Built) :
    match BuildBatchGroup tmpbatch batch w.sync writers with
    | none => tmpbatch = none ∧ second w.sync (maxSize (ByteSize batch)) (ByteSize batch) writers = true
    | some group => ∃ n, 0 < n ∧ n ≤ (w :: writers).length ∧ group.last = n ∧
        (∃ seq, group.updates.Holds seq (((w :: writers).take n).flatMap Writer.ops)) ∧
        (((w :: writers).take n).flatMap Writer.ops).length < 2 ^ 31 ∧
        (∀ v ∈ (w :: writers).take n, v.sync = true → w.sync = true) ∧
        (tmpbatch = none → second w.sync (maxSize (ByteSize batch)) (ByteSize batch) writers = false ∧
          group.tmp = false ∧ ∀ v ∈ writers.take (n - 1), v.batch = none) := by
  have hbuilt := hwriters w (List.mem_cons_self ..) batch hbatch
  obtain ⟨seq, hholds⟩ := hbuilt.holds
  have hrest : ∀ v ∈ writers, v.Built := fun v hv => hwriters v (List.mem_cons_of_mem _ hv)
  have hfirst : (⟨batch, false, 1⟩ : Group).updates.Holds seq batch.ops := hholds
  have hnone : BuildBatchGroup tmpbatch batch w.sync writers = none ↔ tmpbatch = none ∧ false = false ∧
      second w.sync (maxSize (ByteSize batch)) (ByteSize batch) writers = true :=
    groupFrom_eq_none_iff htmp hfirst hrest
  cases hgroup : BuildBatchGroup tmpbatch batch w.sync writers with
  | none =>
    obtain ⟨htmp', -, hsecond⟩ := hnone.1 hgroup
    exact ⟨htmp', hsecond⟩
  | some group =>
    obtain ⟨n, hn, htakes⟩ := groupFrom_takes htmp hfirst hholds.two_mul_length_le hrest hgroup
    have hops : batch.ops = w.ops := by simp [Writer.ops, hbatch]
    have htake : (w :: writers).take (n + 1) = w :: writers.take n := rfl
    have hall : ((w :: writers).take (n + 1)).flatMap Writer.ops = batch.ops ++
        (writers.take n).flatMap Writer.ops := by
      rw [htake, List.flatMap_cons, hops]
    refine ⟨n + 1, Nat.succ_pos n, Nat.succ_le_succ hn, ?_, hall ▸ htakes.holds, ?_, ?_, fun htmp' => ⟨?_, ?_⟩⟩
    · rw [htakes.last, List.length_take, Nat.min_eq_left hn, Nat.add_comm]
    · rw [hall]
      have hbuilt := hbuilt.length
      rcases htakes.count with hnil | hle
      · rwa [hnil, List.append_nil]
      · have hlimit : maxSize (ByteSize batch) ≤ 2 ^ 20 := by
          rw [maxSize]
          split_ifs with hsmall
          · simp only [Nat.shiftLeft_eq] at hsmall ⊢
            omega
          · exact Nat.le_refl _
        omega
    · rw [htake]
      exact List.forall_mem_cons.2 ⟨id, htakes.sync⟩
    · refine Bool.eq_false_iff.2 fun hsecond => ?_
      rw [hnone.2 ⟨htmp', rfl, hsecond⟩] at hgroup
      cases hgroup
    · exact htakes.alone htmp' rfl

end Writers

end RedisDb
