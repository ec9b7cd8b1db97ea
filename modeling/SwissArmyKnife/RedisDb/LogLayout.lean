import SwissArmyKnife.RedisDb.LogWriter

/-!
# The layout of a log file

`Layout p fs bytes` says that `bytes`, placed at the offset `p` of a file, are the framed fragments `fs`, none of
which crosses a block boundary, with the trailers of the blocks between them.  A writer whose block offset agrees with
the length of its file extends the file by such a layout as long as no call drops bytes (`addRecord_layout`).
-/

namespace RedisDb

abbrev Fragment := RecordType × Slice

inductive Layout : Nat → List Fragment → Slice → Prop
  | nil (p : Nat) : Layout p [] []
  | trailer {p : Nat} {f : Fragment} {fs : List Fragment} {bytes : Slice} (b : UInt8)
      (h : kBlockSize < p % kBlockSize + kHeaderSize) (rest : Layout (p + 1) (f :: fs) bytes) :
      Layout p (f :: fs) (b :: bytes)
  | fragment {p : Nat} {fs : List Fragment} {bytes : Slice} (t : RecordType) (data : Slice)
      (h : p % kBlockSize + (kHeaderSize + data.length) ≤ kBlockSize)
      (rest : Layout (p + (kHeaderSize + data.length)) fs bytes) :
      Layout p ((t, data) :: fs) (LogWriter.header t data ++ (data ++ bytes))

/-- The fragments of a record, or of the part of it that follows its first fragments. -/
inductive Fragments : Bool → Slice → List Fragment → Prop
  | last («begin» : Bool) (data : Slice) : Fragments «begin» data [(LogWriter.fragmentType «begin» true, data)]
  | more («begin» : Bool) (data : Slice) {rest : Slice} {fs : List Fragment} (h : Fragments false rest fs) :
      Fragments «begin» (data ++ rest) ((LogWriter.fragmentType «begin» false, data) :: fs)

/-- The first fragments of a record whose writing was given up. -/
inductive Unfinished : Bool → List Fragment → Prop
  | nil («begin» : Bool) : Unfinished «begin» []
  | more («begin» : Bool) (data : Slice) {fs : List Fragment} (h : Unfinished false fs) :
      Unfinished «begin» ((LogWriter.fragmentType «begin» false, data) :: fs)

/-- `bytes` at the offset `p` are records, each listed with the offset where it ends; in a log that is not `clean`
some records may have been given up. -/
inductive Records (clean : Bool) : Nat → List (Slice × Nat) → Slice → Prop
  | nil (p : Nat) : Records clean p [] []
  | record {p : Nat} {fs : List Fragment} {piece x : Slice} {rs : List (Slice × Nat)} {bytes : Slice}
      (hlayout : Layout p fs piece) (hfs : Fragments true x fs) (rest : Records clean (p + piece.length) rs bytes) :
      Records clean p ((x, p + piece.length) :: rs) (piece ++ bytes)
  | unfinished {p : Nat} {fs : List Fragment} {piece : Slice} {rs : List (Slice × Nat)} {bytes : Slice}
      (hclean : clean = false) (hlayout : Layout p fs piece) (hfs : Unfinished true fs)
      (rest : Records clean (p + piece.length) rs bytes) : Records clean p rs (piece ++ bytes)

@[simp] theorem LogWriter.length_header (t : RecordType) (data : Slice) :
    (LogWriter.header t data).length = kHeaderSize := rfl

theorem layout_append {p : Nat} {fs gs : List Fragment} {bs cs : Slice} (h : Layout p fs bs)
    (h' : Layout (p + bs.length) gs cs) : Layout p (fs ++ gs) (bs ++ cs) := by
  induction h with
  | nil p => exact h'
  | trailer b hb rest ih =>
    refine Layout.trailer b hb (ih ?_)
    rwa [List.length_cons, Nat.add_comm _ 1, ← Nat.add_assoc] at h'
  | @fragment p fs bytes t data hb rest ih =>
    have hlen : p + (LogWriter.header t data ++ (data ++ bytes)).length =
        p + (kHeaderSize + data.length) + bytes.length := by
      simp only [List.length_append, LogWriter.length_header]
      omega
    rw [hlen] at h'
    rw [List.append_assoc, List.append_assoc, List.cons_append]
    exact Layout.fragment t data hb (ih h')

/-- Bytes that reach the end of the block are a trailer, if a header would not have fitted. -/
theorem layout_trailer {p : Nat} {f : Fragment} {fs : List Fragment} {bytes : Slice} (filler : Slice)
    (hblock : kBlockSize < p % kBlockSize + kHeaderSize) (hfit : p % kBlockSize + filler.length ≤ kBlockSize)
    (h : Layout (p + filler.length) (f :: fs) bytes) : Layout p (f :: fs) (filler ++ bytes) := by
  induction filler generalizing p with
  | nil => exact h
  | cons b filler ih =>
    rw [List.length_cons] at hfit h
    refine Layout.trailer b hblock ?_
    by_cases hlast : filler = []
    · subst hlast
      exact h
    · have hpos : 0 < filler.length := List.length_pos_iff.2 hlast
      have hmod : (p + 1) % kBlockSize = p % kBlockSize + 1 := by
        simp only [kBlockSize] at *
        omega
      refine ih (by omega) (by omega) ?_
      rwa [Nat.add_assoc, Nat.add_comm 1]

/-! ### Calls that drop nothing -/

namespace WritableFile

theorem lost_le_append (f : WritableFile) (data : Slice) : f.lost ≤ (f.append data).1.lost := by
  unfold append
  split
  · exact Nat.le_add_right ..
  · exact Nat.le_refl _

theorem lost_le_flush (f : WritableFile) : f.lost ≤ f.flush.1.lost := by
  unfold flush
  split
  · exact Nat.le_add_right ..
  · exact Nat.le_refl _

theorem append_lossless {f : WritableFile} {data : Slice} (h : (f.append data).1.lost = f.lost) :
    (f.append data).1.contents = f.contents ++ data := by
  unfold append at h ⊢
  split at h
  · simp only at h ⊢
    rw [List.length_take] at h
    rw [List.take_of_length_le (by omega)]
  · rfl

/-- Dropping nothing, a failed append had nothing to write. -/
theorem append_ok_of_lossless {f : WritableFile} {data : Slice} (h : (f.append data).1.lost = f.lost)
    (hdata : data ≠ []) : (f.append data).2 = .OK := by
  have hpos : 0 < data.length := List.length_pos_iff.2 hdata
  unfold append at h ⊢
  split at h
  · simp only [List.length_take] at h
    omega
  · rfl

theorem flush_lossless {f : WritableFile} (h : f.flush.1.lost = f.lost) : f.flush.1.contents = f.contents := by
  unfold flush at h ⊢
  split at h
  · simp only at h ⊢
    rw [List.take_of_length_le (by omega)]
  · rfl

end WritableFile

namespace LogWriter

theorem lost_le_emitPhysicalRecord (w : LogWriter) (t : RecordType) (data : Slice) :
    w.dest.lost ≤ (w.EmitPhysicalRecord t data).1.dest.lost := by
  have hheader := w.dest.lost_le_append (header t data)
  have hdata := (w.dest.append (header t data)).1.lost_le_append data
  have hflush := ((w.dest.append (header t data)).1.append data).1.lost_le_flush
  simp only [EmitPhysicalRecord]
  split
  · split <;> omega
  · omega

theorem emitPhysicalRecord_lossless {w : LogWriter} {t : RecordType} {data : Slice}
    (h : (w.EmitPhysicalRecord t data).1.dest.lost = w.dest.lost) :
    (w.EmitPhysicalRecord t data).1.dest.contents = w.dest.contents ++ (header t data ++ data) := by
  have hheader := w.dest.lost_le_append (header t data)
  have hdata := (w.dest.append (header t data)).1.lost_le_append data
  have hflush := ((w.dest.append (header t data)).1.append data).1.lost_le_flush
  have hok : (w.dest.append (header t data)).2 = .OK := by
    refine WritableFile.append_ok_of_lossless ?_ (List.cons_ne_nil _ _)
    simp only [EmitPhysicalRecord] at h
    split at h
    · split at h <;> omega
    · exact h
  simp only [EmitPhysicalRecord, hok, Status.ok_OK, if_true] at h ⊢
  rw [← List.append_assoc]
  by_cases hp : ((w.dest.append (header t data)).1.append data).2.ok <;> simp only [hp, if_true] at h ⊢
  · rw [WritableFile.flush_lossless (by omega), WritableFile.append_lossless (by omega),
      WritableFile.append_lossless (by omega)]
  · replace h : ((w.dest.append (header t data)).1.append data).1.lost = w.dest.lost := h
    show ((w.dest.append (header t data)).1.append data).1.contents = _
    rw [WritableFile.append_lossless (by omega), WritableFile.append_lossless (by omega)]

theorem lost_le_switchBlock (w : LogWriter) : w.dest.lost ≤ w.switchBlock.dest.lost := by
  simp only [switchBlock]
  split
  · split
    · exact w.dest.lost_le_append _
    · exact Nat.le_refl _
  · exact Nat.le_refl _

theorem lost_le_emitFragment (w : LogWriter) («begin» : Bool) (left : Slice) :
    w.dest.lost ≤ (w.emitFragment «begin» left).1.dest.lost :=
  Nat.le_trans w.lost_le_switchBlock (lost_le_emitPhysicalRecord ..)

theorem lost_le_addFragments (w : LogWriter) («begin» : Bool) (left : Slice) :
    w.dest.lost ≤ (w.addFragments «begin» left).1.dest.lost := by
  fun_induction addFragments w «begin» left with
  | case1 w «begin» left r rest h ih =>
    exact Nat.le_trans (lost_le_emitFragment ..) ih
  | case2 w «begin» left r rest h => exact lost_le_emitFragment ..

/-- The block offset of the writer agrees with the length of its file. -/
def Synced (w : LogWriter) : Prop :=
  w.blockoffset ≤ kBlockSize ∧ w.blockoffset % kBlockSize = w.dest.contents.length % kBlockSize

theorem synced_new (dest : WritableFile) : (new dest dest.contents.length).Synced :=
  ⟨Nat.le_of_lt (Nat.mod_lt _ (by decide)), Nat.mod_mod _ _⟩

private theorem switchBlock_layout {w : LogWriter} (hs : w.Synced) (h : w.switchBlock.dest.lost = w.dest.lost) :
    ∃ filler, w.switchBlock.dest.contents = w.dest.contents ++ filler ∧
      w.switchBlock.blockoffset = (w.dest.contents.length + filler.length) % kBlockSize ∧
      ∀ f fs bytes, Layout (w.dest.contents.length + filler.length) (f :: fs) bytes →
        Layout w.dest.contents.length (f :: fs) (filler ++ bytes) := by
  obtain ⟨hle, hmod⟩ := hs
  by_cases hshort : kBlockSize - w.blockoffset < kHeaderSize
  · by_cases hzero : kBlockSize - w.blockoffset = 0
    · have hend : w.blockoffset = kBlockSize := by omega
      refine ⟨[], ?_, ?_, fun f fs bytes hl => hl⟩
      · simp [switchBlock, hend, kHeaderSize]
      · rw [hend, Nat.mod_self] at hmod
        simp [switchBlock, hend, kHeaderSize, ← hmod]
    · have hoffset : w.dest.contents.length % kBlockSize = w.blockoffset := by
        rw [← hmod, Nat.mod_eq_of_lt (by omega)]
      simp only [switchBlock, hshort, if_true, gt_iff_lt, Nat.pos_iff_ne_zero, ne_eq, hzero, not_false_eq_true] at h ⊢
      refine ⟨List.replicate (kBlockSize - w.blockoffset) 0, WritableFile.append_lossless h, ?_, ?_⟩
      · rw [List.length_replicate, Nat.add_mod, hoffset]
        simp only [kBlockSize] at *
        omega
      · exact fun f fs bytes hl => layout_trailer _ (by omega) (by rw [List.length_replicate]; omega) hl
  · refine ⟨[], ?_, ?_, fun f fs bytes hl => hl⟩
    · simp [switchBlock, hshort]
    · have hpos : 0 < kHeaderSize := by decide
      simp only [switchBlock, hshort, if_false, List.length_nil, Nat.add_zero]
      rw [← hmod, Nat.mod_eq_of_lt (by omega)]

/-- A fragment that fits the block is written as one, and the writer stays in step with its file. -/
private theorem emit_layout {w : LogWriter} {t : RecordType} {data : Slice} (hs : w.Synced)
    (hfit : data.length ≤ w.avail) (h : (w.switchBlock.EmitPhysicalRecord t data).1.dest.lost = w.dest.lost) :
    ∃ bytes, (w.switchBlock.EmitPhysicalRecord t data).1.dest.contents = w.dest.contents ++ bytes ∧
      (w.switchBlock.EmitPhysicalRecord t data).1.Synced ∧ Layout w.dest.contents.length [(t, data)] bytes := by
  have hswitch := w.lost_le_switchBlock
  have hemit := w.switchBlock.lost_le_emitPhysicalRecord t data
  have hle := w.switchBlock_le
  rw [avail] at hfit
  obtain ⟨filler, hcontents, hoffset, hlayout⟩ := switchBlock_layout hs (by omega)
  have hwritten : (w.switchBlock.EmitPhysicalRecord t data).1.dest.contents =
      w.dest.contents ++ (filler ++ (header t data ++ data)) := by
    rw [emitPhysicalRecord_lossless (by omega), hcontents, List.append_assoc]
  refine ⟨_, hwritten, ⟨?_, ?_⟩, hlayout _ _ _ ?_⟩
  · rw [blockoffset_emitPhysicalRecord]
    omega
  · rw [hwritten, blockoffset_emitPhysicalRecord, hoffset]
    simp only [List.length_append, length_header, ← Nat.add_assoc]
    rw [Nat.add_assoc _ kHeaderSize, Nat.mod_add_mod, ← Nat.add_assoc]
  · have hone := Layout.fragment (p := w.dest.contents.length + filler.length) t data (by omega) (Layout.nil _)
    rwa [List.append_nil] at hone

/-- What a writer that drops nothing adds to its file: the fragments of the record, or, if it failed, possibly only
the first of them. -/
theorem addFragments_layout {w : LogWriter} {«begin» : Bool} {left : Slice} (hs : w.Synced)
    (h : (w.addFragments «begin» left).1.dest.lost = w.dest.lost) :
    ∃ fs bytes, (w.addFragments «begin» left).1.dest.contents = w.dest.contents ++ bytes ∧
      (w.addFragments «begin» left).1.Synced ∧ Layout w.dest.contents.length fs bytes ∧
      (Fragments «begin» left fs ∨ (w.addFragments «begin» left).2 ≠ .OK ∧ Unfinished «begin» fs) := by
  fun_induction addFragments w «begin» left with
  | case1 w «begin» left r rest hmore ih =>
    have hround : w.dest.lost ≤ r.1.dest.lost := w.lost_le_emitFragment «begin» left
    have hloop := r.1.lost_le_addFragments false rest
    obtain ⟨bytes, hbytes, hsynced, hlayout⟩ := emit_layout hs (by rw [List.length_take]; omega)
      (show r.1.dest.lost = w.dest.lost by omega)
    obtain ⟨fs, bytes', hbytes', hsynced', hlayout', hkind⟩ := ih hsynced (by omega)
    have hend : (left.length == min left.length w.avail) = false := by
      have hpos := hmore.2
      simp only [rest, List.length_drop] at hpos
      simp
      omega
    have hcontents : (r.1.addFragments false rest).1.dest.contents = w.dest.contents ++ (bytes ++ bytes') := by
      rw [hbytes', ← List.append_assoc]
      exact congrArg (· ++ bytes') hbytes
    rw [hend] at hlayout
    have hlen : r.1.dest.contents.length = w.dest.contents.length + bytes.length := by
      rw [← List.length_append]
      exact congrArg List.length hbytes
    rw [hlen] at hlayout'
    refine ⟨_, _, hcontents, hsynced', layout_append hlayout hlayout', ?_⟩
    rcases hkind with hfs | ⟨hstatus, hfs⟩
    · refine Or.inl ?_
      have hall := Fragments.more «begin» (left.take (min left.length w.avail)) hfs
      rwa [List.take_append_drop] at hall
    · exact Or.inr ⟨hstatus, Unfinished.more _ _ hfs⟩
  | case2 w «begin» left r rest hmore =>
    obtain ⟨bytes, hbytes, hsynced, hlayout⟩ := emit_layout hs (by rw [List.length_take]; omega) h
    refine ⟨_, _, hbytes, hsynced, hlayout, ?_⟩
    by_cases hend : left.length = min left.length w.avail
    · left
      rw [← hend, beq_self_eq_true, List.take_length]
      exact Fragments.last _ _
    · right
      have hstatus : r.2 ≠ .OK := by
        intro hok
        refine hmore ⟨by rw [hok]; rfl, ?_⟩
        simp only [rest, List.length_drop]
        omega
      rw [beq_false_of_ne hend]
      exact ⟨hstatus, Unfinished.more _ _ (Unfinished.nil _)⟩

theorem addRecord_layout {w : LogWriter} {slice : Slice} (hs : w.Synced)
    (h : (w.AddRecord slice).1.dest.lost = w.dest.lost) :
    ∃ fs bytes, (w.AddRecord slice).1.dest.contents = w.dest.contents ++ bytes ∧ (w.AddRecord slice).1.Synced ∧
      Layout w.dest.contents.length fs bytes ∧
      (Fragments true slice fs ∨ (w.AddRecord slice).2 ≠ .OK ∧ Unfinished true fs) := addFragments_layout hs h

end LogWriter

end RedisDb
