import SwissArmyKnife.RedisDb.LogRoundTrip

/-!
# Writing a log through failing calls

`EmitPhysicalRecord` moves the block offset past its fragment whether or not the bytes reached the file, and
`AddRecord` does not look at the status of a trailer.  So one failed call can make later, acknowledged records
unreadable (`acknowledged_record_lost`).  As long as no byte was dropped before a record was acknowledged, every
acknowledged record is read back (`acknowledged_sublist_readAll`).
-/

namespace RedisDb

namespace WritableFile

/-- The bytes that a failing call can no longer drop. -/
def flushed (f : WritableFile) : Slice := f.contents.take (f.contents.length - f.buffered)

theorem flushed_append (f : WritableFile) (data : Slice) : (f.append data).1.flushed = f.flushed := by
  have htake (d : Slice) : (f.contents ++ d).take ((f.contents ++ d).length - (f.buffered + d.length)) =
      f.contents.take (f.contents.length - f.buffered) := by
    rw [List.length_append, Nat.add_sub_add_right, List.take_append_of_le_length (Nat.sub_le ..)]
  unfold append
  split
  · exact htake _
  · exact htake _

theorem flushed_flush (f : WritableFile) : f.flushed <+: f.flush.1.flushed := by
  unfold flush
  split
  · simp only [flushed, Nat.sub_zero, List.take_length]
    exact List.take_prefix_take_left (Nat.le_add_right ..)
  · simp only [flushed, Nat.sub_zero, List.take_length]
    exact List.take_prefix ..

end WritableFile

namespace LogWriter

theorem flushed_switchBlock (w : LogWriter) : w.switchBlock.dest.flushed = w.dest.flushed := by
  simp only [switchBlock]
  split
  · split
    · exact WritableFile.flushed_append ..
    · rfl
  · rfl

theorem flushed_emitPhysicalRecord (w : LogWriter) (t : RecordType) (data : Slice) :
    w.dest.flushed <+: (w.EmitPhysicalRecord t data).1.dest.flushed := by
  have hdata : ((w.dest.append (header t data)).1.append data).1.flushed = w.dest.flushed := by
    rw [WritableFile.flushed_append, WritableFile.flushed_append]
  simp only [EmitPhysicalRecord]
  split
  · split
    · rw [← hdata]
      exact WritableFile.flushed_flush _
    · exact hdata ▸ List.prefix_refl _
  · have happend := WritableFile.flushed_append w.dest (header t data)
    exact happend ▸ List.prefix_refl _

theorem flushed_addFragments (w : LogWriter) («begin» : Bool) (left : Slice) :
    w.dest.flushed <+: (w.addFragments «begin» left).1.dest.flushed := by
  have hround (w : LogWriter) («begin» : Bool) (left : Slice) :
      w.dest.flushed <+: (w.emitFragment «begin» left).1.dest.flushed := by
    rw [← flushed_switchBlock]
    exact flushed_emitPhysicalRecord ..
  fun_induction addFragments w «begin» left with
  | case1 w «begin» left r rest hmore ih => exact (hround ..).trans ih
  | case2 w «begin» left r rest hmore => exact hround ..

theorem flushed_addRecords (w : LogWriter) (records : List Slice) :
    w.dest.flushed <+: (w.addRecords records).1.dest.flushed := by
  induction records generalizing w with
  | nil => exact List.prefix_refl _
  | cons record records ih => exact (w.flushed_addFragments true record).trans (ih _)

/-- A record that is acknowledged has been flushed. -/
theorem flushed_of_ok {w : LogWriter} {record : Slice} (h : (w.AddRecord record).2 = .OK) :
    (w.AddRecord record).1.dest.flushed = (w.AddRecord record).1.dest.contents := by
  have hbuffered (f : WritableFile) : f.flush.1.buffered = 0 := by
    unfold WritableFile.flush
    split <;> rfl
  have hround (w : LogWriter) («begin» : Bool) (left : Slice) (h : (w.emitFragment «begin» left).2 = .OK) :
      (w.emitFragment «begin» left).1.dest.buffered = 0 := by
    revert h
    simp only [emitFragment, EmitPhysicalRecord]
    split
    · split
      · exact fun _ => hbuffered _
      · rename_i hbad
        exact fun h => absurd (Status.ok_iff.2 h) hbad
    · rename_i hbad
      exact fun h => absurd (Status.ok_iff.2 h) hbad
  have hloop (w : LogWriter) («begin» : Bool) (left : Slice) (h : (w.addFragments «begin» left).2 = .OK) :
      (w.addFragments «begin» left).1.dest.buffered = 0 := by
    fun_induction addFragments w «begin» left with
    | case1 w «begin» left r rest hmore ih => exact ih h
    | case2 w «begin» left r rest hmore => exact hround _ _ _ h
  rw [WritableFile.flushed, AddRecord, hloop w true record h, Nat.sub_zero, List.take_length]

theorem addRecords_cons (w : LogWriter) (record : Slice) (records : List Slice) :
    (w.addRecords (record :: records)).1 = ((w.AddRecord record).1.addRecords records).1 ∧
      (w.addRecords (record :: records)).2 = ⟨record, (w.AddRecord record).2,
        (w.AddRecord record).1.dest.contents.length, (w.AddRecord record).1.dest.lost⟩ ::
          ((w.AddRecord record).1.addRecords records).2 := ⟨rfl, rfl⟩

theorem addRecords_append (w : LogWriter) (us zs : List Slice) :
    (w.addRecords (us ++ zs)).1 = ((w.addRecords us).1.addRecords zs).1 := by
  induction us generalizing w with
  | nil => rfl
  | cons record us ih => exact ih _

/-- A run up to its last acknowledged record. -/
theorem exists_last_acknowledged (w : LogWriter) (records : List Slice) :
    ∃ us zs, records = us ++ zs ∧ acknowledged (w.addRecords records).2 = acknowledged (w.addRecords us).2 ∧
      (us = [] ∨ (w.addRecords us).1.dest.flushed = (w.addRecords us).1.dest.contents ∧
        ∃ a ∈ (w.addRecords records).2, a.status = .OK ∧ a.lost = (w.addRecords us).1.dest.lost) := by
  induction records generalizing w with
  | nil => exact ⟨[], [], rfl, rfl, Or.inl rfl⟩
  | cons record records ih =>
    obtain ⟨us, zs, rfl, hack, hlast⟩ := ih (w.AddRecord record).1
    rcases hlast with rfl | ⟨hflushed, a, ha, hstatus, hlost⟩
    · by_cases hok : (w.AddRecord record).2 = .OK
      · refine ⟨[record], zs, rfl, ?_, Or.inr ⟨flushed_of_ok hok, _, List.mem_cons_self .., hok, rfl⟩⟩
        rw [(w.addRecords_cons record _).2, (w.addRecords_cons record _).2, acknowledged_cons,
          acknowledged_cons, hack]
      · refine ⟨[], record :: zs, rfl, ?_, Or.inl rfl⟩
        rw [(w.addRecords_cons record _).2, acknowledged_cons, if_neg hok, hack]
        rfl
    · refine ⟨record :: us, zs, rfl, ?_, Or.inr ⟨hflushed, a, List.mem_cons_of_mem _ ha, hstatus, hlost⟩⟩
      rw [(w.addRecords_cons record _).2, (w.addRecords_cons record _).2, acknowledged_cons, acknowledged_cons, hack]

end LogWriter

/-- Through any failures, as long as nothing was dropped when a record was acknowledged, a reader over the whole file
returns the acknowledged records in order; and up to the first dropped byte the block offset matches the file. -/
theorem acknowledged_sublist_readAll (results : List IoResult) (records : List Slice) (reporter : Bool)
    (h : ∀ a ∈ ((LogWriter.new (.opened [] results) 0).addRecords records).2, a.status = .OK → a.lost = 0) :
    let run := (LogWriter.new (.opened [] results) 0).addRecords records
    ((LogWriter.acknowledged run.2).map (·.1)).Sublist
        (LogReader.new ⟨run.1.dest.contents, []⟩ reporter true 0).readAll.2 ∧
      ∀ us, us <+: records → ((LogWriter.new (.opened [] results) 0).addRecords us).1.dest.lost = 0 →
        ((LogWriter.new (.opened [] results) 0).addRecords us).1.blockoffset % kBlockSize =
          ((LogWriter.new (.opened [] results) 0).addRecords us).1.dest.contents.length % kBlockSize := by
  intro run
  refine ⟨?_, fun us _ hlossless => ?_⟩
  swap
  · obtain ⟨-, -, -, hsynced, -⟩ := LogWriter.addRecords_records false
      (LogWriter.synced_new (.opened [] results)) hlossless (by simp)
    exact hsynced.2
  obtain ⟨us, zs, hrecords, hack, hlast⟩ :=
    LogWriter.exists_last_acknowledged (.new (.opened [] results) 0) records
  rw [hack]
  rcases hlast with rfl | ⟨hflushed, a, ha, hstatus, hlost⟩
  · exact List.nil_sublist _
  have hlossless : ((LogWriter.new (.opened [] results) 0).addRecords us).1.dest.lost = 0 := by
    rw [← hlost]
    exact h a ha hstatus
  obtain ⟨rs, bytes, hbytes, -, hlayout, hsub, -⟩ := LogWriter.addRecords_records false
    (LogWriter.synced_new (.opened [] results)) hlossless (by simp)
  have hbytes : ((LogWriter.new (.opened [] results) 0).addRecords us).1.dest.contents = bytes := hbytes
  have hprefix : bytes <+: run.1.dest.contents := by
    have hgrow := ((LogWriter.new (.opened [] results) 0).addRecords us).1.flushed_addRecords zs
    rw [hflushed, hbytes, ← LogWriter.addRecords_append, ← hrecords] at hgrow
    exact hgrow.trans (List.take_prefix ..)
  obtain ⟨more, hmore, -⟩ := LogReader.readAll_records hlayout (Or.inl hprefix) reporter true
  have hall : rs.filter (fun e => decide (e.2 ≤ run.1.dest.contents.length)) = rs := by
    rw [List.filter_eq_self]
    intro e he
    have hend : e.2 ≤ 0 + bytes.length := LogWriter.mem_records_le hlayout e he
    have := hprefix.length_le
    exact decide_eq_true (by omega)
  rw [hmore, hall]
  exact (hsub.map _).trans (List.sublist_append_left ..)

/-- An append of nothing may fail without harm: the record after it is still read back. -/
theorem acknowledged_sublist_readAll_empty :
    let run := (LogWriter.new (.opened [] [.ok, .fail 0 "EIO"]) 0).addRecords [[], [7]]
    run.2.map (·.status) = [.IOError "EIO", .OK] ∧ ((LogWriter.acknowledged run.2).map (·.1)).Sublist
      (LogReader.new ⟨run.1.dest.contents, []⟩ true true 0).readAll.2 :=
  ⟨by decide +kernel, (acknowledged_sublist_readAll _ _ true (by decide +kernel)).1⟩

/-- The flush of the first record writes its header and then fails, and the call reports it; the second record is
acknowledged and never read back. -/
theorem acknowledged_record_lost :
    let run := (LogWriter.new (.opened [] [.ok, .ok, .fail 7 "EIO"]) 0).addRecords [[1, 2], [3]]
    run.2.map (·.status) = [.IOError "EIO", .OK] ∧
      (LogReader.new ⟨run.1.dest.contents, []⟩ true true 0).readAll.2 = [] ∧
      run.1.blockoffset % kBlockSize ≠ run.1.dest.contents.length % kBlockSize := by
  decide +kernel

end RedisDb
