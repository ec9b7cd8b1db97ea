import SwissArmyKnife.RedisDb.LogReplay

/-!
# Writing a log and reading it back

A log is written in sessions, each of which opens the file with its current length.  Reading any prefix of it returns
the records that lie wholly inside the prefix (`readAll_take_writeSessions`).
-/

namespace RedisDb

/-- What a call of `AddRecord` returned, the length of the file then, and how many bytes had been dropped. -/
structure Added where
  record : Slice
  status : Status
  endoffset : Nat
  lost : Nat

namespace LogWriter

def addRecords (w : LogWriter) : List Slice → LogWriter × List Added
  | [] => (w, [])
  | record :: records =>
    let r := w.AddRecord record
    let rest := r.1.addRecords records
    (rest.1, ⟨record, r.2, r.1.dest.contents.length, r.1.dest.lost⟩ :: rest.2)

/-- One session after the other on the same file. -/
def writeSessions (dest : WritableFile) : List (List Slice) → WritableFile × List Added
  | [] => (dest, [])
  | session :: sessions =>
    let r := (new dest dest.contents.length).addRecords session
    let rest := writeSessions r.1.dest sessions
    (rest.1, r.2 ++ rest.2)

/-! ### Runs that drop nothing -/

theorem lost_le_addRecords (w : LogWriter) (records : List Slice) :
    w.dest.lost ≤ (w.addRecords records).1.dest.lost ∧
      ∀ a ∈ (w.addRecords records).2, w.dest.lost ≤ a.lost := by
  induction records generalizing w with
  | nil => exact ⟨Nat.le_refl _, by simp [addRecords]⟩
  | cons record records ih =>
    have hone := w.lost_le_addFragments true record
    obtain ⟨hrest, hmem⟩ := ih (w.AddRecord record).1
    refine ⟨Nat.le_trans hone hrest, fun a ha => ?_⟩
    rcases List.mem_cons.1 ha with rfl | ha
    · exact hone
    · exact Nat.le_trans hone (hmem a ha)

theorem records_append {clean : Bool} {p : Nat} {rs rs' : List (Slice × Nat)} {bytes bytes' : Slice}
    (h : Records clean p rs bytes) (h' : Records clean (p + bytes.length) rs' bytes') :
    Records clean p (rs ++ rs') (bytes ++ bytes') := by
  induction h with
  | nil p => exact h'
  | record hlayout hfs hrest ih =>
    rw [List.length_append, ← Nat.add_assoc] at h'
    rw [List.append_assoc]
    exact Records.record hlayout hfs (ih h')
  | unfinished hclean hlayout hfs hrest ih =>
    rw [List.length_append, ← Nat.add_assoc] at h'
    rw [List.append_assoc]
    exact Records.unfinished hclean hlayout hfs (ih h')

theorem mem_records_le {clean : Bool} {p : Nat} {rs : List (Slice × Nat)} {bytes : Slice}
    (h : Records clean p rs bytes) : ∀ e ∈ rs, e.2 ≤ p + bytes.length := by
  induction h with
  | nil p => simp
  | record hlayout hfs hrest ih =>
    intro e he
    rw [List.length_append, ← Nat.add_assoc]
    rcases List.mem_cons.1 he with rfl | he
    · exact Nat.le_add_right ..
    · exact ih e he
  | unfinished hclean hlayout hfs hrest ih =>
    intro e he
    rw [List.length_append, ← Nat.add_assoc]
    exact ih e he

/-- The acknowledged records of a run, with the offsets where they end. -/
def acknowledged (added : List Added) : List (Slice × Nat) :=
  (added.filter (fun a => decide (a.status = .OK))).map (fun a => (a.record, a.endoffset))

theorem acknowledged_cons (a : Added) (added : List Added) : acknowledged (a :: added) =
    if a.status = .OK then (a.record, a.endoffset) :: acknowledged added else acknowledged added := by
  unfold acknowledged
  split
  · rename_i h
    rw [List.filter_cons_of_pos (by simpa using h)]
    rfl
  · rename_i h
    rw [List.filter_cons_of_neg (by simpa using h)]

/-- Dropping nothing, a run adds its acknowledged records to the log, and in a clean run nothing else. -/
theorem addRecords_records {w : LogWriter} {records : List Slice} (clean : Bool) (hs : w.Synced)
    (h : (w.addRecords records).1.dest.lost = w.dest.lost)
    (hclean : clean = true → ∀ a ∈ (w.addRecords records).2, a.status = .OK) :
    ∃ rs bytes, (w.addRecords records).1.dest.contents = w.dest.contents ++ bytes ∧
      (w.addRecords records).1.Synced ∧ Records clean w.dest.contents.length rs bytes ∧
      (acknowledged (w.addRecords records).2).Sublist rs ∧
      (clean = true → rs = acknowledged (w.addRecords records).2) := by
  induction records generalizing w with
  | nil => exact ⟨[], [], (List.append_nil _).symm, hs, Records.nil _, List.Sublist.refl _, fun _ => rfl⟩
  | cons record records ih =>
    have hone := w.lost_le_addFragments true record
    have hrest := ((w.AddRecord record).1.lost_le_addRecords records).1
    obtain ⟨fs, piece, hpiece, hsynced, hlayout, hkind⟩ := @addRecord_layout w record hs (by
      simp only [addRecords, AddRecord] at h hrest ⊢
      omega)
    obtain ⟨rs, bytes, hbytes, hsynced', hrecords, hsub, heq⟩ := ih hsynced (by
      simp only [addRecords, AddRecord] at h hrest ⊢
      omega) (fun hc a ha => hclean hc a (List.mem_cons_of_mem _ ha))
    have hlen : (w.AddRecord record).1.dest.contents.length = w.dest.contents.length + piece.length := by
      rw [hpiece, List.length_append]
    rw [hlen] at hrecords
    have hcontents : (w.addRecords (record :: records)).1.dest.contents = w.dest.contents ++ (piece ++ bytes) := by
      rw [← List.append_assoc, ← hpiece]
      exact hbytes
    have hcons : (w.addRecords (record :: records)).2 =
        ⟨record, (w.AddRecord record).2, w.dest.contents.length + piece.length, (w.AddRecord record).1.dest.lost⟩ ::
          ((w.AddRecord record).1.addRecords records).2 := by
      rw [← hlen]
      rfl
    by_cases hok : (w.AddRecord record).2 = .OK
    · have hack : acknowledged (w.addRecords (record :: records)).2 =
          (record, w.dest.contents.length + piece.length) ::
            acknowledged ((w.AddRecord record).1.addRecords records).2 := by
        rw [hcons, acknowledged_cons, if_pos hok]
      have hfs : Fragments true record fs := hkind.resolve_right fun hbad => hbad.1 hok
      refine ⟨_, _, hcontents, hsynced', Records.record hlayout hfs hrecords, ?_, fun hc => ?_⟩
      · rw [hack]
        exact hsub.cons_cons _
      · rw [hack, heq hc]
    · have hdirty : clean = false := by
        cases clean with
        | false => rfl
        | true => exact absurd (hclean rfl _ (by rw [hcons]; exact List.mem_cons_self ..)) hok
      have hack : acknowledged (w.addRecords (record :: records)).2 =
          acknowledged ((w.AddRecord record).1.addRecords records).2 := by
        rw [hcons, acknowledged_cons, if_neg hok]
      rw [hack]
      rcases hkind with hfs | ⟨-, hfs⟩
      · exact ⟨_, _, hcontents, hsynced', Records.record hlayout hfs hrecords, hsub.cons _,
          fun hc => by simp [hdirty] at hc⟩
      · exact ⟨_, _, hcontents, hsynced', Records.unfinished hdirty hlayout hfs hrecords, hsub,
          fun hc => by simp [hdirty] at hc⟩

/-! ### Files on which every call succeeds -/

private theorem append_succeeds {f : WritableFile} (h : f.results = []) (data : Slice) :
    (f.append data).2 = .OK ∧ (f.append data).1.results = [] ∧ (f.append data).1.lost = f.lost := by
  simp [WritableFile.append, h]

private theorem flush_succeeds {f : WritableFile} (h : f.results = []) :
    f.flush.2 = .OK ∧ f.flush.1.results = [] ∧ f.flush.1.lost = f.lost := by
  simp [WritableFile.flush, h]

private theorem switchBlock_succeeds {w : LogWriter} (h : w.dest.results = []) :
    w.switchBlock.dest.results = [] ∧ w.switchBlock.dest.lost = w.dest.lost := by
  simp only [switchBlock]
  split
  · split
    · exact (append_succeeds h _).2
    · exact ⟨h, rfl⟩
  · exact ⟨h, rfl⟩

private theorem emitPhysicalRecord_succeeds {w : LogWriter} (h : w.dest.results = []) (t : RecordType)
    (data : Slice) :
    (w.EmitPhysicalRecord t data).2 = .OK ∧ (w.EmitPhysicalRecord t data).1.dest.results = [] ∧
      (w.EmitPhysicalRecord t data).1.dest.lost = w.dest.lost := by
  obtain ⟨hheader, hresults, hlost⟩ := append_succeeds h (header t data)
  obtain ⟨hdata, hresults', hlost'⟩ := append_succeeds hresults data
  obtain ⟨hflush, hresults'', hlost''⟩ := flush_succeeds hresults'
  simp only [EmitPhysicalRecord, hheader, hdata, Status.ok_OK, if_true]
  exact ⟨hflush, hresults'', by rw [hlost'', hlost', hlost]⟩

private theorem addFragments_succeeds {w : LogWriter} (h : w.dest.results = []) («begin» : Bool) (left : Slice) :
    (w.addFragments «begin» left).2 = .OK ∧ (w.addFragments «begin» left).1.dest.results = [] ∧
      (w.addFragments «begin» left).1.dest.lost = w.dest.lost := by
  have hround (w : LogWriter) («begin» : Bool) (left : Slice) (h : w.dest.results = []) :
      (w.emitFragment «begin» left).2 = .OK ∧ (w.emitFragment «begin» left).1.dest.results = [] ∧
        (w.emitFragment «begin» left).1.dest.lost = w.dest.lost := by
    obtain ⟨hresults, hlost⟩ := switchBlock_succeeds h
    rw [← hlost]
    exact emitPhysicalRecord_succeeds hresults _ _
  fun_induction addFragments w «begin» left with
  | case1 w «begin» left r rest hmore ih =>
    obtain ⟨-, hresults, hlost⟩ := hround w «begin» left h
    obtain ⟨hstatus', hresults', hlost'⟩ := ih hresults
    exact ⟨hstatus', hresults', hlost'.trans hlost⟩
  | case2 w «begin» left r rest hmore => exact hround w «begin» left h

private theorem addRecords_succeeds {w : LogWriter} (h : w.dest.results = []) (records : List Slice) :
    (w.addRecords records).1.dest.results = [] ∧ (w.addRecords records).1.dest.lost = w.dest.lost ∧
      (w.addRecords records).2.map (·.record) = records ∧ ∀ a ∈ (w.addRecords records).2, a.status = .OK := by
  induction records generalizing w with
  | nil => exact ⟨h, rfl, rfl, by simp [addRecords]⟩
  | cons record records ih =>
    obtain ⟨hstatus, hresults, hlost⟩ := addFragments_succeeds h true record
    obtain ⟨hresults', hlost', hmap, hall⟩ := ih (w := (w.AddRecord record).1) hresults
    refine ⟨hresults', hlost'.trans hlost, congrArg (record :: ·) hmap, fun a ha => ?_⟩
    rcases List.mem_cons.1 ha with rfl | ha
    · exact hstatus
    · exact hall a ha

/-- The sessions of a file on which every call succeeds write the records one after the other. -/
theorem writeSessions_records {dest : WritableFile} (h : dest.results = []) (sessions : List (List Slice)) :
    ∃ bytes, (writeSessions dest sessions).1.contents = dest.contents ++ bytes ∧
      Records true dest.contents.length
        ((writeSessions dest sessions).2.map (fun a => (a.record, a.endoffset))) bytes ∧
      (writeSessions dest sessions).2.map (·.record) = sessions.flatten ∧
      ∀ a ∈ (writeSessions dest sessions).2, a.status = .OK := by
  induction sessions generalizing dest with
  | nil => exact ⟨[], (List.append_nil _).symm, Records.nil _, rfl, by simp [writeSessions]⟩
  | cons session sessions ih =>
    obtain ⟨hresults, hlost, hmap, hall⟩ :=
      addRecords_succeeds (w := new dest dest.contents.length) h session
    obtain ⟨rs, piece, hpiece, -, hrecords, -, heq⟩ :=
      addRecords_records true (synced_new dest) hlost (fun _ => hall)
    obtain ⟨bytes, hbytes, hrecords', hmap', hall'⟩ := ih hresults
    have hack : acknowledged ((new dest dest.contents.length).addRecords session).2 =
        ((new dest dest.contents.length).addRecords session).2.map (fun a => (a.record, a.endoffset)) := by
      rw [acknowledged, List.filter_eq_self.2 (fun a ha => by simpa using hall a ha)]
    rw [heq rfl, hack] at hrecords
    rw [hpiece, List.length_append] at hrecords'
    refine ⟨piece ++ bytes, ?_, ?_, ?_, fun a ha => ?_⟩
    · rw [← List.append_assoc]
      exact hbytes.trans (congrArg (· ++ bytes) hpiece)
    · show Records true _ ((_ ++ _ : List Added).map _) _
      rw [List.map_append]
      exact records_append hrecords hrecords'
    · show (_ ++ _ : List Added).map _ = session ++ sessions.flatten
      rw [List.map_append, hmap, hmap']
    · rcases List.mem_append.1 ha with ha | ha
      · exact hall a ha
      · exact hall' a ha

end LogWriter

/-- Round trip under truncation: every record written is acknowledged, and a reader over the first `n` bytes returns
exactly the records that end within them, in order, and reports no corruption. -/
theorem readAll_take_writeSessions (sessions : List (List Slice)) (n : Nat) (reporter : Bool) :
    let written := LogWriter.writeSessions (.opened [] []) sessions
    let read := (LogReader.new ⟨written.1.contents.take n, []⟩ reporter true 0).readAll
    written.2.map (·.record) = sessions.flatten ∧ (∀ a ∈ written.2, a.status = .OK) ∧
      read.2 = (written.2.filter (fun a => decide (a.endoffset ≤ n))).map (·.record) ∧ read.1.reported = [] := by
  obtain ⟨bytes, hbytes, hrecords, hmap, hall⟩ :=
    LogWriter.writeSessions_records (show (WritableFile.opened [] []).results = [] from rfl) sessions
  have hbytes : (LogWriter.writeSessions (.opened [] []) sessions).1.contents = bytes := hbytes
  refine ⟨hmap, hall, ?_⟩
  rw [hbytes]
  obtain ⟨more, hmore, hend⟩ := LogReader.readAll_records hrecords (Or.inr (List.take_prefix n bytes)) reporter true
  obtain ⟨rfl, hreported⟩ := hend (List.length_take_le' _ _)
  refine ⟨?_, hreported rfl⟩
  rw [hmore, List.append_nil, List.filter_map, List.map_map]
  refine congrArg (List.map _) (List.filter_congr fun a ha => ?_)
  have hend : a.endoffset ≤ 0 + bytes.length := LogWriter.mem_records_le hrecords _ (List.mem_map_of_mem ha)
  simp only [Function.comp, List.length_take]
  rw [decide_eq_decide]
  omega

end RedisDb
