import SwissArmyKnife.RedisDb.TableBuilder

/-!
# Building a table through failing calls

`flush` overwrites the status of the block it has written with the status of the file's flush.  A failure to write a
data block is so hidden when the flush after it succeeds, and `Finish` reports every other failure
(`finish_sticky_iff`).
-/

namespace RedisDb

/-! ### Outcomes -/

def IoResult.failed : IoResult → Bool
  | .ok => false
  | .fail _ _ => true

namespace WritableFile

/-- How many of the outcomes to come are failures. -/
def failures (f : WritableFile) : ℕ := f.results.countP IoResult.failed

/-- The file, with calls that succeed. -/
def calm (f : WritableFile) : WritableFile := { f with results := [] }

end WritableFile

/-- The next call fails. -/
def fails (results : List IoResult) : Bool := results.head?.any IoResult.failed

/-- One of the two appends of a block fails. -/
def writeFails (results : List IoResult) : Bool := fails results || fails results.tail

/-- The outcomes after the appends of a block. -/
def afterWrite (results : List IoResult) : List IoResult := if fails results then results.tail else results.tail.tail

theorem countP_tail (results : List IoResult) :
    results.tail.countP IoResult.failed + (if fails results then 1 else 0) = results.countP IoResult.failed := by
  cases results with
  | nil => rfl
  | cons r results => rw [List.countP_cons]; rfl

theorem countP_afterWrite (results : List IoResult) :
    (afterWrite results).countP IoResult.failed + (if writeFails results then 1 else 0) =
      results.countP IoResult.failed := by
  have hfirst := countP_tail results
  have hsecond := countP_tail results.tail
  rw [afterWrite, writeFails]
  cases h : fails results
  · rw [h] at hfirst
    simp only [Bool.false_eq_true, if_false, Nat.add_zero, Bool.false_or] at hfirst ⊢
    rw [hsecond, hfirst]
  · simpa [h] using hfirst

namespace WritableFile

/-- A call takes the next outcome; what a call that succeeds does is not changed by the outcomes after it. -/
structure Call (f : WritableFile) (bytes : Slice) (call : WritableFile → WritableFile × Status) : Prop where
  results : (call f).1.results = f.results.tail
  status : (call f).2.ok = !fails f.results
  calm : fails f.results = false → call f.calm = ((call f).1.calm, (call f).2)
  contents : fails f.results = false → (call f).1.contents = f.contents ++ bytes

theorem call_append (f : WritableFile) (data : Slice) : Call f data fun f => f.append data := by
  obtain ⟨contents, buffered, results, lost⟩ := f
  rcases results with _ | ⟨_ | ⟨written, error⟩, results⟩ <;> constructor <;>
    simp [append, fails, IoResult.failed, WritableFile.calm]

theorem call_flush (f : WritableFile) : Call f [] flush := by
  obtain ⟨contents, buffered, results, lost⟩ := f
  rcases results with _ | ⟨_ | ⟨written, error⟩, results⟩ <;> constructor <;>
    simp [flush, fails, IoResult.failed, WritableFile.calm]

end WritableFile

namespace TableBuilder

def calm (t : TableBuilder) : TableBuilder := { t with file := t.file.calm }

/-- The size is the length of the file. -/
def Sized (t : TableBuilder) : Prop := t.offset = t.file.contents.length

/-- A block has been written with two appends. -/
structure Appended (t t' : TableBuilder) : Prop where
  results : t'.file.results = afterWrite t.file.results
  status : t'.status.ok = !writeFails t.file.results
  sized : writeFails t.file.results = false → t.Sized → t'.Sized

/-- Nothing else has changed. -/
structure Wrote (t t' : TableBuilder) : Prop extends Appended t t' where
  frame : ∃ file offset status, t' = { t with file := file, offset := offset, status := status }

theorem length_trailer (blockContents : Slice) (type : CompressionType) :
    (trailer blockContents type).length = kBlockTrailerSize := rfl

theorem wrote_writeRawBlock (t : TableBuilder) (blockContents : Slice) (type : CompressionType) :
    Wrote t (t.WriteRawBlock blockContents type).1 ∧ (writeFails t.file.results = false →
      t.calm.WriteRawBlock blockContents type =
        ((t.WriteRawBlock blockContents type).1.calm, (t.WriteRawBlock blockContents type).2)) := by
  have hfirst := t.file.call_append blockContents
  have hsecond := (t.file.append blockContents).1.call_append (trailer blockContents type)
  have hcalm : t.calm.file = t.file.calm := rfl
  rw [WriteRawBlock, WriteRawBlock, hcalm]
  -- After a failed append of the contents there is no append of the trailer.
  cases h : fails t.file.results with
  | true =>
    have hstatus : (t.file.append blockContents).2.ok = false := by rw [hfirst.status, h]; rfl
    have hwrite : writeFails t.file.results = true := by rw [writeFails, h]; rfl
    simp only [hstatus, hwrite]
    refine ⟨⟨⟨?_, by rw [hwrite]; exact hstatus, by simp [hwrite]⟩, ⟨_, _, _, rfl⟩⟩, by simp⟩
    rw [afterWrite, if_pos h]
    exact hfirst.results
  | false =>
    have hstatus : (t.file.append blockContents).2.ok = true := by rw [hfirst.status, h]; rfl
    have hwrite : writeFails t.file.results = fails (t.file.append blockContents).1.results := by
      rw [writeFails, h, hfirst.results]
      rfl
    have hafter : afterWrite t.file.results = (t.file.append blockContents).1.results.tail := by
      rw [afterWrite, h, hfirst.results]
      rfl
    rw [hfirst.calm h]
    simp only [hstatus, if_true]
    cases h' : fails (t.file.append blockContents).1.results with
    | true =>
      have hstatus' := hsecond.status
      rw [h'] at hstatus'
      simp only [Bool.not_true] at hstatus'
      simp only [hstatus', hwrite, h']
      refine ⟨⟨⟨?_, by rw [hwrite, h']; exact hstatus', by simp [hwrite, h']⟩, ⟨_, _, _, rfl⟩⟩, by simp⟩
      rw [hafter]
      exact hsecond.results
    | false =>
      have hstatus' := hsecond.status
      rw [h'] at hstatus'
      simp only [Bool.not_false] at hstatus'
      rw [hsecond.calm h']
      simp only [hstatus', if_true]
      refine ⟨⟨⟨by rw [hafter]; exact hsecond.results, by rw [hwrite, h']; exact hstatus', fun _ hsized => ?_⟩,
        ⟨_, _, _, rfl⟩⟩, fun _ => rfl⟩
      have hcontents := congrArg List.length (hsecond.contents h')
      rw [hfirst.contents h, List.length_append, List.length_append, length_trailer] at hcontents
      simp only [Sized] at hsized ⊢
      omega

theorem wrote_writeBlock (options : Options) (t : TableBuilder) (block : BlockBuilder) :
    Wrote t (t.WriteBlock options block).1 ∧ (writeFails t.file.results = false →
      t.calm.WriteBlock options block = ((t.WriteBlock options block).1.calm, (t.WriteBlock options block).2)) := by
  obtain ⟨hwrote, hcalm⟩ :=
    t.wrote_writeRawBlock (compress options block.Finish.2).1 (compress options block.Finish.2).2
  refine ⟨hwrote, fun h => ?_⟩
  rw [WriteBlock, WriteBlock]
  simp only [hcalm h]

/-- A data block has been written: whether that failed is not seen in the status. -/
structure Flushed (options : Options) (t t' : TableBuilder) : Prop where
  datablock : t'.datablock = .new
  results : t'.file.results = (afterWrite t.file.results).tail
  status : t'.status.ok = !fails (afterWrite t.file.results)
  calm : writeFails t.file.results = false → t'.status.ok = true → t.calm.flush options = some t'.calm
  sized : writeFails t.file.results = false → t'.status.ok = true → t.Sized → t'.Sized

theorem flush_eq {options : Options} {t : TableBuilder} (hclosed : ¬ t.closed = true)
    (hempty : ¬ t.datablock.empty = true)
    (hpending : ¬ t.pendingindexentry = true) {w : TableBuilder × BlockBuilder × BlockHandle}
    (hw : t.WriteBlock options t.datablock = w) {r : WritableFile × Status} (hr : w.1.file.flush = r) :
    t.flush options = some { w.1 with
      file := r.1
      status := r.2
      datablock := w.2.1
      blockhandle := w.2.2
      pendingindexentry := true } := by
  rw [flush, if_neg hclosed, if_neg hempty, if_neg hpending, hw]
  simp only [hr]

theorem flush_cases {options : Options} {t t' : TableBuilder} (h : t.flush options = some t') :
    t.datablock.empty = true ∧ t' = t ∧ t.calm.flush options = some t.calm ∨
      t.datablock.empty = false ∧ Flushed options t t' := by
  by_cases hclosed : t.closed = true
  · rw [flush, if_pos hclosed] at h
    cases h
  by_cases hempty : t.datablock.empty = true
  · rw [flush, if_neg hclosed, if_pos hempty] at h
    exact Or.inl ⟨hempty, (Option.some.inj h).symm, (if_neg hclosed).trans (if_pos hempty)⟩
  by_cases hpending : t.pendingindexentry = true
  · rw [flush, if_neg hclosed, if_neg hempty, if_pos hpending] at h
    cases h
  obtain ⟨hwrote, hcalm⟩ := t.wrote_writeBlock options t.datablock
  have hreset : (t.WriteBlock options t.datablock).2.1 = .new := rfl
  rw [flush_eq hclosed hempty hpending rfl rfl] at h
  generalize hw : t.WriteBlock options t.datablock = w at hwrote hcalm hreset h
  have hflush := w.1.file.call_flush
  have hok : w.1.file.flush.2.ok = true → fails w.1.file.results = false := by
    intro hok
    have hstatus := hflush.status
    rw [hok] at hstatus
    simpa using hstatus.symm
  obtain rfl := Option.some.inj h
  refine Or.inr ⟨by simpa using hempty, ⟨hreset, ?_, ?_, ?_, ?_⟩⟩
  · rw [← hwrote.results]
    exact hflush.results
  · rw [← hwrote.results]
    exact hflush.status
  · intro hwrite hstatus
    have hcalmFlush : w.1.calm.file.flush = (w.1.file.flush.1.calm, w.1.file.flush.2) := hflush.calm (hok hstatus)
    exact @flush_eq options t.calm hclosed hempty hpending _ (hcalm hwrite) _ hcalmFlush
  · intro hwrite hstatus hsized
    have hcontents := hflush.contents (hok hstatus)
    rw [List.append_nil] at hcontents
    have hsized' := hwrote.sized hwrite hsized
    simp only [Sized] at hsized' ⊢
    rw [hsized', hcontents]

/-! ### Calls that do not write -/

theorem addIndexEntry_calm (options : Options) (t : TableBuilder) (lastkey : Slice) :
    t.calm.addIndexEntry options lastkey = (t.addIndexEntry options lastkey).map calm := by
  simp only [addIndexEntry, calm]
  cases t.blockhandle.EncodeTo with
  | none => rfl
  | some handle =>
    simp only [Option.bind_eq_bind, Option.bind_some]
    cases t.indexblock.Add options.comparator.Compare 1 lastkey handle <;> rfl

/-- The file and what is known of it stay. -/
structure Kept (t t' : TableBuilder) : Prop where
  file : t'.file = t.file
  offset : t'.offset = t.offset
  status : t'.status = t.status

theorem Kept.refl (t : TableBuilder) : Kept t t := ⟨rfl, rfl, rfl⟩

theorem Kept.sized {t t' : TableBuilder} (h : Kept t t') : t.Sized → t'.Sized := by
  rw [Sized, Sized, h.file, h.offset]
  exact id

theorem kept_addIndexEntry {options : Options} {t t' : TableBuilder} {lastkey : Slice}
    (h : t.addIndexEntry options lastkey = some t') : Kept t t' ∧ t'.datablock = t.datablock := by
  simp only [addIndexEntry, Option.bind_eq_bind, Option.bind_eq_some_iff] at h
  obtain ⟨_, -, _, -, h⟩ := h
  obtain rfl := Option.some.inj h
  exact ⟨⟨rfl, rfl, rfl⟩, rfl⟩

theorem addSeparator_calm (options : Options) (t : TableBuilder) (key : Slice) :
    t.calm.addSeparator options key = (t.addSeparator options key).map calm := by
  have hfields : t.calm.pendingindexentry = t.pendingindexentry ∧ t.calm.datablock = t.datablock ∧
    t.calm.lastkey = t.lastkey := ⟨rfl, rfl, rfl⟩
  rw [addSeparator, addSeparator, hfields.1, hfields.2.1, hfields.2.2]
  split
  · split
    · exact addIndexEntry_calm ..
    · rfl
  · rfl

theorem addSuccessor_calm (options : Options) (t : TableBuilder) :
    t.calm.addSuccessor options = (t.addSuccessor options).map calm := by
  have hfields : t.calm.pendingindexentry = t.pendingindexentry ∧ t.calm.lastkey = t.lastkey := ⟨rfl, rfl⟩
  rw [addSuccessor, addSuccessor, hfields.1, hfields.2]
  split
  · exact addIndexEntry_calm ..
  · rfl

theorem kept_addSeparator {options : Options} {t t' : TableBuilder} {key : Slice}
    (h : t.addSeparator options key = some t') : Kept t t' ∧ t'.datablock = t.datablock := by
  rw [addSeparator] at h
  split at h
  · split at h
    · exact kept_addIndexEntry h
    · cases h
  · obtain rfl := Option.some.inj h
    exact ⟨.refl t, rfl⟩

theorem kept_addSuccessor {options : Options} {t t' : TableBuilder} (h : t.addSuccessor options = some t') :
    Kept t t' := by
  rw [addSuccessor] at h
  split at h
  · exact (kept_addIndexEntry h).1
  · obtain rfl := Option.some.inj h
    exact .refl t

theorem addEntry_calm (options : Options) (t : TableBuilder) (key value : Slice) :
    t.calm.addEntry options key value = (t.addEntry options key value).map calm := by
  have hfields : t.calm.pendinghandle = t.pendinghandle ∧ t.calm.lastkey = t.lastkey := ⟨rfl, rfl⟩
  rw [addEntry, addEntry, hfields.1, hfields.2, addSeparator_calm]
  split
  · rfl
  · cases t.addSeparator options key with
    | none => rfl
    | some t₁ =>
      simp only [Option.map_some, Option.bind_eq_bind, Option.bind_some, calm]
      cases t₁.datablock.Add options.comparator.Compare options.blockrestartinterval key value <;> rfl

theorem kept_addEntry {options : Options} {t t' : TableBuilder} {key value : Slice}
    (h : t.addEntry options key value = some t') : Kept t t' ∧
      t.datablock.Add options.comparator.Compare options.blockrestartinterval key value = some t'.datablock := by
  rw [addEntry] at h
  split at h
  · cases h
  simp only [Option.bind_eq_bind, Option.bind_eq_some_iff] at h
  obtain ⟨t₁, hseparator, datablock, hadd, h⟩ := h
  obtain ⟨hkept, hdata⟩ := kept_addSeparator hseparator
  obtain rfl := Option.some.inj h
  exact ⟨⟨hkept.file, hkept.offset, hkept.status⟩, by rw [← hdata]; exact hadd⟩

/-! ### The end of a table -/

theorem take_any (n : ℕ) (results : List IoResult) :
    (results.take (n + 1)).any IoResult.failed = (fails results || (results.tail.take n).any IoResult.failed) := by
  cases results with
  | nil => simp [fails]
  | cons r results => rfl

/-- One of the five appends at the end of a table fails. -/
theorem any_take_five (results : List IoResult) : (results.take 5).any IoResult.failed =
    (writeFails results || (writeFails (afterWrite results) || fails (afterWrite (afterWrite results)))) := by
  have hwrite : ∀ n results, ((results : List IoResult).take (n + 2)).any IoResult.failed =
      (writeFails results || ((afterWrite results).take n).any IoResult.failed) := by
    intro n results
    rw [take_any, take_any, writeFails, afterWrite]
    by_cases h : fails results = true
    · simp [h]
    · simp [h]
  rw [hwrite 3, hwrite 1, take_any, List.take_zero, List.any_nil, Bool.or_false]

theorem writeEnd_eq_some {options : Options} {t t' : TableBuilder} {s : Status} :
    t.writeEnd options = some (t', s) ↔ ∃ i,
      ({ t with closed := true }.writeMetaindex options).1.writeIndex options = some i ∧
        i.1.writeFooter ⟨({ t with closed := true }.writeMetaindex options).2, i.2⟩ = some t' ∧ s = t'.status := by
  simp only [writeEnd, Option.bind_eq_bind, Option.bind_eq_some_iff]
  constructor
  · rintro ⟨i, hindex, t₂, hfooter, h⟩
    obtain ⟨rfl, rfl⟩ := Prod.mk.inj (Option.some.inj h)
    exact ⟨i, hindex, hfooter, rfl⟩
  · rintro ⟨i, hindex, hfooter, rfl⟩
    exact ⟨i, hindex, t', hfooter, rfl⟩

theorem wrote_writeMetaindex (options : Options) {t : TableBuilder} (hok : t.status.ok = true) :
    Wrote t (t.writeMetaindex options).1 ∧ (writeFails t.file.results = false →
      t.calm.writeMetaindex options = ((t.writeMetaindex options).1.calm, (t.writeMetaindex options).2)) := by
  obtain ⟨hwrote, hcalm⟩ := t.wrote_writeBlock options .new
  have hok' : t.calm.status.ok = true := hok
  rw [writeMetaindex, writeMetaindex, if_pos hok, if_pos hok']
  exact ⟨hwrote, fun h => by simp only [hcalm h]⟩

theorem writeIndex_spec {options : Options} {t : TableBuilder} {i : TableBuilder × BlockHandle}
    (h : t.writeIndex options = some i) (hok : t.status.ok = true) : Appended t i.1 ∧
      (writeFails t.file.results = false → t.calm.writeIndex options = some (i.1.calm, i.2)) := by
  have hok' : t.calm.status.ok = true := hok
  rw [writeIndex, if_pos hok] at h
  rw [writeIndex, if_pos hok', addSuccessor_calm]
  simp only [Option.bind_eq_bind, Option.bind_eq_some_iff] at h ⊢
  obtain ⟨t₁, hsuccessor, h⟩ := h
  have hkept := kept_addSuccessor hsuccessor
  obtain ⟨hwrote, hcalm⟩ := t₁.wrote_writeBlock options t₁.indexblock
  rw [hkept.file] at hcalm
  obtain rfl := Option.some.inj h
  refine ⟨⟨?_, ?_, fun hwrite hsized => ?_⟩, fun hwrite => ⟨t₁.calm, by rw [hsuccessor]; rfl, ?_⟩⟩
  · rw [← hkept.file]
    exact hwrote.results
  · rw [← hkept.file]
    exact hwrote.status
  · exact hwrote.sized (by rw [hkept.file]; exact hwrite) (hkept.sized hsized)
  · have hblock : t₁.calm.indexblock = t₁.indexblock := rfl
    rw [hblock, hcalm hwrite]
    rfl

theorem writeFooter_spec {t t' : TableBuilder} {footer : Footer} (h : t.writeFooter footer = some t')
    (hok : t.status.ok = true) : t'.status.ok = (!fails t.file.results) ∧ t'.file.results = t.file.results.tail ∧
      (fails t.file.results = false → t.calm.writeFooter footer = some t'.calm ∧ (t.Sized → t'.Sized)) := by
  have hok' : t.calm.status.ok = true := hok
  rw [writeFooter, if_pos hok] at h
  rw [writeFooter, if_pos hok']
  simp only [Option.bind_eq_bind, Option.bind_eq_some_iff] at h ⊢
  obtain ⟨footerEncoding, hencode, h⟩ := h
  have happend := t.file.call_append footerEncoding
  obtain rfl := Option.some.inj h
  refine ⟨happend.status, happend.results, fun hnot => ⟨⟨footerEncoding, hencode, ?_⟩, fun hsized => ?_⟩⟩
  · have hfile : t.calm.file = t.file.calm := rfl
    rw [hfile, happend.calm hnot]
    rfl
  · have hcontents := congrArg List.length (happend.contents hnot)
    have hstatus := happend.status
    rw [hnot] at hstatus
    rw [List.length_append] at hcontents
    simp only [Sized, hstatus, Bool.not_false, if_true] at hsized ⊢
    omega

/-- After the status has become bad, nothing is written. -/
theorem end_of_not_ok {options : Options} {t t' : TableBuilder}
    {i : TableBuilder × BlockHandle} {handle : BlockHandle}
    (hindex : t.writeIndex options = some i) (hfooter : i.1.writeFooter ⟨handle, i.2⟩ = some t')
    (hok : ¬ t.status.ok = true) : t' = t := by
  rw [writeIndex, if_neg hok] at hindex
  obtain rfl := Option.some.inj hindex
  rw [writeFooter, if_neg hok] at hfooter
  exact (Option.some.inj hfooter).symm

/-- The end of a table fails with the first of its appends that does. -/
theorem writeEnd_spec {options : Options} {t t' : TableBuilder} {s : Status} (hok : t.status.ok = true)
    (h : t.writeEnd options = some (t', s)) :
    s.ok = (!(t.file.results.take 5).any IoResult.failed) ∧ (s.ok = true →
      t'.file.failures = t.file.failures ∧ (t.Sized → t'.Sized) ∧ t.calm.writeEnd options = some (t'.calm, s)) := by
  obtain ⟨i, hindex, hfooter, rfl⟩ := writeEnd_eq_some.1 h
  obtain ⟨u, hu⟩ : ∃ u, u = ({ t with closed := true } : TableBuilder) := ⟨_, rfl⟩
  have hfile : u.file = t.file := by rw [hu]
  have hok : u.status.ok = true := by rw [hu]; exact hok
  have hsize : t.Sized → u.Sized := by rw [hu]; exact id
  rw [← hu] at hindex hfooter
  rw [← hfile]
  obtain ⟨hmeta, hmetaCalm⟩ := wrote_writeMetaindex options hok
  have hfirst := countP_afterWrite u.file.results
  rw [any_take_five]
  -- A failure in the metaindex block or in the index block leaves the status bad, and nothing more is written.
  by_cases h₁ : writeFails u.file.results = true
  · have hbad := hmeta.status
    rw [h₁] at hbad
    obtain rfl := end_of_not_ok hindex hfooter (by simp [hbad])
    simp [hbad, h₁]
  rw [Bool.not_eq_true] at h₁
  have hok₁ : (u.writeMetaindex options).1.status.ok = true := by rw [hmeta.status, h₁]; rfl
  obtain ⟨hwrote, hindexCalm⟩ := writeIndex_spec hindex hok₁
  rw [hmeta.results] at hindexCalm
  have hsecond := countP_afterWrite (afterWrite u.file.results)
  have hstatus := hwrote.status
  rw [hmeta.results] at hstatus
  by_cases h₂ : writeFails (afterWrite u.file.results) = true
  · rw [h₂] at hstatus
    rw [writeFooter, if_neg (by simp [hstatus])] at hfooter
    obtain rfl := Option.some.inj hfooter
    simp [hstatus, h₁, h₂]
  rw [Bool.not_eq_true] at h₂
  rw [h₂] at hstatus
  have hresults := hwrote.results
  rw [hmeta.results] at hresults
  obtain ⟨hstatus', hresults', hrest⟩ := writeFooter_spec hfooter hstatus
  rw [hresults] at hstatus' hresults' hrest
  rw [h₁, h₂, hstatus', Bool.false_or, Bool.false_or]
  refine ⟨rfl, fun h₃ => ?_⟩
  rw [Bool.not_eq_true'] at h₃
  have hthird := countP_tail (afterWrite (afterWrite u.file.results))
  rw [h₁] at hfirst
  rw [h₂] at hsecond
  rw [h₃] at hthird
  refine ⟨?_, fun hsized => ?_, writeEnd_eq_some.2 ⟨(i.1.calm, i.2), ?_, ?_, rfl⟩⟩
  · rw [WritableFile.failures, WritableFile.failures, hresults', ← hfirst, ← hsecond, ← hthird]
    rfl
  · exact (hrest h₃).2 (hwrote.sized (by rw [hmeta.results]; exact h₂) (hmeta.sized h₁ (hsize hsized)))
  all_goals
    have hcalm : ({ t.calm with closed := true } : TableBuilder) = u.calm := by rw [hu]; rfl
    rw [hcalm, hmetaCalm h₁]
  · exact hindexCalm h₂
  · exact (hrest h₃).1

/-! ### Runs -/

/-- How a run ends in which `n` data blocks are still to be written: with a bad status, or else whether a failure has
been hidden, now or before. -/
def fate : ℕ → List IoResult → Bool → Option Bool
  | 0, results, hidden => if (results.take 5).any IoResult.failed then none else some hidden
  | n + 1, results, hidden =>
    if fails (afterWrite results) then none else fate n (afterWrite results).tail (hidden || writeFails results)

/-- The number of the data blocks, from a block that is begun. -/
def dataBlocksFrom (options : Options) (block : BlockBuilder) : List (Slice × Slice) → ℕ
  | [] => if block.empty then 0 else 1
  | e :: l =>
    match block.Add options.comparator.Compare options.blockrestartinterval e.1 e.2 with
    | none => 0
    | some block =>
      if options.blocksize ≤ block.CurrentSizeEstimate then dataBlocksFrom options .new l + 1
      else dataBlocksFrom options block l

theorem not_empty_add {cmp : Slice → Slice → Ordering} {interval : ℕ} {b b' : BlockBuilder} {key value : Slice}
    (h : b.Add cmp interval key value = some b') : b'.empty = false := by
  rw [BlockBuilder.Add, Option.ite_none_right_eq_some] at h
  obtain ⟨-, h⟩ := h
  simp only [Option.ite_none_right_eq_some] at h
  obtain ⟨-, h⟩ := h
  obtain rfl := Option.some.inj h
  simp [BlockBuilder.empty, BlockBuilder.encodeEntry, encodeVarint32_ne_nil]

theorem writeEnd_of_not_ok {options : Options} {t t' : TableBuilder} {s : Status} (hok : ¬ t.status.ok = true)
    (h : t.writeEnd options = some (t', s)) : s.ok = false := by
  obtain ⟨i, hindex, hfooter, rfl⟩ := writeEnd_eq_some.1 h
  have hbad : ¬ ({ t with closed := true } : TableBuilder).status.ok = true := hok
  rw [writeMetaindex, if_neg hbad] at hindex hfooter
  obtain rfl := end_of_not_ok hindex hfooter hbad
  simpa using hok

/-- Once the status is bad and the data block is empty, the run has nothing to write. -/
theorem finishAfter_of_not_ok {options : Options} {t t' : TableBuilder} {s : Status} {l : List (Slice × Slice)}
    (hok : ¬ t.status.ok = true) (hempty : t.datablock.empty = true) (h : t.finishAfter options l = some (t', s)) :
    s.ok = false := by
  induction l with
  | nil =>
    obtain ⟨t₁, hflush, hend⟩ := Option.bind_eq_some_iff.1 h
    rcases flush_cases hflush with ⟨-, rfl, -⟩ | ⟨hne, -⟩
    · exact writeEnd_of_not_ok hok hend
    · rw [hempty] at hne
      cases hne
  | cons e l ih =>
    obtain ⟨t₁, hadd, h⟩ := Option.bind_eq_some_iff.1 h
    rw [Add] at hadd
    split at hadd
    · cases hadd
    · obtain rfl := Option.some.inj hadd
      exact ih h

/-- `Add` up to the flush, and the flush if there is one. -/
theorem add_cases {options : Options} {t t' : TableBuilder} {key value : Slice} (hok : t.status.ok = true)
    (h : t.Add options key value = some t') : t.closed = false ∧ ∃ t₁, t.addEntry options key value = some t₁ ∧
      (options.blocksize ≤ t₁.datablock.CurrentSizeEstimate ∧ t₁.flush options = some t' ∨
        ¬ options.blocksize ≤ t₁.datablock.CurrentSizeEstimate ∧ t' = t₁) := by
  by_cases hclosed : t.closed = true
  · rw [Add, if_pos hclosed] at h
    cases h
  rw [Add, if_neg hclosed, if_pos hok] at h
  simp only [Option.bind_eq_bind, Option.bind_eq_some_iff] at h
  obtain ⟨t₁, hentry, h⟩ := h
  refine ⟨by simpa using hclosed, t₁, hentry, ?_⟩
  split at h
  · exact Or.inl ⟨by assumption, h⟩
  · exact Or.inr ⟨by assumption, (Option.some.inj h).symm⟩

/-- How the rest `f` of a run ends, in which `n` data blocks are still to be written. -/
structure Fated (n : ℕ) (f : TableBuilder → Option (TableBuilder × Status)) (t t' : TableBuilder) (s : Status) :
    Prop where
  fate : ∀ hidden, fate n t.file.results hidden =
    if s.ok then some (hidden || decide (t'.file.failures < t.file.failures)) else none
  le : s.ok = true → t'.file.failures ≤ t.file.failures
  calm : s.ok = true → t'.file.failures = t.file.failures → (t.Sized → t'.Sized) ∧ f t.calm = some (t'.calm, s)

theorem fated_writeEnd {options : Options} {t t' : TableBuilder} {s : Status} (hok : t.status.ok = true)
    (h : t.writeEnd options = some (t', s)) : Fated 0 (writeEnd options) t t' s := by
  obtain ⟨hs, hrest⟩ := writeEnd_spec hok h
  refine ⟨fun hidden => ?_, fun hs' => Nat.le_of_eq (hrest hs').1, fun hs' _ => (hrest hs').2⟩
  rw [TableBuilder.fate]
  cases hany : (t.file.results.take 5).any IoResult.failed with
  | true =>
    rw [hany] at hs
    simp [hs]
  | false =>
    rw [hany] at hs
    simp [hs, (hrest hs).1]

/-- A data block is written, and the status may hide a failure. -/
theorem Flushed.fated {options : Options} {n : ℕ} {f : TableBuilder → Option (TableBuilder × Status)}
    {t t₁ t' : TableBuilder} {s : Status} (h : Flushed options t t₁) (hok : t₁.status.ok = true)
    (hf : Fated n f t₁ t' s) : Fated (n + 1) (fun t => t.flush options >>= f) t t' s := by
  have hflush : fails (afterWrite t.file.results) = false := by
    have hstatus := h.status
    rw [hok] at hstatus
    simpa using hstatus.symm
  have hcount : t₁.file.failures + (if writeFails t.file.results then 1 else 0) = t.file.failures := by
    have hwrite := countP_afterWrite t.file.results
    have htail := countP_tail (afterWrite t.file.results)
    rw [hflush] at htail
    rw [WritableFile.failures, WritableFile.failures, h.results, ← hwrite, ← htail]
    rfl
  refine ⟨fun hidden => ?_, fun hs => ?_, fun hs heq => ?_⟩
  · rw [TableBuilder.fate, if_neg (by simp [hflush]), ← h.results, hf.fate]
    split
    · rename_i hs
      have hle := hf.le hs
      rw [← hcount, Bool.or_assoc]
      cases writeFails t.file.results with
      | false => rfl
      | true => simp [Nat.lt_succ_of_le hle]
    · rfl
  · have := hf.le hs
    omega
  · have hle := hf.le hs
    have hwrite : writeFails t.file.results = false := by
      by_contra hne
      rw [Bool.not_eq_false] at hne
      rw [if_pos hne] at hcount
      omega
    rw [hwrite] at hcount
    obtain ⟨hsized, hcalm⟩ := hf.calm hs (heq.trans hcount.symm)
    refine ⟨fun h' => hsized (h.sized hwrite hok h'), ?_⟩
    simp only [h.calm hwrite hok]
    exact hcalm

theorem Flushed.fails {options : Options} {t t₁ : TableBuilder} (h : Flushed options t t₁)
    (hok : ¬ t₁.status.ok = true) :
    fails (afterWrite t.file.results) = true := by
  rw [h.status] at hok
  simpa using hok

theorem fated_of_fails {n : ℕ} (f : TableBuilder → Option (TableBuilder × Status)) {t t' : TableBuilder} {s : Status}
    (hflush : fails (afterWrite t.file.results) = true) (hs : s.ok = false) : Fated (n + 1) f t t' s := by
  refine ⟨fun hidden => ?_, fun hs' => ?_, fun hs' => ?_⟩
  · rw [TableBuilder.fate, if_pos hflush, hs]
    rfl
  · rw [hs] at hs'
    cases hs'
  · rw [hs] at hs'
    cases hs'

theorem Fated.kept {n : ℕ} {f g : TableBuilder → Option (TableBuilder × Status)} {t t₁ t' : TableBuilder} {s : Status}
    (h : Fated n f t₁ t' s) (hkept : Kept t t₁) (hg : g t.calm = f t₁.calm) : Fated n g t t' s where
  fate := by
    rw [← hkept.file]
    exact h.fate
  le := by
    rw [← hkept.file]
    exact h.le
  calm := by
    intro hs heq
    rw [← hkept.file] at heq
    obtain ⟨hsized, hcalm⟩ := h.calm hs heq
    exact ⟨fun h' => hsized (hkept.sized h'), hg.trans hcalm⟩

/-- How a run ends, from a good status on. -/
theorem fated_finishAfter {options : Options} {t t' : TableBuilder} {s : Status} {l : List (Slice × Slice)}
    (hok : t.status.ok = true) (h : t.finishAfter options l = some (t', s)) :
    Fated (dataBlocksFrom options t.datablock l) (fun t => t.finishAfter options l) t t' s := by
  induction l generalizing t with
  | nil =>
    obtain ⟨t₁, hflush, hend⟩ := Option.bind_eq_some_iff.1 h
    rw [dataBlocksFrom]
    rcases flush_cases hflush with ⟨hempty, rfl, hcalm⟩ | ⟨hne, hflushed⟩
    · rw [if_pos hempty]
      refine (fated_writeEnd hok hend).kept (.refl _) ?_
      rw [finishAfter, Finish, hcalm]
      rfl
    · rw [if_neg (by simp [hne])]
      by_cases hok₁ : t₁.status.ok = true
      · exact hflushed.fated hok₁ (fated_writeEnd hok₁ hend)
      · exact fated_of_fails _ (hflushed.fails hok₁) (writeEnd_of_not_ok hok₁ hend)
  | cons e l ih =>
    obtain ⟨t₁, hadd, h⟩ := Option.bind_eq_some_iff.1 h
    obtain ⟨hclosed, t₂, hentry, hrest⟩ := add_cases hok hadd
    obtain ⟨hkept, hdata⟩ := kept_addEntry hentry
    have hcalm : t.calm.Add options e.1 e.2 =
        if options.blocksize ≤ t₂.datablock.CurrentSizeEstimate then t₂.calm.flush options else some t₂.calm := by
      rw [Add, if_neg (show ¬ t.calm.closed = true by simp [calm, hclosed]),
        if_pos (show t.calm.status.ok = true from hok),
        addEntry_calm, hentry]
      rfl
    rw [dataBlocksFrom, hdata]
    rcases hrest with ⟨hsize, hflush⟩ | ⟨hsize, rfl⟩
    · rcases flush_cases hflush with ⟨hempty, -⟩ | ⟨-, hflushed⟩
      · rw [not_empty_add hdata] at hempty
        cases hempty
      simp only [if_pos hsize] at hcalm ⊢
      by_cases hok₁ : t₁.status.ok = true
      · have hrun := ih hok₁ h
        rw [hflushed.datablock] at hrun
        refine (hflushed.fated hok₁ hrun).kept hkept ?_
        simp only [finishAfter, hcalm]
      · have hempty : t₁.datablock.empty = true := by rw [hflushed.datablock]; rfl
        have hfails := hflushed.fails hok₁
        rw [hkept.file] at hfails
        exact fated_of_fails _ hfails (finishAfter_of_not_ok hok₁ hempty h)
    · simp only [if_neg hsize] at hcalm ⊢
      refine (ih (by rw [hkept.status]; exact hok) h).kept hkept ?_
      simp only [finishAfter, hcalm]
      rfl

/-! ### No assertion fails -/

/-- What holds between the calls on a builder. -/
structure Sound (options : Options) (t : TableBuilder) : Prop where
  data : ∃ pieces points, BlockBuilder.Built options.blockrestartinterval t.datablock pieces points ∧
    ∀ p, pieces.getLast? = some p → 0 < t.pendinghandle ∧ p.key = t.lastkey
  index : ∃ pieces points, BlockBuilder.Built 1 t.indexblock pieces points ∧
    ∀ p, pieces.getLast? = some p → 0 < t.pendinghandle ∧ options.comparator.Compare p.key t.lastkey = .lt
  pending : t.pendingindexentry = true →
    0 < t.pendinghandle ∧ t.datablock.empty = true ∧ t.blockhandle.EncodeTo.isSome = true

theorem sound_new (options : Options) (file : WritableFile) : Sound options (new file) where
  data := ⟨[], [0], BlockBuilder.built_new _, by simp⟩
  index := ⟨[], [0], BlockBuilder.built_new _, by simp⟩
  pending := by simp [new]

/-- The index block takes an entry whose key is not before the last key. -/
theorem Sound.addIndexEntry {options : Options} (hlawful : options.comparator.Lawful) {t : TableBuilder}
    (h : Sound options t) (hpending : t.pendingindexentry = true) {key : Slice}
    (hkey : (options.comparator.Compare t.lastkey key).isLE) : ∃ indexblock pieces points,
      t.addIndexEntry options key =
        some { t with lastkey := key, indexblock := indexblock, pendingindexentry := false } ∧
      BlockBuilder.Built 1 indexblock pieces points ∧ ∀ p, pieces.getLast? = some p → p.key = key := by
  have := hlawful.trans
  obtain ⟨pieces, points, hbuilt, hlast⟩ := h.index
  obtain ⟨handle, hhandle⟩ := Option.isSome_iff_exists.1 (h.pending hpending).2.2
  have hgt : ∀ p, pieces.getLast? = some p → options.comparator.Compare key p.key = .gt := by
    intro p hp
    exact Std.OrientedCmp.gt_of_lt (Std.TransCmp.lt_of_lt_of_isLE (hlast p hp).2 hkey)
  obtain ⟨indexblock, p, points', hadd, hbuilt', hpair⟩ :=
    @BlockBuilder.Built.add options.comparator.Compare _ (Nat.le_refl 1) _ _ _ hbuilt key handle hgt
  refine ⟨indexblock, pieces ++ [p], points', ?_, hbuilt', fun q hq => ?_⟩
  · simp only [TableBuilder.addIndexEntry, hhandle, hadd, Option.bind_eq_bind, Option.bind_some]
    rfl
  · rw [List.getLast?_concat] at hq
    obtain rfl := Option.some.inj hq
    exact congrArg Prod.fst hpair

theorem Sound.addEntry {options : Options} (hlawful : options.comparator.Lawful)
    (hinterval : 1 ≤ options.blockrestartinterval) {t : TableBuilder} (h : Sound options t) {key value : Slice}
    (hkey : 0 < t.pendinghandle → options.comparator.Compare t.lastkey key = .lt) : ∃ t',
      t.addEntry options key value = some t' ∧ Sound options t' ∧ t'.lastkey = key ∧ t'.closed = t.closed := by
  have := hlawful.trans
  have hassert : ¬ (0 < t.pendinghandle ∧ options.comparator.Compare key t.lastkey ≠ .gt) :=
    fun hbad => hbad.2 (Std.OrientedCmp.gt_of_lt (hkey hbad.1))
  -- the index entry of the last data block, whose key is before the new one
  obtain ⟨t₁, hseparator, hdata, hclosed, hpending, hlastkey, pieces, points, hindex, hbefore⟩ : ∃ t₁,
      t.addSeparator options key = some t₁ ∧ t₁.datablock = t.datablock ∧ t₁.closed = t.closed ∧
        t₁.pendingindexentry = false ∧ t₁.pendinghandle = t.pendinghandle ∧
        ∃ pieces points, BlockBuilder.Built 1 t₁.indexblock pieces points ∧
          ∀ p, pieces.getLast? = some p → options.comparator.Compare p.key key = .lt := by
    rw [addSeparator]
    by_cases hpending : t.pendingindexentry = true
    · obtain ⟨hbegun, hempty, -⟩ := h.pending hpending
      obtain ⟨indexblock, pieces, points, hadd, hbuilt, hlast⟩ :=
        h.addIndexEntry hlawful hpending (hlawful.le_separator _ _ (hkey hbegun))
      rw [if_pos hpending, if_pos hempty, hadd]
      refine ⟨_, rfl, rfl, rfl, rfl, rfl, pieces, points, hbuilt, fun p hp => ?_⟩
      rw [hlast p hp]
      exact hlawful.separator_lt _ _ (hkey hbegun)
    · obtain ⟨pieces, points, hbuilt, hlast⟩ := h.index
      rw [if_neg hpending]
      exact ⟨t, rfl, rfl, rfl, by simpa using hpending, rfl, pieces, points, hbuilt,
        fun p hp => Std.TransCmp.lt_trans (hlast p hp).2 (hkey (hlast p hp).1)⟩
  obtain ⟨dpieces, dpoints, hbuilt, hlast⟩ := h.data
  have hgt : ∀ p, dpieces.getLast? = some p → options.comparator.Compare key p.key = .gt := by
    intro p hp
    rw [(hlast p hp).2]
    exact Std.OrientedCmp.gt_of_lt (hkey (hlast p hp).1)
  obtain ⟨datablock, p, points', hadd, hbuilt', hpair⟩ :=
    @BlockBuilder.Built.add options.comparator.Compare _ hinterval _ _ _ hbuilt key value hgt
  refine ⟨{ t₁ with lastkey := key, pendinghandle := t₁.pendinghandle + 1, datablock := datablock }, ?_, ?_, rfl,
    hclosed⟩
  · rw [TableBuilder.addEntry, if_neg hassert, hseparator]
    simp only [Option.bind_eq_bind, Option.bind_some, hdata, hadd]
    rfl
  · refine ⟨⟨_, points', hbuilt', fun q hq => ?_⟩,
      ⟨pieces, points, hindex, fun q hq => ⟨Nat.succ_pos _, hbefore q hq⟩⟩,
      fun hpending' => ?_⟩
    · rw [List.getLast?_concat] at hq
      obtain rfl := Option.some.inj hq
      exact ⟨Nat.succ_pos _, congrArg Prod.fst hpair⟩
    · rw [show _ = false from hpending] at hpending'
      cases hpending'

theorem isSome_encodeTo_writeBlock (options : Options) (t : TableBuilder) (block : BlockBuilder) :
    (t.WriteBlock options block).2.2.EncodeTo.isSome = true := by
  rw [WriteBlock]
  simp only [WriteRawBlock]
  split
  · split <;> rfl
  · rfl

theorem Sound.flush {options : Options} {t : TableBuilder} (h : Sound options t) (hclosed : t.closed = false) : ∃ t',
    t.flush options = some t' ∧ Sound options t' ∧ t'.lastkey = t.lastkey ∧ t'.closed = false := by
  have hclosed' : ¬ t.closed = true := by simp [hclosed]
  by_cases hempty : t.datablock.empty = true
  · exact ⟨t, (if_neg hclosed').trans (if_pos hempty), h, rfl, hclosed⟩
  have hpending : ¬ t.pendingindexentry = true := fun hpending => hempty (h.pending hpending).2.1
  have hbegun : 0 < t.pendinghandle := by
    obtain ⟨pieces, points, hbuilt, hlast⟩ := h.data
    cases hp : pieces.getLast? with
    | none =>
      rw [List.getLast?_eq_none_iff] at hp
      refine absurd ?_ hempty
      rw [BlockBuilder.empty, hbuilt.buffer, hp]
      rfl
    | some p => exact (hlast p hp).1
  obtain ⟨hwrote, -⟩ := t.wrote_writeBlock options t.datablock
  have hreset : (t.WriteBlock options t.datablock).2.1 = .new := rfl
  have hhandle := isSome_encodeTo_writeBlock options t t.datablock
  have hflush := @flush_eq options t hclosed' hempty hpending _ rfl _ rfl
  generalize t.WriteBlock options t.datablock = w at hwrote hreset hhandle hflush
  obtain ⟨file, offset, status, hframe⟩ := hwrote.frame
  rw [hframe, hreset] at hflush
  exact ⟨_, hflush, ⟨⟨[], [0], BlockBuilder.built_new _, by simp⟩, h.index, fun _ => ⟨hbegun, rfl, hhandle⟩⟩, rfl,
    hclosed⟩

/-- The index block is written with the handle of the last data block. -/
theorem Sound.writeIndex {options : Options} (hlawful : options.comparator.Lawful) {t : TableBuilder}
    (h : Sound options t) (hok : t.status.ok = true) :
    ∃ i, t.writeIndex options = some i ∧ i.2.EncodeTo.isSome = true := by
  obtain ⟨t₁, hsuccessor⟩ : ∃ t₁, t.addSuccessor options = some t₁ := by
    rw [addSuccessor]
    split
    · rename_i hpending
      obtain ⟨_, _, _, hadd, -⟩ := h.addIndexEntry hlawful hpending (hlawful.le_successor t.lastkey)
      exact ⟨_, hadd⟩
    · exact ⟨t, rfl⟩
  rw [TableBuilder.writeIndex, if_pos hok, hsuccessor]
  exact ⟨_, rfl, isSome_encodeTo_writeBlock options t₁ t₁.indexblock⟩

theorem exists_writeFooter {t : TableBuilder} {footer : Footer} (h : t.status.ok = true →
    footer.metaindexhandle.EncodeTo.isSome = true ∧ footer.indexHandle.EncodeTo.isSome = true) :
    ∃ t', t.writeFooter footer = some t' := by
  rw [writeFooter]
  split
  · rename_i hok
    obtain ⟨metaindex, hmetaindex⟩ := Option.isSome_iff_exists.1 (h hok).1
    obtain ⟨index, hindex⟩ := Option.isSome_iff_exists.1 (h hok).2
    simp only [Footer.EncodeTo, hmetaindex, hindex, Option.bind_eq_bind, Option.bind_some]
    exact ⟨_, rfl⟩
  · exact ⟨t, rfl⟩

theorem Sound.writeEnd {options : Options} (hlawful : options.comparator.Lawful) {t : TableBuilder}
    (h : Sound options t) : ∃ r, t.writeEnd options = some r := by
  obtain ⟨u, hu⟩ : ∃ u, u = ({ t with closed := true } : TableBuilder) := ⟨_, rfl⟩
  have hsound : Sound options u := by
    rw [hu]
    exact ⟨h.data, h.index, h.pending⟩
  suffices hend : ∃ i, (u.writeMetaindex options).1.writeIndex options = some i ∧
      ∃ t', i.1.writeFooter ⟨(u.writeMetaindex options).2, i.2⟩ = some t' by
    subst hu
    obtain ⟨i, hindex, t', hfooter⟩ := hend
    exact ⟨(t', t'.status), writeEnd_eq_some.2 ⟨i, hindex, hfooter, rfl⟩⟩
  by_cases hok : u.status.ok = true
  · have hmeta : (u.writeMetaindex options).2.EncodeTo.isSome = true := by
      rw [writeMetaindex, if_pos hok]
      exact isSome_encodeTo_writeBlock options u .new
    obtain ⟨file, offset, status, hframe⟩ := (wrote_writeMetaindex options hok).1.frame
    have hsound₁ : Sound options (u.writeMetaindex options).1 := by
      rw [hframe]
      exact ⟨hsound.data, hsound.index, hsound.pending⟩
    by_cases hok₁ : (u.writeMetaindex options).1.status.ok = true
    · obtain ⟨i, hindex, hhandle⟩ := hsound₁.writeIndex hlawful hok₁
      exact ⟨i, hindex, exists_writeFooter fun _ => ⟨hmeta, hhandle⟩⟩
    · exact ⟨_, if_neg hok₁, exists_writeFooter fun hok₂ => absurd hok₂ hok₁⟩
  · rw [writeMetaindex, if_neg hok]
    exact ⟨(u, .new), if_neg hok, u, if_neg hok⟩

/-- A run on increasing keys ends, whatever fails. -/
theorem exists_finishAfter {options : Options} (hlawful : options.comparator.Lawful)
    (hinterval : 1 ≤ options.blockrestartinterval) {l : List (Slice × Slice)}
    (hl : Cursor.Increasing options.comparator.Compare l) {t : TableBuilder} (h : Sound options t)
    (hclosed : t.closed = false)
    (hlast : 0 < t.pendinghandle → ∀ e ∈ l, options.comparator.Compare t.lastkey e.1 = .lt) :
    ∃ r, t.finishAfter options l = some r := by
  have hclosed' : ¬ t.closed = true := by simp [hclosed]
  induction l generalizing t with
  | nil =>
    obtain ⟨t', hflush, hsound, -⟩ := h.flush hclosed
    obtain ⟨r, hr⟩ := hsound.writeEnd hlawful
    exact ⟨r, by rw [finishAfter, Finish, hflush]; exact hr⟩
  | cons e l ih =>
    obtain ⟨he, hl⟩ := List.pairwise_cons.1 hl
    by_cases hok : t.status.ok = true
    · obtain ⟨t₁, hentry, hsound, hlastkey, hclosed₁⟩ :=
        @Sound.addEntry _ hlawful hinterval _ h e.1 e.2 fun hbegun => hlast hbegun e (List.mem_cons_self ..)
      rw [hclosed] at hclosed₁
      obtain ⟨t₂, hadd, hsound₂, hlastkey₂, hclosed₂⟩ : ∃ t₂, t.Add options e.1 e.2 = some t₂ ∧ Sound options t₂ ∧
          t₂.lastkey = e.1 ∧ t₂.closed = false := by
        rw [Add, if_neg hclosed', if_pos hok, hentry]
        simp only [Option.bind_eq_bind, Option.bind_some]
        split
        · obtain ⟨t₂, hflush, hsound₂, hkey, hclosed₂⟩ := hsound.flush hclosed₁
          exact ⟨t₂, hflush, hsound₂, hkey.trans hlastkey, hclosed₂⟩
        · exact ⟨t₁, rfl, hsound, hlastkey, hclosed₁⟩
      obtain ⟨r, hr⟩ :=
        ih hl hsound₂ hclosed₂ (fun _ e' he' => by rw [hlastkey₂]; exact he e' he') (by simp [hclosed₂])
      exact ⟨r, by rw [finishAfter, hadd]; exact hr⟩
    · obtain ⟨r, hr⟩ := ih hl h hclosed (fun hbegun e' he' => hlast hbegun e' (List.mem_cons_of_mem _ he')) hclosed'
      exact ⟨r, by rw [finishAfter, Add, if_neg hclosed', if_neg hok]; exact hr⟩

theorem exists_build {options : Options} (hlawful : options.comparator.Lawful)
    (hinterval : 1 ≤ options.blockrestartinterval) {l : List (Slice × Slice)}
    (hl : Cursor.Increasing options.comparator.Compare l) (results : List IoResult) :
    ∃ t s, build options l results = some (t, s) := by
  obtain ⟨r, hr⟩ :=
    exists_finishAfter hlawful hinterval hl (sound_new options (.opened [] results)) rfl (by simp [new])
  exact ⟨r.1, r.2, hr⟩

/-! ### What `Finish` returns -/

/-- The data blocks of the table with these pairs. -/
def dataBlocks (options : Options) (l : List (Slice × Slice)) : ℕ := dataBlocksFrom options .new l

/-- A failure to write a data block is followed by a flush of the file that succeeds, and no later flush and no append
at the end of the table fails. -/
def Hides (n : ℕ) (results : List IoResult) : Prop := fate n results false = some true

/-- `Finish` returns an error if a call on the file has failed.  If it returns OK, the file is that of the run without
failures and the size is its length. -/
structure Sticky (options : Options) (l : List (Slice × Slice)) (results : List IoResult) (t : TableBuilder)
    (s : Status) : Prop where
  reports : t.file.failures < (WritableFile.opened [] results).failures → s.ok = false
  complete : s.ok = true → ∃ t₀, build options l [] = some (t₀, s) ∧ t.file.contents = t₀.file.contents ∧
    t.filesize = t.file.contents.length

theorem fated_build {options : Options} {l : List (Slice × Slice)} {results : List IoResult} {t : TableBuilder}
    {s : Status} (h : build options l results = some (t, s)) :
    Fated (dataBlocks options l) (fun t => t.finishAfter options l) (new (.opened [] results)) t s :=
  fated_finishAfter (show (new (.opened [] results)).status.ok = true from rfl) h

/-- A failure is hidden just when the table is finished with a failure and without an error. -/
theorem hides_iff {options : Options} {l : List (Slice × Slice)} {results : List IoResult} {t : TableBuilder}
    {s : Status} (h : build options l results = some (t, s)) : Hides (dataBlocks options l) results ↔
      s.ok = true ∧ t.file.failures < (WritableFile.opened [] results).failures := by
  have hfate : fate (dataBlocks options l) results false =
      if s.ok then some (decide (t.file.failures < (WritableFile.opened [] results).failures)) else none :=
    (fated_build h).fate false
  rw [Hides, hfate]
  cases s.ok <;> simp

/-- Errors are sticky unless a failure is hidden. -/
theorem finish_sticky_iff {options : Options} {l : List (Slice × Slice)} {results : List IoResult} {t : TableBuilder}
    {s : Status} (h : build options l results = some (t, s)) :
    Sticky options l results t s ↔ ¬ Hides (dataBlocks options l) results := by
  rw [hides_iff h]
  constructor
  · rintro hsticky ⟨hs, hlt⟩
    rw [hsticky.reports hlt] at hs
    cases hs
  · intro hhides
    refine ⟨fun hlt => ?_, fun hs => ?_⟩
    · by_contra hs
      exact hhides ⟨by simpa using hs, hlt⟩
    · have hge : ¬ t.file.failures < (WritableFile.opened [] results).failures := fun hlt => hhides ⟨hs, hlt⟩
      have heq := Nat.le_antisymm ((fated_build h).le hs) (Nat.not_lt.1 hge)
      obtain ⟨hsized, hcalm⟩ := (fated_build h).calm hs heq
      exact ⟨t.calm, hcalm, rfl, hsized rfl⟩

section Examples

private def byLength : Comparator := ⟨compareOn List.length, fun start _ => start, fun key => key⟩

private theorem lawful_byLength : byLength.Lawful :=
  have htrans : Std.TransCmp byLength.Compare := inferInstanceAs (Std.TransCmp (compareOn List.length))
  ⟨htrans, fun _ _ _ => Std.ReflCmp.isLE_rfl, fun _ _ h => h, fun _ => Std.ReflCmp.isLE_rfl⟩

private def uncompressed : Options := ⟨byLength, 4096, 16, .kNoCompression, fun _ => none⟩

private theorem dataBlocks_single (e : Slice × Slice) : dataBlocks uncompressed [e] = 1 := by
  obtain ⟨block, hadd⟩ :
      ∃ block, BlockBuilder.Add uncompressed.comparator.Compare uncompressed.blockrestartinterval .new
      e.1 e.2 = some block := by
    simp [BlockBuilder.Add, BlockBuilder.new, uncompressed, sharedLength]
  rw [dataBlocks, dataBlocksFrom, hadd]
  dsimp only
  split
  · rfl
  · simp [dataBlocksFrom, not_empty_add hadd]

theorem finish_sticky_onePair : ∃ t s, build uncompressed [([97], [49])] [.ok, .ok, .fail 0 "EIO"] = some (t, s) ∧
    (Sticky uncompressed [([97], [49])] [.ok, .ok, .fail 0 "EIO"] t s ↔
      ¬ Hides (dataBlocks uncompressed [([97], [49])]) [.ok, .ok, .fail 0 "EIO"]) := by
  obtain ⟨t, s, h⟩ := @exists_build uncompressed lawful_byLength (by decide) [([97], [49])]
    (List.pairwise_singleton ..) [.ok, .ok, .fail 0 "EIO"]
  exact ⟨t, s, h, finish_sticky_iff h⟩

private theorem exists_hidden (e : Slice × Slice) :
    ∃ t, build uncompressed [e] [.fail 0 "ENOSPC"] = some (t, .OK) ∧
      t.file.failures < (WritableFile.opened [] [.fail 0 "ENOSPC"]).failures := by
  obtain ⟨t, s, h⟩ := @exists_build uncompressed lawful_byLength (by decide) [e] (List.pairwise_singleton ..)
    [.fail 0 "ENOSPC"]
  have hhides : Hides (dataBlocks uncompressed [e]) [.fail 0 "ENOSPC"] := by
    rw [dataBlocks_single]
    rfl
  obtain ⟨hs, hlt⟩ := (hides_iff h).1 hhides
  obtain rfl := Status.ok_iff.1 hs
  exact ⟨t, h, hlt⟩

/-- A value that the buffer of the file does not hold. -/
private def largeValue : Slice := List.replicate 70000 49

/-- The data block is not written, the flush succeeds, and `Finish` returns OK. -/
theorem finish_hides_failure : ∃ t, build uncompressed [([97], largeValue)] [.fail 0 "ENOSPC"] = some (t, .OK) ∧
    t.file.failures < (WritableFile.opened [] [.fail 0 "ENOSPC"]).failures ∧
    ¬ Sticky uncompressed [([97], largeValue)] [.fail 0 "ENOSPC"] t .OK := by
  obtain ⟨t, h, hlt⟩ := exists_hidden ([97], largeValue)
  refine ⟨t, h, hlt, fun hsticky => ?_⟩
  cases hsticky.reports hlt

end Examples

end TableBuilder

end RedisDb
