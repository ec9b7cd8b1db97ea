import SwissArmyKnife.RedisDb.LogLayout
import SwissArmyKnife.RedisDb.LogReader

/-!
# Reading a layout back

A reader that stands at a fragment of the layout returns it when the file holds all of it, and reports the end of the
file without any corruption when the file ends inside it (`readPhysicalRecord_layout`).  From this the records of a
log are returned one after the other (`drain_records`, `drain_truncated`).
-/

namespace RedisDb

namespace LogReader

/-- The reader stands at the offset `p` of the file `F`, with `d` bytes of its block to go. -/
structure At (F : Slice) (p d : Nat) (r : LogReader) : Prop where
  aligned : (p + d) % kBlockSize = 0
  bound : d ≤ kBlockSize
  buffer : r.buffer = (F.drop p).take d
  file : r.file = ⟨F.drop (p + d), []⟩
  eof : r.eof = decide (F.length < p + d)
  initialoffset : r.initialoffset = 0
  resyncing : r.resyncing = false

theorem at_new (F : Slice) (reporter checksum : Bool) : At F 0 0 (new ⟨F, []⟩ reporter checksum 0) :=
  ⟨rfl, Nat.zero_le _, rfl, rfl, by simp [new], rfl, rfl⟩

private theorem widen_toUInt8 (t : RecordType) : widen t.toUInt8 = t.toUInt32 := by
  cases t <;> decide

private theorem length_bytes {n : Nat} (h : n < 65536) :
    (UInt8.ofNat (n &&& 0xff)).toNat ||| ((UInt8.ofNat (n >>> 8)).toNat <<< 8) = n := by
  have hlow : n &&& 0xff = n % 2 ^ 8 := Nat.and_two_pow_sub_one_eq_mod n 8
  have hhigh : n >>> 8 < 2 ^ 8 := by
    rw [Nat.shiftRight_eq_div_pow]
    omega
  rw [UInt8.toNat_ofNat', UInt8.toNat_ofNat', Nat.mod_eq_of_lt hhigh, hlow, Nat.mod_mod]
  rw [Nat.or_comm, ← Nat.shiftLeft_add_eq_or_of_lt (Nat.mod_lt _ (by decide)), Nat.shiftRight_eq_div_pow,
    Nat.shiftLeft_eq]
  omega

/-- The header that the writer formats, in front of its data, passes every check of the reader. -/
private theorem parseRecord_header {r : LogReader} {t : RecordType} {data tail : Slice}
    (hbuffer : r.buffer = LogWriter.header t data ++ (data ++ tail)) (ht : t ≠ .kZeroType)
    (hlen : data.length < 65536) (hinitial : r.initialoffset = 0) :
    r.parseRecord = ({ r with buffer := tail }, t.toUInt32, data) := by
  have hlength : ((r.buffer.getD 4 0).toNat ||| ((r.buffer.getD 5 0).toNat <<< 8)) = data.length := by
    rw [hbuffer]
    exact length_bytes hlen
  have htype : widen (r.buffer.getD 6 0) = t.toUInt32 := by
    rw [hbuffer]
    exact widen_toUInt8 t
  have hfits : ¬ kHeaderSize + data.length > r.buffer.length := by
    rw [hbuffer]
    simp only [List.length_append, LogWriter.length_header]
    omega
  have hcrc : crc32c.Value ((r.buffer.drop 6).take (1 + data.length)) =
      crc32c.Unmask (DecodeFixed32 r.buffer) := by
    have htake : (r.buffer.drop 6).take (1 + data.length) = [t.toUInt8] ++ data := by
      rw [hbuffer, Nat.add_comm 1]
      show t.toUInt8 :: (data ++ tail).take data.length = _
      rw [List.take_left' rfl]
      rfl
    have hdecode : DecodeFixed32 r.buffer = crc32c.Mask (crc32c.Extend (LogWriter.typecrc t) data) := by
      rw [hbuffer, LogWriter.header, List.append_assoc, decodeFixed32_append]
    rw [htake, hdecode, crc32c.unmask_mask, crc32c.Value, ← crc32c.extend_append]
    rfl
  have hzero : ¬ (t.toUInt32 = RecordType.kZeroType.toUInt32 ∧ data.length = 0) := by
    rintro ⟨h, -⟩
    cases t <;> first | exact ht rfl | exact absurd h (by decide)
  have hdrop : r.buffer.drop (kHeaderSize + data.length) = tail := by
    rw [hbuffer, ← List.append_assoc]
    exact List.drop_left' (by simp)
  have hdata : (r.buffer.drop kHeaderSize).take data.length = data := by
    rw [hbuffer]
    show (data ++ tail).take data.length = data
    exact List.take_left' rfl
  simp only [parseRecord, hlength, htype, if_neg hfits, if_neg hzero, hcrc, ne_eq, not_true_eq_false, and_false,
    if_false, hdrop, hinitial, hdata]
  rw [if_neg (by simp)]

/-- A header whose data the file does not hold any more. -/
private theorem parseRecord_torn {r : LogReader} {t : RecordType} {data tail : Slice}
    (hbuffer : r.buffer = LogWriter.header t data ++ tail) (hlen : data.length < 65536)
    (htorn : tail.length < data.length) (heof : r.eof = true) :
    r.parseRecord = ({ r with buffer := [] }, kEof, []) := by
  have hlength : ((r.buffer.getD 4 0).toNat ||| ((r.buffer.getD 5 0).toNat <<< 8)) = data.length := by
    rw [hbuffer]
    exact length_bytes hlen
  have hfits : kHeaderSize + data.length > r.buffer.length := by
    rw [hbuffer]
    simp only [List.length_append, LogWriter.length_header]
    omega
  simp only [parseRecord, hlength, if_pos hfits, heof, if_true]

/-- A buffer that is too short for a header is not looked at. -/
private theorem readPhysicalRecord_short {r : LogReader} {b : Slice} (h : r.buffer.length < kHeaderSize)
    (hb : b.length < kHeaderSize) :
    r.ReadPhysicalRecord = ({ r with buffer := b } : LogReader).ReadPhysicalRecord := by
  simp only [ReadPhysicalRecord, if_neg (Nat.not_le.2 h), if_neg (Nat.not_le.2 hb)]

/-- The block that is read when the buffer runs out. -/
private theorem readPhysicalRecord_nextBlock {F : Slice} {p d : Nat} {r : LogReader} (hat : At F p d r)
    (hd : d < kHeaderSize) (hp : p + d ≤ F.length) :
    ∃ r', At F (p + d) kBlockSize r' ∧ r'.reported = r.reported ∧ r.ReadPhysicalRecord = r'.ReadPhysicalRecord := by
  obtain ⟨haligned, hbound, hbuffer, hfile, heof, hinitial, hresync⟩ := hat
  have heof' : r.eof = false := by
    rw [heof]
    exact decide_eq_false (by omega)
  have hshort : ¬ kHeaderSize ≤ r.buffer.length := by
    rw [hbuffer, List.length_take]
    omega
  have hread : ({ r with buffer := [] } : LogReader).readBlock =
      ({ r with file := ⟨F.drop (p + d + kBlockSize), []⟩, buffer := (F.drop (p + d)).take kBlockSize,
                endofbufferoffset := r.endofbufferoffset +
                  UInt64.ofNat ((F.drop (p + d)).take kBlockSize).length,
                eof := decide (F.length < p + d + kBlockSize) }, true) := by
    simp only [readBlock, hfile, SequentialFile.read, List.headD_nil, Bool.false_eq_true, if_false, List.tail_nil,
      Status.ok_OK, if_true, heof', Bool.false_or, List.drop_drop, List.length_take, List.length_drop]
    refine Prod.ext ?_ rfl
    simp only [LogReader.mk.injEq, true_and, and_true, decide_eq_decide]
    omega
  refine ⟨({ r with buffer := [] } : LogReader).readBlock.1, ?_, ?_, ?_⟩
  · rw [hread]
    exact ⟨by rw [Nat.add_mod_right]; exact haligned, Nat.le_refl _, rfl, rfl, rfl, hinitial, hresync⟩
  · rw [hread]
  · have hmore : ¬ r.eof = true := by simp [heof']
    simp only [ReadPhysicalRecord, if_neg hshort, if_neg hmore, hread, not_true_eq_false, if_false]
    split
    · rfl
    · rename_i hlen
      rw [List.length_take, List.length_drop] at hlen
      have : F.length < p + d + kBlockSize := by
        simp only [kHeaderSize, kBlockSize] at *
        omega
      simp only [this, decide_true, if_true]

/-- In a trailer the reader may as well stand one byte further. -/
private theorem at_trailer {F : Slice} {p d : Nat} {r : LogReader} (hat : At F p d r)
    (hblock : kBlockSize < p % kBlockSize + kHeaderSize) :
    ∃ r', At F (p + 1) (d - 1) r' ∧ r'.reported = r.reported ∧ r.ReadPhysicalRecord = r'.ReadPhysicalRecord := by
  obtain ⟨haligned, hbound, hbuffer, hfile, heof, hinitial, hresync⟩ := hat
  have hd : d < kHeaderSize ∧ 0 < d := by
    simp only [kHeaderSize, kBlockSize] at *
    omega
  have hpd : p + 1 + (d - 1) = p + d := by omega
  refine ⟨{ r with buffer := r.buffer.tail }, ⟨?_, by omega, ?_, ?_, ?_, hinitial, hresync⟩, rfl, ?_⟩
  · rw [hpd]
    exact haligned
  · rw [hbuffer, ← List.drop_drop, ← List.drop_one, List.drop_take]
  · rw [hpd]
    exact hfile
  · rw [hpd]
    exact heof
  · have hlen : r.buffer.length < kHeaderSize := by
      rw [hbuffer, List.length_take]
      omega
    exact readPhysicalRecord_short hlen (by rw [List.length_tail]; omega)

/-- Standing in front of a fragment that fits its block, the reader may as well have read the block. -/
private theorem at_fragment {F : Slice} {p d n : Nat} {r : LogReader} (hat : At F p d r)
    (hfit : p % kBlockSize + (kHeaderSize + n) ≤ kBlockSize) (hp : p ≤ F.length) :
    ∃ r' d', At F p d' r' ∧ kHeaderSize + n ≤ d' ∧ r'.reported = r.reported ∧
      r.ReadPhysicalRecord = r'.ReadPhysicalRecord := by
  have haligned := hat.aligned
  have hbound := hat.bound
  by_cases hd : d = 0
  · subst hd
    obtain ⟨r', hat', hreported, hread⟩ := readPhysicalRecord_nextBlock hat (by decide) hp
    exact ⟨r', kBlockSize, hat', by omega, hreported, hread⟩
  · refine ⟨r, d, hat, ?_, rfl, rfl⟩
    simp only [kHeaderSize, kBlockSize] at *
    omega

/-- The reader stands at the offset `p` of the file `F`, which from there on agrees with `bytes` as far as both go. -/
structure Facing (F : Slice) (p : Nat) (bytes : Slice) (r : LogReader) : Prop where
  stands : ∃ d, At F p d r
  inside : p ≤ F.length
  agree : bytes <+: F.drop p ∨ F.drop p <+: bytes

private theorem agree_append {F a b : Slice} {p : Nat} (h : a ++ b <+: F.drop p ∨ F.drop p <+: a ++ b)
    (hlen : p + a.length ≤ F.length) :
    F.drop p = a ++ F.drop (p + a.length) ∧
      (b <+: F.drop (p + a.length) ∨ F.drop (p + a.length) <+: b) := by
  rw [← List.drop_drop]
  rcases h with ⟨t, ht⟩ | ⟨t, ht⟩
  · rw [← ht, List.append_assoc, List.drop_left]
    exact ⟨rfl, Or.inl ⟨t, rfl⟩⟩
  · have hle : a.length ≤ (F.drop p).length := by
      rw [List.length_drop]
      omega
    rcases List.append_eq_append_iff.1 ht with ⟨s, hs, hb⟩ | ⟨s, hs, hb⟩
    · have hnil : s = [] := by
        rw [hs, List.length_append] at hle
        exact List.length_eq_zero_iff.1 (by omega)
      subst hnil
      rw [List.append_nil] at hs
      rw [← hs, List.drop_length]
      exact ⟨(List.append_nil _).symm, Or.inr ⟨b, rfl⟩⟩
    · rw [hs, List.drop_left]
      exact ⟨rfl, Or.inr ⟨t, hb.symm⟩⟩

private theorem agree_short {F a b : Slice} {p : Nat} (h : a ++ b <+: F.drop p ∨ F.drop p <+: a ++ b)
    (hp : p ≤ F.length) (hlen : F.length < p + a.length) : F.drop p <+: a := by
  rcases h with h | h
  · have := h.length_le
    rw [List.length_append, List.length_drop] at this
    omega
  · exact List.prefix_of_prefix_length_le h (List.prefix_append a b) (by rw [List.length_drop]; omega)

/-- The file ends before the header and the data of the fragment do. -/
private theorem readPhysicalRecord_torn {F data : Slice} {t : RecordType} {p d : Nat} {r : LogReader}
    (hat : At F p d r) (hd : kHeaderSize + data.length ≤ d) (hbound : data.length < 65536)
    (htorn : F.drop p <+: LogWriter.header t data ++ data) (hp : p ≤ F.length)
    (hlen : F.length < p + (kHeaderSize + data.length)) :
    r.ReadPhysicalRecord = ({ r with buffer := [] }, kEof, []) := by
  have heof : r.eof = true := by
    rw [hat.eof]
    exact decide_eq_true (by omega)
  have hbuffer : r.buffer = F.drop p := by
    rw [hat.buffer, List.take_of_length_le]
    rw [List.length_drop]
    omega
  rw [ReadPhysicalRecord]
  split
  · rename_i hheader
    obtain ⟨tail, htail⟩ : LogWriter.header t data <+: F.drop p := by
      refine List.prefix_of_prefix_length_le (List.prefix_append _ data) htorn ?_
      rw [← hbuffer, LogWriter.length_header]
      exact hheader
    refine parseRecord_torn (hbuffer.trans htail.symm) hbound ?_ heof
    have := congrArg List.length htail
    rw [List.length_append, LogWriter.length_header, List.length_drop] at this
    omega
  · rfl

/-- At the end of the file there is nothing to read. -/
theorem readPhysicalRecord_end {F : Slice} {p : Nat} {r : LogReader} (hface : Facing F p [] r) (hp : F.length ≤ p) :
    ∃ r', r.ReadPhysicalRecord = (r', kEof, []) ∧ r'.reported = r.reported := by
  have hempty : ∀ {d r'}, At F p d r' → d ≠ 0 → r'.ReadPhysicalRecord = ({ r' with buffer := [] }, kEof, []) := by
    intro d r' hat hd
    have hbuffer : r'.buffer = [] := by
      rw [hat.buffer, List.drop_of_length_le hp, List.take_nil]
    have heof : r'.eof = true := by
      rw [hat.eof]
      exact decide_eq_true (by omega)
    simp [ReadPhysicalRecord, hbuffer, heof, kHeaderSize]
  obtain ⟨⟨d, hat⟩, hle, -⟩ := hface
  by_cases hd : d = 0
  · subst hd
    obtain ⟨r', hat', hreported, hread⟩ := readPhysicalRecord_nextBlock hat (by decide) hle
    exact ⟨_, hread.trans (hempty hat' (by decide)), hreported⟩
  · exact ⟨_, hempty hat hd, rfl⟩

/-- One physical record of a layout: it is returned if the file holds all of it, else the reader sees the end of the
file. -/
theorem readPhysicalRecord_layout {F rest : Slice} {p : Nat} {t : RecordType} {data : Slice} {fs : List Fragment}
    {bytes : Slice} {r : LogReader} (hlayout : Layout p ((t, data) :: fs) bytes) (ht : t ≠ .kZeroType)
    (hface : Facing F p (bytes ++ rest) r) :
    (∃ r' p' bytes', r.ReadPhysicalRecord = (r', t.toUInt32, data) ∧ r'.reported = r.reported ∧
      Layout p' fs bytes' ∧ Facing F p' (bytes' ++ rest) r' ∧ p' + bytes'.length = p + bytes.length) ∨
    (∃ r', r.ReadPhysicalRecord = (r', kEof, []) ∧ r'.reported = r.reported ∧ F.length < p + bytes.length) := by
  generalize hgs : (t, data) :: fs = gs at hlayout
  induction hlayout generalizing r with
  | nil p => cases hgs
  | @trailer p f fs' bytes b hblock hrest ih =>
    obtain ⟨⟨d, hat⟩, hp, hagree⟩ := hface
    by_cases hend : p = F.length
    · obtain ⟨r', hread, hreported⟩ := readPhysicalRecord_end ⟨⟨d, hat⟩, hp, Or.inl List.nil_prefix⟩ (by omega)
      exact Or.inr ⟨r', hread, hreported, by simp; omega⟩
    · obtain ⟨r₁, hat₁, hreported₁, hread₁⟩ := at_trailer hat hblock
      have hagree₁ := (agree_append (a := [b]) hagree (by simp; omega)).2
      rw [List.length_cons, Nat.add_comm _ 1, ← Nat.add_assoc, hread₁, ← hreported₁]
      exact ih ⟨⟨_, hat₁⟩, by omega, hagree₁⟩ hgs
  | @fragment p fs' bytes t' data' hfit hrest ih =>
    cases hgs
    obtain ⟨⟨d, hat⟩, hp, hagree⟩ := hface
    obtain ⟨r₁, d₁, hat₁, hd₁, hreported₁, hread₁⟩ := at_fragment hat hfit hp
    have hdata : data.length < 65536 := by
      simp only [kBlockSize] at hfit
      omega
    rw [← List.append_assoc, List.append_assoc] at hagree
    have hlen : (LogWriter.header t data ++ data).length = kHeaderSize + data.length := by simp
    rw [hread₁, ← hreported₁]
    by_cases hwhole : p + (kHeaderSize + data.length) ≤ F.length
    · left
      obtain ⟨hfront, hagree'⟩ := agree_append hagree (by omega)
      rw [hlen] at hfront hagree'
      have hbuffer : r₁.buffer = LogWriter.header t data ++
          (data ++ (F.drop (p + (kHeaderSize + data.length))).take (d₁ - (kHeaderSize + data.length))) := by
        rw [hat₁.buffer, hfront, ← List.append_assoc, List.take_append, hlen, List.take_of_length_le (by omega)]
      have hlong : kHeaderSize ≤ r₁.buffer.length := by
        rw [hbuffer, List.length_append, LogWriter.length_header]
        omega
      refine ⟨{ r₁ with buffer :=
        (F.drop (p + (kHeaderSize + data.length))).take (d₁ - (kHeaderSize + data.length)) },
        p + (kHeaderSize + data.length), bytes, ?_, rfl, hrest, ⟨⟨d₁ - (kHeaderSize + data.length), ?_⟩, hwhole,
        hagree'⟩, ?_⟩
      · rw [ReadPhysicalRecord, if_pos hlong]
        exact parseRecord_header hbuffer ht hdata hat₁.initialoffset
      · have hpd : p + (kHeaderSize + data.length) + (d₁ - (kHeaderSize + data.length)) = p + d₁ := by omega
        have hbound := hat₁.bound
        exact ⟨by rw [hpd]; exact hat₁.aligned, by omega, rfl, by rw [hpd]; exact hat₁.file,
          by rw [hpd]; exact hat₁.eof, hat₁.initialoffset, hat₁.resyncing⟩
      · simp only [List.length_append, LogWriter.length_header]
        omega
    · right
      refine ⟨_, readPhysicalRecord_torn hat₁ hd₁ hdata (agree_short hagree hp (by omega)) hp (by omega), rfl, ?_⟩
      simp only [List.length_append, LogWriter.length_header]
      omega

/-! ### Logical records -/

private theorem toUInt32_ne_kEof (t : RecordType) : t.toUInt32 ≠ kEof := by
  cases t <;> decide

private theorem readFragments_eof {r r' : LogReader} {data : Slice} (h : r.ReadPhysicalRecord = (r', kEof, data))
    (infragmentedrecord : Bool) (scratch : Slice) (offset : UInt64) :
    r.readFragments infragmentedrecord scratch offset = (r'.setResyncing false, none) := by
  rw [readFragments]
  simp only [h, if_true]

/-- Two readers that differ in what they reported and in the offset of the last record. -/
private def Alike (r r' : LogReader) : Prop :=
  r'.file = r.file ∧ r'.buffer = r.buffer ∧ r'.eof = r.eof ∧ r'.initialoffset = r.initialoffset ∧
    r'.resyncing = r.resyncing

private theorem facing_alike {F bytes : Slice} {p : Nat} {r r' : LogReader} (h : Alike r r')
    (hface : Facing F p bytes r) : Facing F p bytes r' := by
  obtain ⟨hfile, hbuffer, heof, hinitial, hresync⟩ := h
  obtain ⟨⟨d, hat⟩, hp, hagree⟩ := hface
  exact ⟨⟨d, hat.aligned, hat.bound, hbuffer.trans hat.buffer, hfile.trans hat.file, heof.trans hat.eof,
    hinitial.trans hat.initialoffset, hresync.trans hat.resyncing⟩, hp, hagree⟩

private theorem alike_setResyncing {r : LogReader} (h : r.resyncing = false) : Alike r (r.setResyncing false) :=
  ⟨rfl, rfl, rfl, rfl, h.symm⟩

private theorem alike_reportDrop (r : LogReader) (bytes : Nat) (reason : Status) :
    Alike r (r.ReportDrop bytes reason) := by
  unfold ReportDrop
  split <;> exact ⟨rfl, rfl, rfl, rfl, rfl⟩

private theorem alike_dropUnfinished (r : LogReader) (infragmentedrecord : Bool) (scratch : Slice) (reason : String) :
    Alike r (r.dropUnfinished infragmentedrecord scratch reason) := by
  unfold dropUnfinished
  split
  · exact alike_reportDrop ..
  · exact ⟨rfl, rfl, rfl, rfl, rfl⟩

private theorem Alike.trans {r₁ r₂ r₃ : LogReader} (h : Alike r₁ r₂) (h' : Alike r₂ r₃) : Alike r₁ r₃ := by
  obtain ⟨hfile, hbuffer, heof, hinitial, hresync⟩ := h
  obtain ⟨hfile', hbuffer', heof', hinitial', hresync'⟩ := h'
  exact ⟨hfile'.trans hfile, hbuffer'.trans hbuffer, heof'.trans heof, hinitial'.trans hinitial,
    hresync'.trans hresync⟩

/-- What the loop does with a fragment of a record: it returns the record after its last fragment. -/
private theorem readFragments_fragment {r r' : LogReader} {data : Slice} {«begin» «end» : Bool}
    (h : r.ReadPhysicalRecord = (r', (LogWriter.fragmentType «begin» «end»).toUInt32, data))
    (hresync : r'.resyncing = false) {infragmentedrecord : Bool}
    (hbegin : «begin» = false → infragmentedrecord = true)
    (scratch : Slice) (offset : UInt64) :
    ∃ r'' offset', Alike r' r'' ∧ ((«begin» = true → infragmentedrecord = false) → r''.reported = r'.reported) ∧
      r.readFragments infragmentedrecord scratch offset =
        if «end» then (r'', some ((if «begin» then [] else scratch) ++ data))
        else r''.readFragments true ((if «begin» then [] else scratch) ++ data) offset' := by
  have hset := alike_setResyncing hresync
  have hnot : ¬ (r'.resyncing = true) := by simp [hresync]
  rw [readFragments]
  simp only [h, if_neg (toUInt32_ne_kEof _), hnot]
  cases «begin» <;> cases «end»
  · have hinf := hbegin rfl
    exact ⟨_, _, hset, fun _ => rfl, by rw [hinf]; rfl⟩
  · have hinf := hbegin rfl
    exact ⟨((r'.setResyncing false).returnRecord offset (scratch ++ data)).1, offset, hset, fun _ => rfl,
      by rw [hinf]; rfl⟩
  · refine ⟨_, _, hset.trans (alike_dropUnfinished ..), fun hinf => ?_, rfl⟩
    rw [hinf rfl]
    rfl
  · refine ⟨(((r'.setResyncing false).dropUnfinished infragmentedrecord scratch
      "partial record without end(1)").returnRecord _ data).1, offset, ?_, fun hinf => ?_, rfl⟩
    · obtain ⟨hfile, hbuffer, heof, hinitial, hresync'⟩ :=
        hset.trans (alike_dropUnfinished _ infragmentedrecord scratch
        "partial record without end(1)")
      exact ⟨hfile, hbuffer, heof, hinitial, hresync'⟩
    · rw [hinf rfl]
      rfl

private theorem layout_nil {p : Nat} {bytes : Slice} (h : Layout p [] bytes) : bytes = [] := by
  cases h
  rfl

private theorem fragmentType_ne (b e : Bool) : LogWriter.fragmentType b e ≠ .kZeroType := by
  cases b <;> cases e <;> decide

/-- One pass of the loop of `ReadRecord` over the first of the fragments that the reader faces: the file holds it, or
it ends before. -/
private theorem readFragments_layout {F rest data : Slice} {«begin» «end» : Bool} {fs : List Fragment} {p : Nat}
    {piece : Slice} (hlayout : Layout p ((LogWriter.fragmentType «begin» «end», data) :: fs) piece) {r : LogReader}
    (hface : Facing F p (piece ++ rest) r) {infragmentedrecord : Bool}
    (hbegin : «begin» = false → infragmentedrecord = true) (scratch : Slice) (offset : UInt64) :
    (∃ r' offset' p' bytes', Layout p' fs bytes' ∧ Facing F p' (bytes' ++ rest) r' ∧
      p' + bytes'.length = p + piece.length ∧
      ((«begin» = true → infragmentedrecord = false) → r'.reported = r.reported) ∧
      r.readFragments infragmentedrecord scratch offset =
        if «end» then (r', some ((if «begin» then [] else scratch) ++ data))
        else r'.readFragments true ((if «begin» then [] else scratch) ++ data) offset') ∨
    ∃ r', r.readFragments infragmentedrecord scratch offset = (r', none) ∧ r'.reported = r.reported ∧
      F.length < p + piece.length := by
  rcases readPhysicalRecord_layout hlayout (fragmentType_ne _ _) hface with
    ⟨r₁, p', bytes', hread, hreported, hlayout', hface', hlen⟩ | ⟨r₁, hread, hreported, hlen⟩
  · obtain ⟨⟨d, hat⟩, -, -⟩ := id hface'
    obtain ⟨r₂, offset', halike, hreported', hloop⟩ :=
      readFragments_fragment hread hat.resyncing hbegin scratch offset
    exact Or.inl ⟨r₂, offset', p', bytes', hlayout', facing_alike halike hface', hlen,
      fun h => (hreported' h).trans hreported, hloop⟩
  · exact Or.inr ⟨_, readFragments_eof hread .., hreported, hlen⟩

/-- The loop of `ReadRecord` over the fragments of a record: the record is returned if the file holds all of them, and
the loop ends with nothing if it does not. -/
private theorem readFragments_record {F rest x : Slice} {«begin» : Bool} {fs : List Fragment}
    (hfs : Fragments «begin» x fs) {p : Nat} {piece : Slice} (hlayout : Layout p fs piece) {r : LogReader}
    (hface : Facing F p (piece ++ rest) r) {infragmentedrecord : Bool}
    (hbegin : «begin» = false → infragmentedrecord = true) (scratch : Slice) (offset : UInt64) :
    ∃ r' record, r.readFragments infragmentedrecord scratch offset = (r', record) ∧
      ((«begin» = true → infragmentedrecord = false) → r'.reported = r.reported) ∧
      (record = some ((if «begin» then [] else scratch) ++ x) ∧ Facing F (p + piece.length) rest r' ∨
        record = none ∧ F.length < p + piece.length) := by
  induction hfs generalizing p piece r infragmentedrecord scratch offset with
  | last «begin» data =>
    rcases readFragments_layout hlayout hface hbegin scratch offset with
      ⟨r₁, offset', p', bytes', hlayout', hface', hlen, hreported, hloop⟩ | ⟨r₁, hloop, hreported, hlen⟩
    · obtain rfl := layout_nil hlayout'
      refine ⟨r₁, _, hloop, hreported, Or.inl ⟨rfl, ?_⟩⟩
      rw [← hlen]
      exact hface'
    · exact ⟨r₁, none, hloop, fun _ => hreported, Or.inr ⟨rfl, hlen⟩⟩
  | @more «begin» data rest' fs hfs ih =>
    rcases readFragments_layout hlayout hface hbegin scratch offset with
      ⟨r₁, offset', p', bytes', hlayout', hface', hlen, hreported, hloop⟩ | ⟨r₁, hloop, hreported, hlen⟩
    · obtain ⟨r₂, record, hloop', hreported', hcase⟩ := ih hlayout' hface' (fun _ => rfl)
        ((if «begin» then [] else scratch) ++ data) offset'
      refine ⟨r₂, record, hloop.trans hloop', fun h => (hreported' (by simp)).trans (hreported h), ?_⟩
      rw [hlen] at hcase
      simpa using hcase
    · exact ⟨r₁, none, hloop, fun _ => hreported, Or.inr ⟨rfl, hlen⟩⟩

/-- Fragments of a record that was given up leave the loop in the middle of a record. -/
private theorem readFragments_unfinished {F rest : Slice} {«begin» : Bool} {fs : List Fragment}
    (hfs : Unfinished «begin» fs) {p : Nat} {piece : Slice} (hlayout : Layout p fs piece) {r : LogReader}
    (hface : Facing F p (piece ++ rest) r) {infragmentedrecord : Bool}
    (hbegin : «begin» = false → infragmentedrecord = true) (scratch : Slice) (offset : UInt64) :
    (∃ r' infragmentedrecord' scratch' offset', r.readFragments infragmentedrecord scratch offset =
        r'.readFragments infragmentedrecord' scratch' offset' ∧ Facing F (p + piece.length) rest r') ∨
      (∃ r', r.readFragments infragmentedrecord scratch offset = (r', none) ∧ F.length < p + piece.length) := by
  induction hfs generalizing p piece r infragmentedrecord scratch offset with
  | nil «begin» =>
    obtain rfl := layout_nil hlayout
    exact Or.inl ⟨r, _, _, _, rfl, hface⟩
  | @more «begin» data fs hfs ih =>
    rcases readFragments_layout hlayout hface hbegin scratch offset with
      ⟨r₁, offset', p', bytes', hlayout', hface', hlen, -, hloop⟩ | ⟨r₁, hloop, -, hlen⟩
    · have hrest := ih hlayout' hface' (fun _ => rfl) ((if «begin» then [] else scratch) ++ data) offset'
      rw [hlen] at hrest
      rw [hloop]
      exact hrest
    · exact Or.inr ⟨r₁, hloop, hlen⟩

/-- `readAll` from inside the loop of `ReadRecord`. -/
private def drain (r : LogReader) (infragmentedrecord : Bool) (scratch : Slice) (offset : UInt64) :
    LogReader × List Slice :=
  match r.readFragments infragmentedrecord scratch offset with
  | (r', some x) => (r'.readAll.1, x :: r'.readAll.2)
  | (r', none) => (r', [])

private theorem readAll_eq_drain {r : LogReader} (h : r.initialoffset = 0) : r.readAll = drain r false [] 0 := by
  have hrecord : r.ReadRecord = r.readFragments false [] 0 := by
    rw [ReadRecord, if_neg (by simp [h])]
  rw [readAll, hrecord, drain]
  rcases hloop : r.readFragments false [] 0 with ⟨r', _ | x⟩
  · simp only
  · simp only

private theorem le_of_mem_records {clean : Bool} {p : Nat} {rs : List (Slice × Nat)} {bytes : Slice}
    (h : Records clean p rs bytes) : ∀ e ∈ rs, p ≤ e.2 := by
  induction h with
  | nil p => simp
  | record hlayout hfs hrest ih =>
    intro e he
    rcases List.mem_cons.1 he with rfl | he
    · exact Nat.le_add_right ..
    · exact Nat.le_trans (Nat.le_add_right ..) (ih e he)
  | unfinished hclean hlayout hfs hrest ih => exact fun e he => Nat.le_trans (Nat.le_add_right ..) (ih e he)

/-- A reader in front of the records of a log returns those that the file holds, in order.  If the file ends with the
records or before, it returns nothing else, and no corruption is reported unless a record was left unfinished. -/
private theorem drain_records {F : Slice} {clean : Bool} {p : Nat} {rs : List (Slice × Nat)} {bytes : Slice}
    (h : Records clean p rs bytes) {r : LogReader} (hface : Facing F p bytes r) (infragmentedrecord : Bool)
    (scratch : Slice) (offset : UInt64) :
    ∃ more, (drain r infragmentedrecord scratch offset).2 =
        (rs.filter (fun e => decide (e.2 ≤ F.length))).map (·.1) ++ more ∧
      (F.length ≤ p + bytes.length → more = [] ∧ (clean = true → infragmentedrecord = false →
        (drain r infragmentedrecord scratch offset).1.reported = r.reported)) := by
  induction h generalizing r infragmentedrecord scratch offset with
  | nil p =>
    refine ⟨(drain r infragmentedrecord scratch offset).2, rfl, fun hlen => ?_⟩
    obtain ⟨r', hread, hreported⟩ := readPhysicalRecord_end hface hlen
    rw [drain, readFragments_eof hread]
    exact ⟨rfl, fun _ _ => hreported⟩
  | @record p fs piece x rs bytes hlayout hfs hrest ih =>
    obtain ⟨r', record, hloop, hreported, ⟨rfl, hface'⟩ | ⟨rfl, hlen⟩⟩ :=
      readFragments_record hfs hlayout hface (show true = false → infragmentedrecord = true by simp) scratch offset
    · obtain ⟨⟨d, hat⟩, hinside, -⟩ := id hface'
      obtain ⟨more, hmore, hend⟩ := ih hface' false [] 0
      rw [← readAll_eq_drain hat.initialoffset] at hmore hend
      refine ⟨more, ?_, fun hlen => ?_⟩
      · rw [drain, hloop, List.filter_cons_of_pos (by simpa using hinside)]
        simp [hmore]
      · obtain ⟨hnil, hreported'⟩ := hend (by rw [List.length_append] at hlen; omega)
        refine ⟨hnil, fun hclean hinf => ?_⟩
        rw [drain, hloop]
        exact (hreported' hclean rfl).trans (hreported fun _ => hinf)
    · refine ⟨[], ?_, fun _ => ⟨rfl, fun _ hinf => ?_⟩⟩
      · have hnone : (⟨x, p + piece.length⟩ :: rs).filter (fun e => decide (e.2 ≤ F.length)) = [] := by
          rw [List.filter_eq_nil_iff]
          intro e he
          have : p + piece.length ≤ e.2 := by
            rcases List.mem_cons.1 he with rfl | he
            · exact Nat.le_refl _
            · exact le_of_mem_records hrest e he
          simp
          omega
        rw [drain, hloop, hnone]
        rfl
      · rw [drain, hloop]
        exact hreported fun _ => hinf
  | @unfinished p fs piece rs bytes hclean hlayout hfs hrest ih =>
    rcases readFragments_unfinished hfs hlayout hface (show true = false → infragmentedrecord = true by simp) scratch
      offset with ⟨r', inf', scratch', offset', hloop, hface'⟩ | ⟨r', hloop, hlen⟩
    · obtain ⟨more, hmore, hend⟩ := ih hface' inf' scratch' offset'
      rw [drain, hloop]
      refine ⟨more, hmore, fun hlen => ⟨(hend (by rw [List.length_append] at hlen; omega)).1, fun h => ?_⟩⟩
      simp [hclean] at h
    · refine ⟨[], ?_, fun _ => ⟨rfl, fun h => by simp [hclean] at h⟩⟩
      have hnone : rs.filter (fun e => decide (e.2 ≤ F.length)) = [] := by
        rw [List.filter_eq_nil_iff]
        intro e he
        have := le_of_mem_records hrest e he
        simp
        omega
      rw [drain, hloop, hnone]
      rfl

theorem readAll_records {F : Slice} {clean : Bool} {rs : List (Slice × Nat)} {bytes : Slice}
    (h : Records clean 0 rs bytes) (hagree : bytes <+: F ∨ F <+: bytes) (reporter checksum : Bool) :
    ∃ more, (new ⟨F, []⟩ reporter checksum 0).readAll.2 =
        (rs.filter (fun e => decide (e.2 ≤ F.length))).map (·.1) ++ more ∧
      (F.length ≤ bytes.length →
        more = [] ∧ (clean = true → (new ⟨F, []⟩ reporter checksum 0).readAll.1.reported = [])) := by
  have hface : Facing F 0 bytes (new ⟨F, []⟩ reporter checksum 0) :=
    ⟨⟨0, at_new F reporter checksum⟩, Nat.zero_le _, hagree⟩
  obtain ⟨more, hmore, hend⟩ := drain_records h hface false [] 0
  rw [← readAll_eq_drain rfl] at hmore hend
  refine ⟨more, hmore, fun hlen => ?_⟩
  obtain ⟨hnil, hreported⟩ := hend (by omega)
  exact ⟨hnil, fun hclean => hreported hclean rfl⟩

end LogReader

end RedisDb
