import SwissArmyKnife.RedisDb.BlockStatus
import SwissArmyKnife.RedisDb.Separators
import SwissArmyKnife.RedisDb.Table
import SwissArmyKnife.RedisDb.TableLayout

/-!
# Reading a table that was built

The footer, the index and the data blocks are read back from the places at which they were put, so `Table::Open` opens
what `TableBuilder` has written, and the two-level iterator over the blocks shows the pairs (`Table.open_reads`). 
This needs blocks of less than 2^32 bytes, as offsets in a block have 32 bits.
-/

namespace RedisDb

open Cursor (Place Call Increasing)
open TableBuilder
  (Options DataBlock stored compress trailer handleBytes footerBytes tableBytes dataBytes place cut rawBlock
  rawIndex rawMetaindex blocksOf)

/-! ### Bytes at a place of a file -/

theorem readBytes_append (front bytes back : Slice) {data : Slice} (h : data = front ++ (bytes ++ back)) :
    readBytes data front.length bytes.length = .ok bytes := by
  rw [h, readBytes_of_le (by simp), List.drop_left, List.take_left]

theorem RandomAccessFile.read_mmap {contents : Slice} (front bytes back : Slice)
    (h : contents = front ++ (bytes ++ back)) (hsize : contents.length < 2 ^ 64) :
    (mmap contents).read front.length bytes.length = .ok bytes := by
  have hbytes : (contents.drop front.length).take bytes.length = bytes := by
    rw [h, List.drop_left, List.take_left]
  have hlength : contents.length = front.length + (bytes.length + back.length) := by
    rw [h, List.length_append, List.length_append]
  rw [read, if_neg (by omega), hbytes]

theorem length_encodeVarint64_le {n : ℕ} {v : UInt64} (h : v.toNat < 128 ^ (n + 1)) :
    (EncodeVarint64 v).length ≤ n + 1 := by
  induction n generalizing v with
  | zero =>
    have hlt : ¬ 128 ≤ v := by
      rw [UInt64.le_iff_toNat_le]
      simpa using h
    rw [EncodeVarint64, if_neg hlt]
    rfl
  | succ n ih =>
    rw [EncodeVarint64]
    split
    · have hshift : (v >>> 7).toNat < 128 ^ (n + 1) := by
        rw [UInt64.toNat_shiftRight]
        show v.toNat >>> 7 < _
        rw [Nat.shiftRight_eq_div_pow]
        rw [Nat.pow_succ] at h
        omega
      have := ih hshift
      rw [List.length_cons]
      omega
    · simp

theorem length_encodeVarint64_le_ten (v : UInt64) : (EncodeVarint64 v).length ≤ 10 :=
  length_encodeVarint64_le (by have := v.toNat_lt; omega)

/-! ### Handles and the footer -/

theorem BlockHandle.decodeFrom_append {offset size : ℕ} (hoffset : offset < 2 ^ 64 - 1) (hsize : size < 2 ^ 64 - 1)
    (rest : Slice) : DecodeFrom (EncodeVarint64 (UInt64.ofNat offset) ++ EncodeVarint64 (UInt64.ofNat size) ++ rest) =
      .ok (⟨some offset, some size⟩, rest) := by
  have hfield : ∀ {n : ℕ}, n < 2 ^ 64 - 1 → field (UInt64.ofNat n) = some n := by
    intro n hn
    have htoNat : (UInt64.ofNat n).toNat = n := UInt64.toNat_ofNat_of_lt' (show n < 2 ^ 64 by omega)
    rw [field, htoNat, if_neg (by omega)]
  rw [DecodeFrom, List.append_assoc, (reads_varint64 _).whole]
  simp only [(reads_varint64 _).whole, hfield hoffset, hfield hsize]

/-- The two handles and the padding are followed by the magic number. -/
theorem exists_footerBytes (options : Options) (offset : ℕ) (index : Slice) : ∃ padding : Slice,
    (handleBytes options offset rawMetaindex ++
      handleBytes options (offset + (stored options rawMetaindex).length) index ++ padding).length = 40 ∧
    footerBytes options offset index = (handleBytes options offset rawMetaindex ++
      handleBytes options (offset + (stored options rawMetaindex).length) index ++ padding) ++
      (EncodeFixed32 (kTableMagicNumber &&& 0xffffffff).toUInt32 ++
        EncodeFixed32 (kTableMagicNumber >>> 32).toUInt32) := by
  obtain ⟨handles, hhandles⟩ : ∃ handles, handles = handleBytes options offset rawMetaindex ++
    handleBytes options (offset + (stored options rawMetaindex).length) index := ⟨_, rfl⟩
  have hlength : handles.length ≤ 40 := by
    simp only [hhandles, handleBytes, List.length_append]
    have h₁ := length_encodeVarint64_le_ten (UInt64.ofNat offset)
    have h₂ := length_encodeVarint64_le_ten (UInt64.ofNat (compress options rawMetaindex).1.length)
    have h₃ := length_encodeVarint64_le_ten (UInt64.ofNat (offset + (stored options rawMetaindex).length))
    have h₄ := length_encodeVarint64_le_ten (UInt64.ofNat (compress options index).1.length)
    omega
  rw [← hhandles]
  refine ⟨List.replicate (40 - handles.length) 0, ?_, ?_⟩
  · rw [List.length_append, List.length_replicate]
    omega
  · rw [footerBytes, ← hhandles, List.take_of_length_le hlength]
    simp only [List.append_assoc]

theorem length_footerBytes (options : Options) (offset : ℕ) (index : Slice) :
    (footerBytes options offset index).length = Footer.kEncodedLength := by
  obtain ⟨padding, hlength, heq⟩ := exists_footerBytes options offset index
  rw [heq, List.length_append, hlength]
  rfl

theorem Footer.decodeFrom_footerBytes {options : Options} {offset : ℕ} {index : Slice}
    (hsize : offset + (stored options rawMetaindex).length + (stored options index).length < 2 ^ 64) :
    Footer.DecodeFrom (footerBytes options offset index) = .ok (.ok
      ⟨⟨some offset, some (compress options rawMetaindex).1.length⟩,
        ⟨some (offset + (stored options rawMetaindex).length), some (compress options index).1.length⟩⟩) := by
  rw [TableBuilder.length_stored, TableBuilder.length_stored, kBlockTrailerSize] at hsize
  obtain ⟨padding, hlength, heq⟩ := exists_footerBytes options offset index
  have hlo : readBytes (footerBytes options offset index) 40 4 =
      .ok (EncodeFixed32 (kTableMagicNumber &&& 0xffffffff).toUInt32) := by
    have hread := readBytes_append _ _ _ heq
    rwa [hlength] at hread
  have hhi : readBytes (footerBytes options offset index) 44 4 =
      .ok (EncodeFixed32 (kTableMagicNumber >>> 32).toUInt32) := by
    have hread := readBytes_append _ _ [] (heq.trans ((List.append_assoc ..).symm.trans
      (congrArg _ (List.append_nil _).symm)))
    rwa [List.length_append, hlength] at hread
  have hdecode : ∀ v : UInt32, DecodeFixed32 (EncodeFixed32 v) = v := fun v => by
    simpa using decodeFixed32_append v []
  have hmagic : ((kTableMagicNumber >>> 32).toUInt32).toUInt64 <<< 32 |||
      ((kTableMagicNumber &&& 0xffffffff).toUInt32).toUInt64 = kTableMagicNumber := by decide
  rw [Footer.DecodeFrom]
  show (readBytes _ 40 4 >>= fun _ => _) = _
  rw [hlo, Fault.ok_bind]
  show (readBytes _ 44 4 >>= fun _ => _) = _
  rw [hhi, Fault.ok_bind]
  simp only [hdecode, hmagic, ne_eq, not_true_eq_false, if_false]
  rw [heq, List.append_assoc, List.append_assoc, handleBytes,
    BlockHandle.decodeFrom_append (by omega) (by omega)]
  simp only []
  rw [handleBytes, BlockHandle.decodeFrom_append (by rw [TableBuilder.length_stored, kBlockTrailerSize]; omega)
    (by omega)]
  rfl

/-! ### Blocks -/

section Blocks

variable {options : Options} {Snappy_Uncompress : Slice → Option Slice}
  (hlossless : ∀ raw compressed, options.Snappy_Compress raw = some compressed →
    Snappy_Uncompress compressed = some raw)

theorem checksumMatches_stored (raw : Slice) :
    checksumMatches (stored options raw) (compress options raw).1.length = .ok true := by
  rcases hb : compress options raw with ⟨bytes, type⟩
  have hstored : stored options raw = bytes ++ trailer bytes type := by rw [stored, hb]
  have hcrc : readBytes (stored options raw) (bytes.length + 1) 4 =
      .ok (EncodeFixed32 (crc32c.Mask (crc32c.Extend (crc32c.Value bytes) [type.toUInt8]))) := by
    have := readBytes_append _ _ [] (show stored options raw = (bytes ++ [type.toUInt8]) ++
      (EncodeFixed32 (crc32c.Mask (crc32c.Extend (crc32c.Value bytes) [type.toUInt8])) ++ []) by
        rw [hstored, trailer]; simp)
    rwa [List.length_append] at this
  have hchecked : readBytes (stored options raw) 0 (bytes.length + 1) = .ok (bytes ++ [type.toUInt8]) := by
    have := readBytes_append [] _ _ (show stored options raw = [] ++ ((bytes ++ [type.toUInt8]) ++
      EncodeFixed32 (crc32c.Mask (crc32c.Extend (crc32c.Value bytes) [type.toUInt8]))) by rw [hstored, trailer]; simp)
    rwa [List.length_append] at this
  have hdecode : ∀ v : UInt32, DecodeFixed32 (EncodeFixed32 v) = v := fun v => by
    simpa using decodeFixed32_append v []
  rw [checksumMatches, hcrc, Fault.ok_bind, hchecked, Fault.ok_bind, hdecode, crc32c.unmask_mask, crc32c.Value,
    crc32c.Value, crc32c.extend_append]
  simp
  rfl

omit hlossless in
theorem compress_cases (raw : Slice) : compress options raw = (raw, .kNoCompression) ∨
    ∃ compressed, options.Snappy_Compress raw = some compressed ∧
    compress options raw = (compressed, .kSnappyCompression) := by
  rw [compress]
  cases options.compression with
  | kNoCompression => exact .inl rfl
  | kSnappyCompression =>
    cases hcompress : options.Snappy_Compress raw with
    | none => exact .inl rfl
    | some compressed =>
      by_cases hlength : compressed.length < raw.length - raw.length / 8
      · exact .inr ⟨compressed, rfl, if_pos hlength⟩
      · exact .inl (if_neg hlength)

include hlossless in
theorem blockContents_stored (mapped : Bool) (raw : Slice) : ∃ c,
    blockContents Snappy_Uncompress mapped (stored options raw) (compress options raw).1.length = .ok (.ok c) ∧
      c.data = raw := by
  rcases hb : compress options raw with ⟨bytes, type⟩
  have hstored : stored options raw = bytes ++ trailer bytes type := by rw [stored, hb]
  have htype : readBytes (stored options raw) bytes.length 1 = .ok [type.toUInt8] :=
    readBytes_append _ [type.toUInt8] _ (by rw [hstored, trailer]; rfl)
  have htake : (stored options raw).take bytes.length = bytes := by rw [hstored, List.take_left]
  rw [blockContents, htype, Fault.ok_bind, htake]
  rcases compress_cases raw with h | ⟨compressed, hcompress, h⟩
  · obtain ⟨rfl, rfl⟩ := Prod.mk.inj (hb.symm.trans h)
    exact ⟨_, rfl, rfl⟩
  · obtain ⟨rfl, rfl⟩ := Prod.mk.inj (hb.symm.trans h)
    rw [hlossless raw bytes hcompress]
    exact ⟨_, rfl, rfl⟩

include hlossless in
theorem readBlock_stored {contents : Slice} (hsize : contents.length < 2 ^ 64) (front raw : Slice) {back : Slice}
    (h : contents = front ++ (stored options raw ++ back)) (readOptions : ReadOptions) : ∃ c,
      ReadBlock Snappy_Uncompress (.mmap contents) readOptions
        ⟨some front.length, some (compress options raw).1.length⟩ =
        .ok (.ok c) ∧ c.data = raw := by
  obtain ⟨c, hc, hdata⟩ := blockContents_stored hlossless true raw
  have hlength := TableBuilder.length_stored options raw
  have hread := RandomAccessFile.read_mmap _ _ _ h hsize
  have hle : (stored options raw).length ≤ contents.length := by
    rw [h, List.length_append, List.length_append]
    omega
  have hmod : ((compress options raw).1.length + kBlockTrailerSize) % 2 ^ 64 = (stored options raw).length := by
    rw [← hlength]
    exact Nat.mod_eq_of_lt (by omega)
  refine ⟨c, ?_, hdata⟩
  rw [ReadBlock]
  simp only [BlockHandle.GetSize, BlockHandle.GetOffset, Option.getD_some, hmod, hread, ne_eq,
    not_true_eq_false, if_false]
  cases readOptions.verifychecksums
  · exact hc
  · simp only [if_true, checksumMatches_stored, Fault.ok_bind]
    exact hc

end Blocks

/-! ### The status of the two-level iterator -/

namespace TwoLevelIterator

variable {ι δ κ ν : Type*} {indexIt : Iterator ι κ Slice} {dataIt : Iterator δ κ ν} {callback : Slice → Option δ}
  {t t' : TwoLevelIterator ι δ κ}

theorem s_saveError (t : TwoLevelIterator ι δ κ) (s : Status) : (t.SaveError s).s = t.s := by
  simp [SaveError]

theorem s_setDataIterator (t : TwoLevelIterator ι δ κ) (iter : Option δ) :
    (t.SetDataIterator dataIt iter).s = t.s := by
  rw [SetDataIterator]
  cases t.dataIter.status dataIt with
  | none => rfl
  | some s => exact s_saveError t s

theorem s_moveData {c : Call κ} (h : t.moveData dataIt c = some t') : t'.s = t.s := by
  rw [moveData] at h
  split at h
  · obtain ⟨w, -, rfl⟩ := Option.map_eq_some_iff.1 h
    rfl
  · cases h
    rfl

theorem s_load {c c' : Call κ} (h : t.load indexIt dataIt callback c c' = some t') : t'.s = t.s := by
  obtain ⟨t₂, h, hmove⟩ := Option.bind_eq_some_iff.1 h
  obtain ⟨t₁, hindex, hinit⟩ := Option.bind_eq_some_iff.1 h
  obtain ⟨w, -, rfl⟩ := Option.map_eq_some_iff.1 hindex
  rw [s_moveData hmove]
  rw [InitDataBlock] at hinit
  split at hinit
  · obtain ⟨handle, -, rfl⟩ := Option.map_eq_some_iff.1 hinit
    split
    · rfl
    · exact s_setDataIterator _ _
  · cases hinit
    exact s_setDataIterator _ _

theorem s_skipEmptyDataBlocks {c c' : Call κ} {fuel : ℕ}
    (h : SkipEmptyDataBlocks indexIt dataIt callback c c' fuel t = some t') : t'.s = t.s := by
  induction fuel generalizing t with
  | zero => cases h
  | succ fuel ih =>
    rw [SkipEmptyDataBlocks] at h
    split at h
    · split at h
      · obtain ⟨t₁, hload, hskip⟩ := Option.bind_eq_some_iff.1 h
        rw [ih hskip, s_load hload]
      · cases h
        exact s_setDataIterator _ _
    · cases h
      rfl

theorem s_call {c : Call κ} {fuel : ℕ} (h : (iterator indexIt dataIt callback fuel).call t c = some t') :
    t'.s = t.s := by
  have hload : ∀ {c c' c₁ c₂ : Call κ}, (t.load indexIt dataIt callback c c').bind
      (SkipEmptyDataBlocks indexIt dataIt callback c₁ c₂ fuel) = some t' → t'.s = t.s := by
    intro c c' c₁ c₂ h
    obtain ⟨t₁, hload, hskip⟩ := Option.bind_eq_some_iff.1 h
    rw [s_skipEmptyDataBlocks hskip, s_load hload]
  have hmove : ∀ {c c₁ c₂ : Call κ}, (if t.Valid then (t.moveData dataIt c).bind
      (SkipEmptyDataBlocks indexIt dataIt callback c₁ c₂ fuel) else none) = some t' → t'.s = t.s := by
    intro c c₁ c₂ h
    split at h
    · obtain ⟨t₁, hmove, hskip⟩ := Option.bind_eq_some_iff.1 h
      rw [s_skipEmptyDataBlocks hskip, s_moveData hmove]
    · cases h
  cases c with
  | Seek target => exact hload h
  | SeekToFirst => exact hload h
  | SeekToLast => exact hload h
  | Next => exact hmove h
  | Prev => exact hmove h

theorem s_run {calls : List (Call κ)} {fuel : ℕ} (h : (iterator indexIt dataIt callback fuel).run t calls = some t') :
    t'.s = t.s := by
  induction calls generalizing t with
  | nil =>
    cases h
    rfl
  | cons c calls ih =>
    obtain ⟨t₁, hcall, hrest⟩ := Option.bind_eq_some_iff.1 h
    rw [ih hrest, s_call hcall]

/-- The status is OK when that of the two iterators is. -/
theorem status_eq_ok (hs : t.s = .OK) (hindex : ∀ s ∈ t.indexIter.iter, indexIt.status s = .OK)
    (hdata : ∀ s ∈ t.dataIter.iter, dataIt.status s = .OK) : t.status indexIt dataIt = .OK := by
  rw [status, IteratorWrapper.status, IteratorWrapper.status]
  cases hi : t.indexIter.iter with
  | none =>
    cases hd : t.dataIter.iter with
    | none => exact hs
    | some d => simp [hdata d hd, Option.filter, hs]
  | some i =>
    cases hd : t.dataIter.iter with
    | none => simp [hindex i hi, Option.filter, hs]
    | some d => simp [hindex i hi, hdata d hd, Option.filter, hs]

end TwoLevelIterator

/-! ### Tables that were built -/

/-- The blocks are shorter than 2^32 bytes and the file is shorter than 2^64 bytes. -/
structure TableBuilder.Fits (options : Options) (l : List (Slice × Slice)) : Prop where
  data : ∀ b ∈ blocksOf options l, (rawBlock options b.pairs).length < 2 ^ 32
  index : (rawIndex options (blocksOf options l)).length < 2 ^ 32
  file : (tableBytes options (cut options [] l)).length < 2 ^ 64

section Tables

variable {options : Options} {Snappy_Uncompress : Slice → Option Slice} {l : List (Slice × Slice)}
  {contents : Slice} {fuel : ℕ} (hlawful : options.comparator.Lawful) (hinterval : 1 ≤ options.blockrestartinterval)
  (hlossless : ∀ raw compressed, options.Snappy_Compress raw = some compressed →
    Snappy_Uncompress compressed = some raw)
  (hl : Increasing options.comparator.Compare l) (hfits : TableBuilder.Fits options l)
  (hfile : contents = tableBytes options (cut options [] l)) (hfuel : 2 ^ 32 ≤ fuel)

section Blocks

include hlawful hl

/-- The pairs of the blocks increase, and so do the keys of the index. -/
theorem increasing_blocks : (∀ b ∈ blocksOf options l, Increasing options.comparator.Compare b.pairs) ∧
    Increasing options.comparator.Compare ((blocksOf options l).map (DataBlock.entry options)) := by
  have hflatten : (cut options [] l).flatten = l := TableBuilder.flatten_cut [] l
  constructor
  · intro b hb
    have hmem := List.mem_map_of_mem (f := DataBlock.pairs) hb
    rw [blocksOf, TableBuilder.pairs_place] at hmem
    exact hl.sublist (hflatten ▸ List.sublist_flatten_of_mem hmem)
  · exact TableBuilder.increasing_index hlawful 0 (TableBuilder.ne_nil_of_mem_cut options [] l)
      (by rw [hflatten]; exact hl) (by simp)

end Blocks

include hfits hfile in
theorem length_file_lt : contents.length < 2 ^ 64 := by
  rw [hfile]
  exact hfits.file

include hfits in
/-- Where a data block is in the file. -/
theorem exists_stored {b : DataBlock} (hb : b ∈ blocksOf options l) : ∃ front back,
    tableBytes options (cut options [] l) = front ++ (stored options (rawBlock options b.pairs) ++ back) ∧
      front.length = b.offset ∧ b.offset < 2 ^ 64 - 1 ∧
      (compress options (rawBlock options b.pairs)).1.length < 2 ^ 64 - 1 := by
  obtain ⟨front, back, heq, hoffset⟩ := TableBuilder.exists_of_mem_place hb
  have hlength := hfits.file
  rw [Nat.zero_add] at hoffset
  rw [tableBytes, heq, List.append_assoc, List.append_assoc] at hlength ⊢
  have hstored := TableBuilder.length_stored options (rawBlock options b.pairs)
  rw [kBlockTrailerSize] at hstored
  rw [List.length_append, List.length_append, hstored] at hlength
  exact ⟨front, _, rfl, hoffset, by omega, by omega⟩

/-- The pairs of the block with the handle. -/
def pairsAt (options : Options) (l : List (Slice × Slice)) (handle : Slice) : List (Slice × Slice) :=
  (((blocksOf options l).find? fun b => b.handle options = handle).map DataBlock.pairs).getD []

include hfits in
theorem pairsAt_handle {b : DataBlock} (hb : b ∈ blocksOf options l) :
    pairsAt options l (b.handle options) = b.pairs := by
  have hdecode : ∀ b' ∈ blocksOf options l, BlockHandle.DecodeFrom (b'.handle options) =
      .ok (⟨some b'.offset, some (compress options (rawBlock options b'.pairs)).1.length⟩, []) := by
    intro b' hb'
    obtain ⟨-, -, -, -, hoffset, hsize⟩ := exists_stored hfits hb'
    have hdecode := BlockHandle.decodeFrom_append hoffset hsize []
    rwa [List.append_nil] at hdecode
  have hfind : (blocksOf options l).find? (fun b' => b'.handle options = b.handle options) = some b := by
    obtain ⟨b', hb'⟩ : ∃ b', (blocksOf options l).find? (fun b' => b'.handle options = b.handle options) = some b' :=
      Option.isSome_iff_exists.1 (List.find?_isSome.2 ⟨b, hb, by simp⟩)
    have hhandle : b'.handle options = b.handle options := by simpa using List.find?_some hb'
    have hmem := List.mem_of_find?_eq_some hb'
    have hoffset : b'.offset = b.offset := by
      have heq := hdecode b' hmem
      rw [hhandle, hdecode b hb] at heq
      simp only [Except.ok.injEq, Prod.mk.injEq, BlockHandle.mk.injEq, Option.some.injEq] at heq
      exact heq.1.1.symm
    have hpairwise := TableBuilder.pairwise_offset options none 0 (cut options [] l)
    have hinjective :
        ∀ ⦃b⦄, b ∈ blocksOf options l → ∀ ⦃b'⦄, b' ∈ blocksOf options l → b.offset = b'.offset → b = b' :=
      List.Pairwise.forall_of_forall_of_flip (fun _ _ _ => rfl)
        (hpairwise.imp fun hlt heq => absurd heq (Nat.ne_of_lt hlt))
        (hpairwise.imp fun hlt heq => absurd heq (Nat.ne_of_gt hlt))
    rw [hb', hinjective hmem hb hoffset]
  rw [pairsAt, hfind]
  rfl

include hlossless hfits hfile

theorem blockReader_handle {t : Encoded.Table} (hsnappy : t.Snappy_Uncompress = Snappy_Uncompress)
    (ht : t.file = .mmap contents)
    (readOptions : ReadOptions) {b : DataBlock} (hb : b ∈ blocksOf options l) {block : Block} {start : Block.Iter}
    (hblock : Block.new (rawBlock options b.pairs) = .ok block) (hstart : block.NewIterator = .ok start) :
    t.BlockReader readOptions (b.handle options) = .ok start := by
  obtain ⟨front, back, heq, hfront, hoffset, hsize⟩ := exists_stored hfits hb
  have hdecode := BlockHandle.decodeFrom_append hoffset hsize []
  rw [List.append_nil] at hdecode
  obtain ⟨c, hread, hdata⟩ :=
    readBlock_stored hlossless (length_file_lt hfits hfile) _ _ (hfile.trans heq) readOptions
  rw [hfront] at hread
  rw [Encoded.Table.BlockReader, DataBlock.handle, handleBytes, hdecode, hsnappy, ht]
  simp only [hread, Fault.ok_bind, hdata, hblock, hstart]

theorem open_tableBytes {block : Block} (hblock : Block.new (rawIndex options (blocksOf options l)) = .ok block)
    (paranoidchecks : Bool) : ∃ metaindexhandle,
      Encoded.Table.Open options.comparator Snappy_Uncompress paranoidchecks (.mmap contents) contents.length =
        .ok (.ok ⟨options.comparator, Snappy_Uncompress, .mmap contents, metaindexhandle, block⟩) := by
  obtain ⟨data, hdata⟩ : ∃ data, data = dataBytes options (cut options [] l) := ⟨_, rfl⟩
  obtain ⟨index, hindex⟩ : ∃ index, index = rawIndex options (blocksOf options l) := ⟨_, rfl⟩
  have hbytes : contents = data ++ (stored options rawMetaindex ++ (stored options index ++
      footerBytes options data.length index)) := by
    rw [hfile, tableBytes, ← hdata, hindex, blocksOf]
  have hlt := length_file_lt hfits hfile
  have hlength := congrArg List.length hbytes
  simp only [List.length_append, length_footerBytes] at hlength
  have hkEncodedLength : Footer.kEncodedLength = 48 := rfl
  have hfooter : (RandomAccessFile.mmap contents).read
      (contents.length - Footer.kEncodedLength) Footer.kEncodedLength =
      .ok (footerBytes options data.length index) := by
    have hread := RandomAccessFile.read_mmap (data ++ (stored options rawMetaindex ++ stored options index))
      (footerBytes options data.length index) [] (by rw [hbytes]; simp) hlt
    rw [length_footerBytes] at hread
    rw [← hread]
    congr 1
    simp only [List.length_append]
    omega
  obtain ⟨c, hread, hc⟩ := readBlock_stored hlossless hlt (data ++ stored options rawMetaindex) index
    (by rw [hbytes, List.append_assoc])
    (if paranoidchecks then { ReadOptions.default with verifychecksums := true } else .default)
  rw [List.length_append] at hread
  refine ⟨⟨some data.length, some (compress options rawMetaindex).1.length⟩, ?_⟩
  rw [Encoded.Table.Open, if_neg (by omega), hfooter]
  simp only [Footer.decodeFrom_footerBytes (show data.length + (stored options rawMetaindex).length +
    (stored options index).length < 2 ^ 64 by omega), Fault.ok_bind, hread, hc]
  rw [hindex, hblock]
  rfl

include hlawful hinterval hl hfuel

/-- The index of the table leads to its data blocks. -/
theorem indexes_table {t : Encoded.Table} (hcomparator : t.comparator = options.comparator)
    (hsnappy : t.Snappy_Uncompress = Snappy_Uncompress) (ht : t.file = .mmap contents) (readOptions : ReadOptions) :
    TwoLevelIterator.Indexes (t.blockIterator fuel) (t.blockIterator fuel)
      (fun indexvalue => (t.BlockReader readOptions indexvalue).toOption) options.comparator.Compare
      ((blocksOf options l).map (DataBlock.entry options)) (pairsAt options l)
      (Block.Iter.Reads fuel ((blocksOf options l).map (DataBlock.entry options)))
      fun handle => Block.Iter.Reads fuel (pairsAt options l handle) := by
  have := hlawful.trans
  have hflatten : (cut options [] l).flatten = l := TableBuilder.flatten_cut [] l
  obtain ⟨hblocks, hindex⟩ := increasing_blocks hlawful hl
  obtain ⟨hown, hbelow, -⟩ := TableBuilder.place_separates hlawful none 0
    (TableBuilder.ne_nil_of_mem_cut options [] l) (by rw [hflatten]; exact hl) (by simp)
  constructor
  · rw [Encoded.Table.blockIterator, hcomparator]
    exact Block.Iter.reads_shows hindex
  · intro e he
    obtain ⟨b, hb, rfl⟩ := List.mem_map.1 he
    rw [Encoded.Table.blockIterator, hcomparator]
    show Iterator.Shows _ _ (pairsAt options l (b.handle options))
        (Block.Iter.Reads fuel (pairsAt options l (b.handle options)))
    rw [pairsAt_handle hfits hb]
    exact Block.Iter.reads_shows (hblocks b hb)
  · intro e he
    obtain ⟨b, hb, rfl⟩ := List.mem_map.1 he
    obtain ⟨block, start, hblock, hstart, hreads⟩ :=
      Block.Iter.exists_reads hinterval (hblocks b hb) rfl (hfits.data b hb) hfuel
    refine ⟨start, ?_, none, ?_⟩
    · show (t.BlockReader readOptions (b.handle options)).toOption = some start
      rw [blockReader_handle hlossless hfits hfile hsnappy ht readOptions hb hblock hstart]
      rfl
    · show Block.Iter.Reads fuel (pairsAt options l (b.handle options)) start none
      rw [pairsAt_handle hfits hb]
      exact hreads
  · intro e he a ha
    obtain ⟨b, hb, rfl⟩ := List.mem_map.1 he
    have ha : a ∈ pairsAt options l (b.handle options) := ha
    rw [pairsAt_handle hfits hb] at ha
    exact hown b hb a ha
  · refine List.pairwise_map.2 (hbelow.imp_of_mem fun {b b'} _ hb' hlt a ha => ?_)
    have ha : a ∈ pairsAt options l (b'.handle options) := ha
    rw [pairsAt_handle hfits hb'] at ha
    exact hlt a ha

omit hfuel hinterval hlawful hlossless hfile hl in
theorem concatenation_blocks : TwoLevelIterator.concatenation ((blocksOf options l).map (DataBlock.entry options))
    (pairsAt options l) = l := by
  have hflatten : (cut options [] l).flatten = l := TableBuilder.flatten_cut [] l
  have hpairs : (blocksOf options l).map DataBlock.pairs = cut options [] l := TableBuilder.pairs_place ..
  have hmap : (blocksOf options l).map (fun b => pairsAt options l (b.entry options).2) =
      (blocksOf options l).map DataBlock.pairs := List.map_congr_left fun b hb => pairsAt_handle hfits hb
  rw [TwoLevelIterator.concatenation, List.flatMap_map, List.flatMap_def, hmap, hpairs, hflatten]

omit hinterval in
/-- The table is opened, and its index is over the entries of its blocks. -/
theorem exists_table (paranoidchecks : Bool) : ∃ table index,
    Encoded.Table.Open options.comparator Snappy_Uncompress paranoidchecks (.mmap contents) contents.length =
      .ok (.ok table) ∧
      table.comparator = options.comparator ∧ table.Snappy_Uncompress = Snappy_Uncompress ∧
      table.file = .mmap contents ∧
      table.indexblock.NewIterator = .ok index ∧
      Block.Iter.Reads fuel ((blocksOf options l).map (DataBlock.entry options)) index none := by
  have := hlawful.trans
  obtain ⟨-, hindex⟩ := increasing_blocks hlawful hl
  obtain ⟨block, index, hblock, hstart, hreads⟩ :=
    Block.Iter.exists_reads (Nat.le_refl 1) hindex rfl hfits.index hfuel
  obtain ⟨metaindexhandle, hopen⟩ := open_tableBytes hlossless hfits hfile hblock paranoidchecks
  exact ⟨_, index, hopen, rfl, rfl, rfl, hstart, hreads⟩

theorem run_iterator {table : Encoded.Table} (hcomparator : table.comparator = options.comparator)
    (hsnappy : table.Snappy_Uncompress = Snappy_Uncompress) (ht : table.file = .mmap contents) {index : Block.Iter}
    (hindex : Block.Iter.Reads fuel ((blocksOf options l).map (DataBlock.entry options)) index none)
    (readOptions : ReadOptions) {calls : List (Call Slice)} {p : Option (Place (Slice × Slice))}
    (hrun : Cursor.run options.comparator.Compare l none calls = some p) :
    ∃ s, (table.iterator readOptions fuel).run (.new (table.blockIterator fuel) index) calls = some s ∧
      (table.iterator readOptions fuel).Looks s p ∧ (table.iterator readOptions fuel).status s = .OK := by
  have := hlawful.trans
  have hindexes := indexes_table hlawful hinterval hlossless hl hfits hfile hfuel hcomparator hsnappy ht readOptions
  have hlength : ((blocksOf options l).map (DataBlock.entry options)).length < fuel := by
    obtain ⟨-, pieces, -, -, -, hpieces, -, heq, -⟩ := hindex
    rwa [← heq, List.length_map]
  have hshows := TwoLevelIterator.iterator_shows hindexes hlength
  rw [concatenation_blocks hfits] at hshows
  have hnew : TwoLevelIterator.Stands ((blocksOf options l).map (DataBlock.entry options)) (pairsAt options l)
      (Block.Iter.Reads fuel ((blocksOf options l).map (DataBlock.entry options)))
      (fun handle => Block.Iter.Reads fuel (pairsAt options l handle))
      (.new (table.blockIterator fuel) index : TwoLevelIterator Block.Iter Block.Iter Slice) none :=
    ⟨rfl, rfl, none, IteratorWrapper.at_update hindexes.indexShows _ hindex, by simp⟩
  obtain ⟨s, hs, hstands⟩ := hshows.run hnew hrun
  refine ⟨s, hs, hshows.looks hstands, TwoLevelIterator.status_eq_ok (TwoLevelIterator.s_run hs) ?_ ?_⟩
  · intro i hi
    obtain ⟨q, hat⟩ : ∃ q, IteratorWrapper.At
        (Block.Iter.Reads fuel ((blocksOf options l).map (DataBlock.entry options))) s.indexIter q := by
      cases p with
      | none =>
        obtain ⟨-, -, q, hat, -⟩ := hstands
        exact ⟨q, hat⟩
      | some P =>
        obtain ⟨q, Q, hloaded, -⟩ := hstands
        exact ⟨some q, hloaded.1⟩
    obtain ⟨i', hi', hreads⟩ := hat.iter
    obtain rfl := Option.some.inj (hi'.symm.trans hi)
    exact hreads.1
  · intro d hd
    cases p with
    | none =>
      rw [hstands.1] at hd
      cases hd
    | some P =>
      obtain ⟨q, Q, hloaded, -⟩ := hstands
      obtain ⟨d', hd', hreads⟩ := hloaded.2.2.2.1.iter
      obtain rfl := Option.some.inj (hd'.symm.trans hd)
      exact hreads.1

end Tables

end RedisDb
