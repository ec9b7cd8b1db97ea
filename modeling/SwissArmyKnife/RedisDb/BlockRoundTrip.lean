import SwissArmyKnife.RedisDb.BlockBuilder
import SwissArmyKnife.RedisDb.BlockSafe

/-!
# Reading a block that was built

The iterator over a block of a `BlockBuilder` is a cursor over the pairs that were added (`run_blockIterator`), as
long as the block is shorter than 2^32 bytes: the offsets and the lengths in a block have 32 bits.
-/

namespace RedisDb

open Cursor (Call Place Increasing)

/-! ### An entry -/

/-- The fast path reads the same as three varints. -/
private theorem decodeLengths_eq (b₀ b₁ b₂ : UInt8) (rest : Slice) :
    decodeLengths (b₀ :: b₁ :: b₂ :: rest) = (do
      let (shared, input) ← GetVarint32 (b₀ :: b₁ :: b₂ :: rest)
      let (nonShared, input) ← GetVarint32 input
      let (valueLength, input) ← GetVarint32 input
      return (shared, nonShared, valueLength, input)) := by
  rw [decodeLengths]
  split
  · rename_i h
    have h : b₀.toNat ||| b₁.toNat ||| b₂.toNat < 128 := by
      have hlt : (b₀.toUInt32 ||| b₁.toUInt32 ||| b₂.toUInt32).toNat < 128 := h
      rwa [UInt32.toNat_or, UInt32.toNat_or, UInt8.toNat_toUInt32, UInt8.toNat_toUInt32, UInt8.toNat_toUInt32] at hlt
    have h₀₁ : b₀.toNat ||| b₁.toNat < 128 := Nat.lt_of_le_of_lt Nat.left_le_or h
    have h₀ := and_128_eq_zero (Nat.lt_of_le_of_lt Nat.left_le_or h₀₁)
    have h₁ := and_128_eq_zero (Nat.lt_of_le_of_lt Nat.right_le_or h₀₁)
    have h₂ := and_128_eq_zero (Nat.lt_of_le_of_lt Nat.right_le_or h)
    simp [GetVarint32, h₀, h₁, h₂]
  · rfl

theorem decodeLengths_append (shared nonShared valueLength : UInt32) (rest : Slice) :
    decodeLengths (EncodeVarint32 shared ++ (EncodeVarint32 nonShared ++ (EncodeVarint32 valueLength ++ rest))) =
      some (shared, nonShared, valueLength, rest) := by
  have hslow : (do
      let (shared, input) ← GetVarint32
        (EncodeVarint32 shared ++ (EncodeVarint32 nonShared ++ (EncodeVarint32 valueLength ++ rest)))
      let (nonShared, input) ← GetVarint32 input
      let (valueLength, input) ← GetVarint32 input
      return (shared, nonShared, valueLength, input)) = some (shared, nonShared, valueLength, rest) := by
    simp [getVarint32_append]
  have hlength : 3 ≤
      (EncodeVarint32 shared ++ (EncodeVarint32 nonShared ++ (EncodeVarint32 valueLength ++ rest))).length := by
    have h₀ := List.length_pos_iff.2 (encodeVarint32_ne_nil shared)
    have h₁ := List.length_pos_iff.2 (encodeVarint32_ne_nil nonShared)
    have h₂ := List.length_pos_iff.2 (encodeVarint32_ne_nil valueLength)
    simp only [List.length_append]
    omega
  generalize EncodeVarint32 shared ++ (EncodeVarint32 nonShared ++ (EncodeVarint32 valueLength ++ rest)) = input
    at hslow hlength
  match input with
  | [] | [_] | [_, _] => simp at hlength
  | b₀ :: b₁ :: b₂ :: rest => rw [decodeLengths_eq, hslow]

namespace BlockBuilder

/-- An entry is decoded from the bytes up to the restart array. -/
theorem decodeEntryBytes_encodeEntry {shared : ℕ} {key value rest : Slice}
    (hsize : (encodeEntry shared key value ++ rest).length < 2 ^ 32) (limit : ℕ) :
    decodeEntryBytes (encodeEntry shared key value ++ rest) limit =
      some ⟨UInt32.ofNat shared, UInt32.ofNat (key.length - shared), UInt32.ofNat value.length,
        limit - (key.drop shared ++ (value ++ rest)).length⟩ := by
  have hlength : (key.drop shared ++ (value ++ rest)).length < 2 ^ 32 := by
    simp only [encodeEntry, List.length_append] at hsize
    simp only [List.length_append]
    omega
  rw [decodeEntryBytes, encodeEntry]
  simp only [List.append_assoc, decodeLengths_append]
  rw [if_neg]
  rw [UInt32.lt_iff_toNat_lt, UInt32.toNat_add, toNat_ofNat_of_lt hlength]
  simp only [List.length_append, List.length_drop] at hlength ⊢
  rw [toNat_ofNat_of_lt (show key.length - shared < 2 ^ 32 by omega),
    toNat_ofNat_of_lt (show value.length < 2 ^ 32 by omega)]
  omega

/-! ### The contents of a block -/

/-- The entries, the restart array and the number of the restart points. -/
def contents (pieces : List Piece) (points : List ℕ) : Slice :=
  entriesBytes pieces ++ ((points.map fun r => EncodeFixed32 (UInt32.ofNat (offset pieces r))).flatten ++
    EncodeFixed32 (UInt32.ofNat points.length))

theorem Built.finish {interval : ℕ} {b : BlockBuilder} {pieces : List Piece} {points : List ℕ}
    (h : Built interval b pieces points) : b.Finish.2 = contents pieces points := by
  simp [Finish, h.buffer, h.restarts, contents, Function.comp_def]

private theorem length_restarts (l : List UInt32) : (l.map EncodeFixed32).flatten.length = 4 * l.length := by
  induction l with
  | nil => rfl
  | cons r l ih =>
    simp only [List.map_cons, List.flatten_cons, List.length_append, length_encodeFixed32, ih, List.length_cons]
    omega

private theorem drop_restarts {l : List UInt32} {j : ℕ} {r : UInt32} (h : l[j]? = some r) :
    (l.map EncodeFixed32).flatten.drop (j * 4) = EncodeFixed32 r ++ ((l.drop (j + 1)).map EncodeFixed32).flatten := by
  obtain ⟨hj, rfl⟩ := List.getElem?_eq_some_iff.1 h
  have hsplit : l = l.take j ++ l[j] :: l.drop (j + 1) := by
    rw [← List.drop_eq_getElem_cons hj, List.take_append_drop]
  have htake : ((l.take j).map EncodeFixed32).flatten.length = j * 4 := by
    rw [length_restarts, List.length_take]
    omega
  conv => lhs; rw [hsplit, List.map_append, List.flatten_append, List.drop_left' htake]
  rfl

variable {pieces : List Piece} {points : List ℕ}

theorem length_contents (pieces : List Piece) (points : List ℕ) :
    (contents pieces points).length = (entriesBytes pieces).length + 4 * points.length + 4 := by
  have hlength := length_restarts (points.map fun r => UInt32.ofNat (offset pieces r))
  rw [List.map_map, List.length_map] at hlength
  simp only [contents, List.length_append, length_encodeFixed32]
  simp only [Function.comp_def] at hlength
  omega

/-- The iterator before its first call. -/
def view (pieces : List Piece) (points : List ℕ) : BlockIterator :=
  .new (contents pieces points) (entriesBytes pieces).length points.length

theorem offset_le (pieces : List Piece) (i : ℕ) : offset pieces i ≤ (entriesBytes pieces).length := by
  have hsplit := congrArg List.length (entriesBytes_append (pieces.take i) (pieces.drop i))
  rw [List.take_append_drop, List.length_append] at hsplit
  rw [offset]
  omega

theorem readFixed32_contents (hsize : (contents pieces points).length < 2 ^ 32) {j r : ℕ} (hr : points[j]? = some r) :
    readFixed32 (contents pieces points) ((entriesBytes pieces).length + j * 4) = .ok (offset pieces r) := by
  obtain ⟨hj, -⟩ := List.getElem?_eq_some_iff.1 hr
  have hlength := length_contents pieces points
  have hoffset := offset_le pieces r
  rw [readFixed32, readBytes_of_le (by omega)]
  have hdrop := drop_restarts (l := points.map fun r => UInt32.ofNat (offset pieces r)) (j := j)
    (r := UInt32.ofNat (offset pieces r)) (by rw [List.getElem?_map, hr]; rfl)
  rw [List.map_map] at hdrop
  have hbytes : ((contents pieces points).drop ((entriesBytes pieces).length + j * 4)).take 4 =
      EncodeFixed32 (UInt32.ofNat (offset pieces r)) ++ [] := by
    have hlen : j * 4 ≤ (points.map fun r => EncodeFixed32 (UInt32.ofNat (offset pieces r))).flatten.length := by
      have hlen := length_restarts (points.map fun r => UInt32.ofNat (offset pieces r))
      rw [List.map_map, List.length_map] at hlen
      simp only [Function.comp_def] at hlen
      omega
    rw [contents, ← List.drop_drop, List.drop_left, List.drop_append_of_le_length hlen]
    simp only [Function.comp_def] at hdrop
    rw [hdrop, List.append_assoc]
    rfl
  rw [hbytes, Fault.ok_bind, decodeFixed32_append]
  exact congrArg _ (toNat_ofNat_of_lt (by omega))

/-- The block is read by an iterator. -/
theorem iterator_contents (h : Layout pieces points) (hsize : (contents pieces points).length < 2 ^ 32) :
    Block.new (contents pieces points) >>= Block.NewIterator = .ok (.Entries (view pieces points)) := by
  have hlength := length_contents pieces points
  have hpos : points ≠ [] := by
    rintro rfl
    cases h.head
  have hnum := List.length_pos_iff.2 hpos
  have hread : Block.numrestarts (contents pieces points) (contents pieces points).length = .ok points.length := by
    rw [Block.numrestarts, if_pos (by omega), readFixed32, readBytes_of_le (by omega)]
    have hdrop : (contents pieces points).drop ((contents pieces points).length - 4) =
        EncodeFixed32 (UInt32.ofNat points.length) := by
      rw [contents, ← List.append_assoc, List.drop_left']
      simp only [List.length_append, length_encodeFixed32, Nat.add_sub_cancel]
    have htake : (EncodeFixed32 (UInt32.ofNat points.length)).take 4 =
        EncodeFixed32 (UInt32.ofNat points.length) ++ [] := rfl
    rw [hdrop, htake, Fault.ok_bind, decodeFixed32_append]
    exact congrArg _ (toNat_ofNat_of_lt (by omega))
  have hoffset : ((contents pieces points).length - (1 + points.length) % 2 ^ 32 * 4) % 2 ^ 32 =
      (entriesBytes pieces).length := by omega
  rw [Block.new, if_neg (by omega), hread]
  simp only [Fault.ok_bind]
  rw [if_neg (by omega), hoffset]
  show Block.NewIterator _ = _
  rw [Block.NewIterator, if_neg (show ¬ (contents pieces points).length < 4 by omega), hread, Fault.ok_bind,
    if_neg (by omega)]
  rfl

theorem offset_succ {i : ℕ} {p : Piece} (hp : pieces[i]? = some p) :
    offset pieces (i + 1) = offset pieces i + p.bytes.length := by
  obtain ⟨hi, rfl⟩ := List.getElem?_eq_some_iff.1 hp
  rw [offset, List.take_succ_eq_append_getElem hi, entriesBytes_append, List.length_append, offset]
  simp [entriesBytes]

theorem shared_zero (h : Layout pieces points) {p : Piece} (hp : pieces[0]? = some p) : p.shared = 0 :=
  h.restart 0 (List.mem_of_head? h.head) p hp

/-- What is shared has been written before. -/
theorem length_key_le (h : Layout pieces points) {i : ℕ} {p : Piece} (hp : pieces[i]? = some p) :
    p.shared ≤ p.key.length ∧ p.key.length ≤ offset pieces (i + 1) := by
  have hbytes : ∀ p : Piece, p.key.length - p.shared ≤ p.bytes.length := by
    intro p
    simp only [Piece.bytes, encodeEntry, List.length_append, List.length_drop]
    omega
  induction i generalizing p with
  | zero =>
    have hzero := shared_zero h hp
    have := hbytes p
    rw [offset_succ hp]
    omega
  | succ i ih =>
    obtain ⟨hi, -⟩ := List.getElem?_eq_some_iff.1 hp
    have hq := List.getElem?_eq_getElem (l := pieces) (i := i) (by omega)
    have hfollows := h.follows i _ p hq hp
    have hlast := (ih hq).2
    have := hbytes p
    rw [offset_succ hp]
    exact ⟨hfollows.2.1, by have := hfollows.1; omega⟩

/-- The bytes around an entry: the entries in front of it, its lengths, the entries behind it, and what follows
them. -/
structure Around (pieces : List Piece) (points : List ℕ) (i : ℕ) (p : Piece)
    (front head back tail : Slice) : Prop where
  bytes : p.bytes = head ++ (p.key.drop p.shared ++ p.value)
  entries : entriesBytes pieces = front ++ (p.bytes ++ back)
  contents : contents pieces points = front ++ (p.bytes ++ (back ++ tail))
  offset : offset pieces i = front.length
  header : 3 ≤ head.length

theorem exists_around (points : List ℕ) {i : ℕ} {p : Piece} (hp : pieces[i]? = some p) :
    ∃ front head back tail, Around pieces points i p front head back tail := by
  obtain ⟨hi, hpi⟩ := List.getElem?_eq_some_iff.1 hp
  have hentries : entriesBytes pieces =
      entriesBytes (pieces.take i) ++ (p.bytes ++ entriesBytes (pieces.drop (i + 1))) := by
    conv => lhs; rw [← List.take_append_drop i pieces, List.drop_eq_getElem_cons hi, hpi]
    rw [entriesBytes_append]
    rfl
  refine ⟨entriesBytes (pieces.take i), EncodeVarint32 (UInt32.ofNat p.shared) ++
    (EncodeVarint32 (UInt32.ofNat (p.key.length - p.shared)) ++ EncodeVarint32 (UInt32.ofNat p.value.length)),
    entriesBytes (pieces.drop (i + 1)),
      (points.map fun r => EncodeFixed32 (UInt32.ofNat (offset pieces r))).flatten ++
    EncodeFixed32 (UInt32.ofNat points.length), ?_, hentries, ?_, rfl, ?_⟩
  · simp only [Piece.bytes, encodeEntry, List.append_assoc]
  · rw [contents, hentries]
    simp only [List.append_assoc]
  · have h₀ := List.length_pos_iff.2 (encodeVarint32_ne_nil (UInt32.ofNat p.shared))
    have h₁ := List.length_pos_iff.2 (encodeVarint32_ne_nil (UInt32.ofNat (p.key.length - p.shared)))
    have h₂ := List.length_pos_iff.2 (encodeVarint32_ne_nil (UInt32.ofNat p.value.length))
    simp only [List.length_append]
    omega

namespace Around

variable {i : ℕ} {p : Piece} {front head back tail : Slice}

/-- What is decoded at the offset of the entry. -/
theorem input (h : Around pieces points i p front head back tail) :
    ((BlockBuilder.contents pieces points).drop (BlockBuilder.offset pieces i)).take
      ((entriesBytes pieces).length - BlockBuilder.offset pieces i) = p.bytes ++ back := by
  have hassoc : p.bytes ++ (back ++ tail) = (p.bytes ++ back) ++ tail := (List.append_assoc ..).symm
  rw [h.contents, h.offset, List.drop_left, hassoc, List.take_left']
  rw [h.entries]
  simp only [List.length_append]
  omega

/-- The key delta and the value behind the lengths. -/
theorem drop_contents (h : Around pieces points i p front head back tail) :
    (BlockBuilder.contents pieces points).drop (front.length + head.length) =
      p.key.drop p.shared ++ (p.value ++ (back ++ tail)) := by
  rw [h.contents, h.bytes, List.append_assoc, List.append_assoc, ← List.drop_drop, List.drop_left, List.drop_left]

end Around

/-- An entry of the block. -/
theorem entryAt_offset (h : Layout pieces points) (hsize : (contents pieces points).length < 2 ^ 32) {i : ℕ}
    {p : Piece}
    (hp : pieces[i]? = some p) : ∃ e, (view pieces points).entryAt (offset pieces i) = some e ∧
      e.shared.toNat = p.shared ∧ (view pieces points).delta e = p.key.drop p.shared ∧
      e.valueLength.toNat = p.value.length ∧ e.stop = offset pieces (i + 1) ∧
      ((contents pieces points).drop e.value).take p.value.length = p.value := by
  obtain ⟨hshared, hkey⟩ := length_key_le h hp
  have hlength := length_contents pieces points
  have hnext := offset_le pieces (i + 1)
  have hsucc := offset_succ hp
  obtain ⟨front, head, back, tail, ha⟩ := exists_around points hp
  have hheader := ha.header
  have hoffset := ha.offset
  have hbytes := congrArg List.length ha.bytes
  have hentries := congrArg List.length ha.entries
  simp only [List.length_append, List.length_drop] at hbytes hentries
  have hinput : ((contents pieces points).drop (offset pieces i)).take
      ((entriesBytes pieces).length - offset pieces i) =
      encodeEntry p.shared p.key p.value ++ back := ha.input
  have hdecode := decodeEntryBytes_encodeEntry (show (encodeEntry p.shared p.key p.value ++ back).length < 2 ^ 32 by
    rw [← hinput]; simp only [List.length_take, List.length_drop]; omega) (entriesBytes pieces).length
  have hbehind : (entriesBytes pieces).length - (p.key.drop p.shared ++ (p.value ++ back)).length =
      front.length + head.length := by
    simp only [List.length_append, List.length_drop]
    omega
  rw [hbehind] at hdecode
  have hkeyLength : (UInt32.ofNat (p.key.length - p.shared)).toNat = (p.key.drop p.shared).length := by
    rw [List.length_drop]
    exact toNat_ofNat_of_lt (by omega)
  have hvalueLength : (UInt32.ofNat p.value.length).toNat = p.value.length := toNat_ofNat_of_lt (by omega)
  refine ⟨⟨UInt32.ofNat p.shared, UInt32.ofNat (p.key.length - p.shared), UInt32.ofNat p.value.length,
    front.length + head.length⟩, ?_, toNat_ofNat_of_lt (by omega), ?_, hvalueLength, ?_, ?_⟩
  · rw [BlockIterator.entryAt]
    exact (if_pos (by simp only [view, BlockIterator.new]; omega)).trans (by rw [← hdecode, ← hinput]; rfl)
  · show ((contents pieces points).drop (front.length + head.length)).take _ = _
    rw [hkeyLength, ha.drop_contents, List.take_left]
  · simp only [BlockEntry.stop, BlockEntry.value, hkeyLength, hvalueLength, hsucc, List.length_drop]
    omega
  · simp only [BlockEntry.value, hkeyLength]
    rw [← List.drop_drop, ha.drop_contents, List.drop_left, List.take_left]

/-! ### Positions -/

theorem offset_lt {i j : ℕ} (hij : i < j) (hj : j ≤ pieces.length) : offset pieces i < offset pieces j := by
  induction j with
  | zero => omega
  | succ j ih =>
    have hp := List.getElem?_eq_getElem (l := pieces) (i := j) (by omega)
    have hsucc := offset_succ hp
    have hpos : 0 < pieces[j].bytes.length := by
      have := List.length_pos_iff.2 (encodeVarint32_ne_nil (UInt32.ofNat pieces[j].shared))
      simp only [Piece.bytes, encodeEntry, List.length_append]
      omega
    rcases Nat.lt_or_eq_of_le (Nat.le_of_lt_succ hij) with hlt | rfl
    · have := ih hlt (by omega)
      omega
    · omega

theorem offset_le_iff {i j : ℕ} (hi : i ≤ pieces.length) (hj : j ≤ pieces.length) :
    offset pieces i ≤ offset pieces j ↔ i ≤ j := by
  constructor
  · intro hle
    by_contra hlt
    have := offset_lt (Nat.lt_of_not_le hlt) hi
    omega
  · intro hle
    rcases Nat.lt_or_eq_of_le hle with hlt | rfl
    · exact (offset_lt hlt hj).le
    · exact Nat.le_refl _

theorem index_le_offset {i : ℕ} (hi : i ≤ pieces.length) : i ≤ offset pieces i := by
  induction i with
  | zero => exact Nat.zero_le _
  | succ i ih =>
    have := ih (by omega)
    have : offset pieces i < offset pieces (i + 1) := offset_lt (Nat.lt_succ_self i) hi
    omega

/-- The iterator is at an entry. -/
structure At (pieces : List Piece) (points : List ℕ) (i : ℕ) (it : BlockIterator) : Prop where
  base : it.base = view pieces points
  restartIndex : it.restartIndex < points.length
  current : it.current = offset pieces i
  entry : ∃ p, pieces[i]? = some p ∧ it.k = p.key ∧ ∃ o, it.v = some (o, p.value.length) ∧
    o + p.value.length = offset pieces (i + 1) ∧ ((contents pieces points).drop o).take p.value.length = p.value

/-- The iterator is about to decode an entry, or has come to the end of the entries. -/
structure Before (pieces : List Piece) (points : List ℕ) (i : ℕ) (it : BlockIterator) : Prop where
  base : it.base = view pieces points
  restartIndex : it.restartIndex < points.length
  nextEntryOffset : it.nextEntryOffset = .ok (offset pieces i)
  follows : ∀ p, pieces[i]? = some p → p.Follows it.k

/-- The iterator is at an entry, or not valid behind the last one. -/
def Pos (pieces : List Piece) (points : List ℕ) (i : ℕ) (it : BlockIterator) : Prop :=
  i < pieces.length ∧ At pieces points i it ∨
    i = pieces.length ∧ it.base = view pieces points ∧ it.current = (entriesBytes pieces).length

variable {it : BlockIterator} {i : ℕ}

theorem wf_view (h : Layout pieces points) (hsize : (contents pieces points).length < 2 ^ 32) :
    (view pieces points).Wf := by
  have hlength := length_contents pieces points
  have hpos : points ≠ [] := by
    rintro rfl
    cases h.head
  refine ⟨?_, ?_, List.length_pos_iff.2 hpos⟩
  · simp only [view, BlockIterator.new]
    omega
  · simp only [view, BlockIterator.new]
    omega

theorem restarts_eq (h : it.base = view pieces points) : it.restarts = (entriesBytes pieces).length :=
  BlockIterator.restarts_of_base h

theorem data_eq (h : it.base = view pieces points) : it.data = contents pieces points := congrArg BlockIterator.data h

theorem getRestartPoint_eq (hsize : (contents pieces points).length < 2 ^ 32)
    (h : it.base = view pieces points) {j r : ℕ}
    (hr : points[j]? = some r) : it.getRestartPoint j = .ok (offset pieces r) := by
  have hnum : it.numrestarts = points.length := BlockIterator.numrestarts_of_base h
  rw [BlockIterator.getRestartPoint, if_pos (by rw [hnum]; exact (List.getElem?_eq_some_iff.1 hr).1), restarts_eq h,
    data_eq h]
  exact readFixed32_contents hsize hr

theorem At.nextEntryOffset (hsize : (contents pieces points).length < 2 ^ 32) (h : At pieces points i it) :
    it.nextEntryOffset = .ok (offset pieces (i + 1)) := by
  obtain ⟨p, -, -, o, hv, ho, -⟩ := h.entry
  have hle := offset_le pieces (i + 1)
  have hlength := length_contents pieces points
  rw [BlockIterator.nextEntryOffset, hv]
  simp only [ho]
  exact congrArg _ (Nat.mod_eq_of_lt (by omega))

theorem At.before (hlayout : Layout pieces points) (hsize : (contents pieces points).length < 2 ^ 32)
    (h : At pieces points i it) : Before pieces points (i + 1) it where
  base := h.base
  restartIndex := h.restartIndex
  nextEntryOffset := h.nextEntryOffset hsize
  follows := by
    intro q hq
    obtain ⟨p, hp, hk, -⟩ := h.entry
    rw [hk]
    exact hlayout.follows i p q hp hq

theorem Before.parseNextKey (hlayout : Layout pieces points) (hsize : (contents pieces points).length < 2 ^ 32)
    (h : Before pieces points i it) (hi : i < pieces.length) :
    ∃ it', it.parseNextKey = .ok (it', true) ∧ At pieces points i it' := by
  have hp := List.getElem?_eq_getElem hi
  obtain ⟨e, he, hshared, hdelta, hvalue, hstop, hbytes⟩ := entryAt_offset hlayout hsize hp
  have hfollows := h.follows _ hp
  have hentryAt : it.entryAt (offset pieces i) = some e := (BlockIterator.entryAt_of_base h.base _).trans he
  have hdelta : it.delta e = pieces[i].key.drop pieces[i].shared :=
    hdelta ▸ congrArg (fun b => b.delta e) h.base
  have hlength := length_contents pieces points
  have hle := offset_le pieces (i + 1)
  have hlt := offset_lt hi (Nat.le_refl _)
  rw [offset_length] at hlt
  have hrestarts := restarts_eq h.base
  have hdata : it.data.length = (contents pieces points).length := by rw [data_eq h.base]
  obtain ⟨index, hindex, hlt'⟩ := @BlockIterator.advanceRestart_ok _ { it with current := offset pieces i }
    (wf_view hlayout hsize) h.base _ h.restartIndex
  have hvalueLe : e.value ≤ it.data.length := by
    have : e.value ≤ e.stop := Nat.le_add_right ..
    omega
  refine ⟨_, BlockIterator.parseNextKey_entry h.nextEntryOffset (by omega) (by omega) hentryAt
    (hshared ▸ hfollows.1) hvalueLe hindex, h.base, hlt', rfl, pieces[i], hp, ?_, e.value, by rw [hvalue], ?_, hbytes⟩
  · show it.k.take e.shared.toNat ++ it.delta e = _
    rw [hshared, hfollows.2.2, hdelta, List.take_append_drop]
  · rw [← hstop, BlockEntry.stop, hvalue]

theorem Before.parseNextKey_end (h : Before pieces points i it) (hi : i = pieces.length) :
    it.parseNextKey = .ok (it.invalidate, false) := by
  refine BlockIterator.parseNextKey_end h.nextEntryOffset ?_
  rw [restarts_eq h.base, hi, offset_length]

theorem pos_invalidate (h : it.base = view pieces points) : Pos pieces points pieces.length it.invalidate :=
  Or.inr ⟨rfl, h, restarts_eq h⟩

/-- A scan goes on to the first entry at which it is to stop. -/
theorem Before.scan (hlayout : Layout pieces points) (hsize : (contents pieces points).length < 2 ^ 32)
    {stop : BlockIterator → Except Fault Bool} {stops : ℕ → Bool}
    (hstop : ∀ j it, At pieces points j it → stop it = .ok (stops j)) {j : ℕ} (hij : i ≤ j) (hj : j ≤ pieces.length)
    (hskip : ∀ l, i ≤ l → l < j → stops l = false) (hat : j < pieces.length → stops j = true) {fuel : ℕ}
    (hfuel : j - i < fuel) (h : Before pieces points i it) :
    ∃ it', BlockIterator.scan stop fuel it = .ok it' ∧ Pos pieces points j it' := by
  induction fuel generalizing i it with
  | zero => omega
  | succ fuel ih =>
    rw [BlockIterator.scan]
    rcases Nat.lt_or_ge i pieces.length with hi | hi
    · obtain ⟨it', hparse, hat'⟩ := h.parseNextKey hlayout hsize hi
      rw [hparse, Fault.ok_bind]
      simp only [↓reduceIte, hstop i it' hat', Fault.ok_bind]
      rcases Nat.lt_or_eq_of_le hij with hlt | rfl
      · rw [hskip i (Nat.le_refl _) hlt]
        exact ih hlt (fun l hl hlj => hskip l (by omega) hlj) (by omega) (hat'.before hlayout hsize)
      · rw [hat hi]
        exact ⟨it', rfl, Or.inl ⟨hi, hat'⟩⟩
    · rw [h.parseNextKey_end (by omega)]
      obtain rfl : j = pieces.length := by omega
      exact ⟨it.invalidate, rfl, pos_invalidate h.base⟩

theorem seekToRestartPoint_before (hlayout : Layout pieces points) (hsize : (contents pieces points).length < 2 ^ 32)
    (h : it.base = view pieces points) {j r : ℕ} (hr : points[j]? = some r) :
    ∃ it', it.seekToRestartPoint j = .ok it' ∧ Before pieces points r it' := by
  have hle := offset_le pieces r
  have hlength := length_contents pieces points
  refine ⟨{ it with k := [], restartIndex := j, v := some (offset pieces r, 0) }, ?_, h,
    (List.getElem?_eq_some_iff.1 hr).1, ?_, ?_⟩
  · rw [BlockIterator.seekToRestartPoint, getRestartPoint_eq hsize h hr]
    rfl
  · exact congrArg Except.ok (Nat.mod_eq_of_lt (show offset pieces r < 2 ^ 32 by omega))
  · intro p hp
    have hshared := hlayout.restart r (List.mem_of_getElem? hr) p hp
    simp [Piece.Follows, hshared]

theorem endsAt_eq (hsize : (contents pieces points).length < 2 ^ 32) {j : ℕ} (hj : j ≤ pieces.length)
    (h : At pieces points i it) : BlockIterator.endsAt (offset pieces j) it = .ok (decide (j ≤ i + 1)) := by
  obtain ⟨p, hp, -⟩ := h.entry
  have hi := (List.getElem?_eq_some_iff.1 hp).1
  rw [BlockIterator.endsAt, h.nextEntryOffset hsize]
  exact congrArg Except.ok (decide_eq_decide.2 (offset_le_iff hj hi))

/-! ### Calls -/

theorem At.valid (h : At pieces points i it) : it.Valid = true := by
  obtain ⟨p, hp, -⟩ := h.entry
  have hi := (List.getElem?_eq_some_iff.1 hp).1
  have hlt := offset_lt hi (Nat.le_refl _)
  rw [offset_length] at hlt
  simp only [BlockIterator.Valid, h.current, restarts_eq h.base, decide_eq_true_eq]
  exact hlt

theorem Before.pos (hlayout : Layout pieces points) (hsize : (contents pieces points).length < 2 ^ 32)
    (h : Before pieces points i it) (hi : i ≤ pieces.length) :
    ∃ it' found, it.parseNextKey = .ok (it', found) ∧ Pos pieces points i it' := by
  rcases Nat.lt_or_eq_of_le hi with hlt | rfl
  · obtain ⟨it', hparse, hat⟩ := h.parseNextKey hlayout hsize hlt
    exact ⟨it', true, hparse, Or.inl ⟨hlt, hat⟩⟩
  · exact ⟨it.invalidate, false, h.parseNextKey_end rfl, pos_invalidate h.base⟩

theorem Next_pos (hlayout : Layout pieces points) (hsize : (contents pieces points).length < 2 ^ 32)
    (h : At pieces points i it) : ∃ it', it.Next = .ok it' ∧ Pos pieces points (i + 1) it' := by
  obtain ⟨p, hp, -⟩ := h.entry
  obtain ⟨it', found, hparse, hpos⟩ :=
    (h.before hlayout hsize).pos hlayout hsize (List.getElem?_eq_some_iff.1 hp).1
  exact ⟨it', by rw [BlockIterator.Next, if_pos h.valid, hparse]; rfl, hpos⟩

theorem SeekToFirst_pos (hlayout : Layout pieces points) (hsize : (contents pieces points).length < 2 ^ 32)
    (h : it.base = view pieces points) : ∃ it', it.SeekToFirst = .ok it' ∧ Pos pieces points 0 it' := by
  obtain ⟨it₁, hseek, hbefore⟩ := seekToRestartPoint_before hlayout hsize h (j := 0)
    (by rw [← List.head?_eq_getElem?]; exact hlayout.head)
  obtain ⟨it', found, hparse, hpos⟩ := hbefore.pos hlayout hsize (Nat.zero_le _)
  exact ⟨it', by rw [BlockIterator.SeekToFirst, hseek, Fault.ok_bind, hparse]; rfl, hpos⟩

theorem SeekToLast_pos (hlayout : Layout pieces points) (hsize : (contents pieces points).length < 2 ^ 32)
    (h : it.base = view pieces points) {fuel : ℕ} (hfuel : pieces.length < fuel) :
    ∃ it', it.SeekToLast fuel = .ok it' ∧ Pos pieces points (pieces.length - 1) it' := by
  have hnum : it.numrestarts = points.length := BlockIterator.numrestarts_of_base h
  have hpos := (wf_view hlayout hsize).numrestarts
  simp only [view, BlockIterator.new] at hpos
  have hr := List.getElem?_eq_getElem (l := points) (i := it.numrestarts - 1) (by omega)
  obtain ⟨it₁, hseek, hbefore⟩ := seekToRestartPoint_before hlayout hsize h hr
  have hbound := hlayout.bound _ (List.mem_of_getElem? hr)
  rw [BlockIterator.SeekToLast, hseek, Fault.ok_bind, restarts_eq hbefore.base, ← offset_length]
  refine hbefore.scan hlayout hsize (fun j it hat => endsAt_eq hsize (Nat.le_refl _) hat) (by omega) (by omega) ?_ ?_
    (by omega)
  · intro l _ hl
    exact decide_eq_false (by omega)
  · intro hl
    exact decide_eq_true (by omega)

/-- The search for a restart point in front of an entry. -/
theorem restartBefore_eq (hsize : (contents pieces points).length < 2 ^ 32) (h : it.base = view pieces points)
    (original : ℕ) {index : ℕ} (hindex : index < points.length) : ∃ res, it.restartBefore original index = .ok res ∧
      (∀ j ∈ res, ∃ r, points[j]? = some r ∧ offset pieces r < original) ∧
      (res = none → ∀ r, points[0]? = some r → original ≤ offset pieces r) := by
  induction index with
  | zero =>
    have hr := List.getElem?_eq_getElem hindex
    rw [BlockIterator.restartBefore, getRestartPoint_eq hsize h hr, Fault.ok_bind]
    split
    · rename_i hle
      refine ⟨none, rfl, by simp, fun _ r hr' => ?_⟩
      rwa [← Option.some.inj (hr.symm.trans hr')]
    · rename_i hlt
      refine ⟨some 0, rfl, ?_, by simp⟩
      intro j hj
      obtain rfl : 0 = j := Option.some.inj hj
      exact ⟨_, hr, Nat.lt_of_not_le hlt⟩
  | succ index ih =>
    have hr := List.getElem?_eq_getElem hindex
    rw [BlockIterator.restartBefore, getRestartPoint_eq hsize h hr, Fault.ok_bind]
    split
    · exact ih (by omega)
    · rename_i hlt
      refine ⟨some (index + 1), rfl, ?_, by simp⟩
      intro j hj
      obtain rfl : index + 1 = j := Option.some.inj hj
      exact ⟨_, hr, Nat.lt_of_not_le hlt⟩

/-- From the first entry `Prev` makes the iterator invalid, which is the position behind the last one. -/
theorem Prev_pos (hlayout : Layout pieces points) (hsize : (contents pieces points).length < 2 ^ 32)
    (h : At pieces points i it) {fuel : ℕ} (hfuel : pieces.length < fuel) :
    ∃ it', it.Prev fuel = .ok it' ∧ Pos pieces points (if i = 0 then pieces.length else i - 1) it' := by
  obtain ⟨p, hp, -⟩ := h.entry
  have hi := (List.getElem?_eq_some_iff.1 hp).1
  have hpoint : points[0]? = some 0 := by
    rw [← List.head?_eq_getElem?]
    exact hlayout.head
  obtain ⟨res, hres, hsome, hnone⟩ := restartBefore_eq hsize h.base it.current h.restartIndex
  rw [BlockIterator.Prev, if_pos h.valid]
  simp only [hres, Fault.ok_bind]
  rw [h.current] at hsome hnone ⊢
  cases res with
  | none =>
    have hzero : i ≤ 0 := (offset_le_iff (by omega) (Nat.zero_le _)).1 (hnone rfl 0 hpoint)
    rw [if_pos (by omega)]
    exact ⟨it.invalidate, rfl, pos_invalidate h.base⟩
  | some j =>
    obtain ⟨r, hr, hlt⟩ := hsome j rfl
    have hri : r < i := by
      by_contra hle
      have hbound := hlayout.bound r (List.mem_of_getElem? hr)
      have := (@offset_le_iff pieces i r (by omega) (by omega)).2 (by omega)
      omega
    obtain ⟨it₁, hseek, hbefore⟩ := seekToRestartPoint_before hlayout hsize h.base hr
    rw [if_neg (by omega)]
    simp only [hseek, Fault.ok_bind]
    refine hbefore.scan hlayout hsize (fun j it hat => endsAt_eq hsize hi.le hat) (by omega)
      (by omega) ?_ ?_ (by omega)
    · intro l _ hl
      exact decide_eq_false (by omega)
    · intro _
      exact decide_eq_true (by omega)

variable {cmp : Slice → Slice → Ordering} {target : Slice}

/-- The binary search ends at a restart point whose key is smaller than the target, or at the first one. -/
theorem searchRestart_eq (hlayout : Layout pieces points) (hsize : (contents pieces points).length < 2 ^ 32)
    (h : it.base = view pieces points) {fuel left right : ℕ} (hle : left ≤ right) (hright : right < points.length)
    (hfuel : right - left < fuel)
    (hleft : left = 0 ∨ ∃ r p, points[left]? = some r ∧ pieces[r]? = some p ∧ cmp p.key target = .lt) :
    ∃ left', it.searchRestart cmp target fuel left right = .ok (some left') ∧ left' < points.length ∧
      (left' = 0 ∨ ∃ r p, points[left']? = some r ∧ pieces[r]? = some p ∧ cmp p.key target = .lt) := by
  have hlength := length_contents pieces points
  have hrestarts := restarts_eq h
  have hdata := data_eq h
  induction fuel generalizing left right with
  | zero => omega
  | succ fuel ih =>
    rw [BlockIterator.searchRestart]
    split
    · obtain ⟨mid, hmid⟩ : ∃ mid, mid = (left + right + 1) / 2 := ⟨_, rfl⟩
      have hr := List.getElem?_eq_getElem (l := points) (i := mid) (by omega)
      have hne : pieces ≠ [] := by
        intro hnil
        rw [hlayout.nil hnil] at hright
        simp only [List.length_singleton] at hright
        omega
      have hbound := hlayout.bound _ (List.mem_of_getElem? hr)
      have hpos := List.length_pos_iff.2 hne
      have hp := List.getElem?_eq_getElem (l := pieces) (i := points[mid]) (by omega)
      obtain ⟨e, he, hshared, hdelta, -, hstop, -⟩ := entryAt_offset hlayout hsize hp
      have hzero := hlayout.restart _ (List.mem_of_getElem? hr) _ hp
      have hentryAt : it.entryAt (offset pieces points[mid]) = some e :=
        he ▸ congrArg (fun b => b.entryAt (offset pieces points[mid])) h
      have hkey : (it.data.drop e.p).take e.nonShared.toNat = pieces[points[mid]].key := by
        have hdelta' : it.delta e = _ := (congrArg (fun b => b.delta e) h).trans hdelta
        rw [hzero, List.drop_zero] at hdelta'
        exact hdelta'
      have hsharedZero : e.shared = 0 := UInt32.toNat_inj.1 (hshared.trans hzero)
      have hnext := offset_le pieces (points[mid] + 1)
      have hvalue : e.value ≤ e.stop := Nat.le_add_right ..
      simp only [Nat.mod_eq_of_lt (show left + right + 1 < 2 ^ 32 by omega), ← hmid, getRestartPoint_eq hsize h hr,
        Fault.ok_bind, BlockIterator.decodeEntry_eq
          (show it.restarts ≤ it.data.length by rw [hrestarts, hdata]; omega),
        hentryAt, hsharedZero, ne_eq, not_true_eq_false, if_false,
        readBytes_of_le (show e.p + e.nonShared.toNat ≤ it.data.length by
          rw [hdata]
          simp only [BlockEntry.value] at hvalue
          omega), hkey]
      split
      · rename_i hlt
        exact ih (by omega) hright (by omega) (Or.inr ⟨_, _, hr, hp, hlt⟩)
      · rw [show (mid + 2 ^ 32 - 1) % 2 ^ 32 = mid - 1 by omega]
        exact ih (by omega) (by omega) (by omega) hleft
    · exact ⟨left, rfl, by omega, hleft⟩

/-- `Seek` goes to the first entry whose key is not smaller than the target. -/
theorem Seek_pos [Std.TransCmp cmp] (hlayout : Layout pieces points)
    (hsize : (contents pieces points).length < 2 ^ 32) (hl : Increasing cmp (pieces.map Piece.pair))
    (h : it.base = view pieces points) {fuel : ℕ} (hfuel : pieces.length < fuel) (hfuel' : points.length < fuel) :
    ∃ it', it.Seek cmp fuel target = .ok it' ∧
      Pos pieces points (pieces.findIdx fun p => (cmp p.key target).isGE) it' := by
  have hnum : it.numrestarts = points.length := BlockIterator.numrestarts_of_base h
  have hpos := (wf_view hlayout hsize).numrestarts
  simp only [view, BlockIterator.new] at hpos
  obtain ⟨left, hsearch, hleft, hkey⟩ := @searchRestart_eq _ _ _ cmp target hlayout hsize h fuel _ _
    (Nat.zero_le (it.numrestarts - 1)) (by omega) (by omega) (Or.inl rfl)
  have hr := List.getElem?_eq_getElem hleft
  obtain ⟨it₁, hseek, hbefore⟩ := seekToRestartPoint_before hlayout hsize h hr
  have hfind : pieces.findIdx (fun p => (cmp p.key target).isGE) ≤ pieces.length := List.findIdx_le_length
  -- no entry in front of the restart point is the one that is looked for
  have hfront : points[left] ≤ pieces.findIdx fun p => (cmp p.key target).isGE := by
    rcases hkey with rfl | ⟨r, p, hr', hp, hlt⟩
    · have hhead : some points[0] = some 0 := by
        rw [← hr, ← List.head?_eq_getElem?]
        exact hlayout.head
      rw [Option.some.inj hhead]
      exact Nat.zero_le _
    · obtain rfl := Option.some.inj (hr.symm.trans hr')
      by_contra hlater
      obtain ⟨hlast, rfl⟩ := List.getElem?_eq_some_iff.1 hp
      have hpass :=
        List.findIdx_getElem (w := show pieces.findIdx (fun p => (cmp p.key target).isGE) < pieces.length by omega)
      have hpair := List.pairwise_iff_getElem.1 hl _ _ (by rw [List.length_map]; omega)
        (by rw [List.length_map]; exact hlast) (Nat.lt_of_not_le hlater)
      simp only [List.getElem_map, Piece.pair] at hpair
      rw [Std.TransCmp.lt_trans hpair hlt] at hpass
      cases hpass
  rw [BlockIterator.Seek, hsearch, Fault.ok_bind]
  simp only [hseek, Fault.ok_bind]
  refine @Before.scan _ _ _ _ hlayout hsize _
    (fun j => pieces[j]?.any fun p => (cmp p.key target).isGE) ?_ _ hfront hfind
    ?_ ?_ _ (by omega) hbefore
  · intro j it hat
    obtain ⟨p, hp, hk, -⟩ := hat.entry
    rw [hp, hk]
    cases hcmp : cmp p.key target <;> simp [hcmp]
  · intro j _ hj
    have hnot := List.not_of_lt_findIdx hj
    rw [List.getElem?_eq_getElem (by omega)]
    simpa using hnot
  · intro hj
    rw [List.getElem?_eq_getElem hj, Option.any_some]
    exact List.findIdx_getElem (w := hj)

end BlockBuilder

/-! ### The iterator as a cursor -/

/-- The interface of `NewIterator`'s result, with `fuel` passes for each loop. -/
def Block.Iter.interface (cmp : Slice → Slice → Ordering) (fuel : ℕ) : Iterator Block.Iter Slice Slice where
  Valid := Block.Iter.Valid
  key
    | .Empty _ => none
    | .Entries it => it.key.toOption
  value
    | .Empty _ => none
    | .Entries it => it.value.toOption
  status := Block.Iter.status
  Seek s target := (s.call cmp fuel (.Seek target)).toOption
  SeekToFirst s := (s.call cmp fuel .SeekToFirst).toOption
  SeekToLast s := (s.call cmp fuel .SeekToLast).toOption
  Next s := (s.call cmp fuel .Next).toOption
  Prev s := (s.call cmp fuel .Prev).toOption

theorem Block.Iter.call_interface {cmp : Slice → Slice → Ordering} {fuel : ℕ} {s s' : Block.Iter} {c : Call Slice}
    (h : s.call cmp fuel c = .ok s') : (interface cmp fuel).call s c = some s' := by
  cases c <;> simp [Iterator.call, interface, h, Except.toOption]

namespace BlockBuilder

variable {pieces : List Piece} {points : List ℕ} {cmp : Slice → Slice → Ordering}

/-- The iterator is where the cursor is. -/
def Shown (pieces : List Piece) (points : List ℕ) (s : Block.Iter) (p : Option (Place (Slice × Slice))) : Prop :=
  ∃ it, s = .Entries it ∧ it.base = view pieces points ∧
    ∃ i, (Pos pieces points i it) ∧ p = Cursor.nth (pieces.map Piece.pair) i

theorem Pos.base {i : ℕ} {it : BlockIterator} (h : Pos pieces points i it) : it.base = view pieces points :=
  h.elim (fun h => h.2.base) fun h => h.2.1

theorem shown_of_pos {i : ℕ} {it : BlockIterator} (h : Pos pieces points i it) :
    Shown pieces points (.Entries it) (Cursor.nth (pieces.map Piece.pair) i) :=
  ⟨it, rfl, h.base, i, h, rfl⟩

/-- At a place the iterator is at the entry of the place. -/
theorem Shown.at {s : Block.Iter} {q : Place (Slice × Slice)} (h : Shown pieces points s (some q)) :
    ∃ it i p, s = .Entries it ∧ At pieces points i it ∧ pieces[i]? = some p ∧ q.current = p.pair ∧
      some q = Cursor.nth (pieces.map Piece.pair) i := by
  obtain ⟨it, rfl, -, i, ⟨hi, hat⟩ | ⟨rfl, -⟩, hq⟩ := h
  · have hp := List.getElem?_eq_getElem hi
    have hpair : (pieces.map Piece.pair)[i]? = some pieces[i].pair := by rw [List.getElem?_map, hp, Option.map_some]
    refine ⟨it, i, pieces[i], rfl, hat, hp, ?_, hq⟩
    rw [Cursor.nth_of_getElem? hpair] at hq
    rw [Option.some.inj hq]
  · rw [Cursor.nth_eq_none (by rw [List.length_map])] at hq
    cases hq

/-- A call leads the iterator where it leads a cursor over the pairs. -/
theorem call_shown [Std.TransCmp cmp] (hlayout : Layout pieces points)
    (hsize : (contents pieces points).length < 2 ^ 32) (hl : Increasing cmp (pieces.map Piece.pair)) {fuel : ℕ}
    (hfuel : pieces.length < fuel) (hfuel' : points.length < fuel) {s : Block.Iter}
    {p p' : Option (Place (Slice × Slice))}
    {c : Call Slice} (h : Shown pieces points s p) (hcall : Cursor.call cmp (pieces.map Piece.pair) p c = some p') :
    ∃ s', s.call cmp fuel c = .ok s' ∧ Shown pieces points s' p' := by
  cases c with
  | Seek target =>
    obtain ⟨it, rfl, hbase, -⟩ := h
    obtain rfl := Option.some.inj hcall
    obtain ⟨it', hseek, hpos⟩ := @Seek_pos _ _ _ cmp target _ hlayout hsize hl hbase _ hfuel hfuel'
    refine ⟨.Entries it', by rw [Block.Iter.call, hseek]; rfl, ?_⟩
    have hshown := shown_of_pos hpos
    rw [Cursor.seek_eq_nth, List.findIdx_map]
    exact hshown
  | SeekToFirst =>
    obtain ⟨it, rfl, hbase, -⟩ := h
    obtain rfl := Option.some.inj hcall
    obtain ⟨it', hseek, hpos⟩ := SeekToFirst_pos hlayout hsize hbase
    exact ⟨.Entries it', by rw [Block.Iter.call, hseek]; rfl, shown_of_pos hpos⟩
  | SeekToLast =>
    obtain ⟨it, rfl, hbase, -⟩ := h
    obtain rfl := Option.some.inj hcall
    obtain ⟨it', hseek, hpos⟩ := SeekToLast_pos hlayout hsize hbase hfuel
    refine ⟨.Entries it', by rw [Block.Iter.call, hseek]; rfl, ?_⟩
    have hshown := shown_of_pos hpos
    rwa [Cursor.last_eq_nth, List.length_map]
  | Next =>
    obtain ⟨q, rfl, rfl⟩ := Option.map_eq_some_iff.1 hcall
    obtain ⟨it, i, piece, rfl, hat, hpiece, -, hq⟩ := h.at
    obtain ⟨it', hnext, hpos⟩ := Next_pos hlayout hsize hat
    refine ⟨.Entries it', by rw [Block.Iter.call, hnext]; rfl, ?_⟩
    rw [Cursor.nth_next hq.symm]
    exact shown_of_pos hpos
  | Prev =>
    obtain ⟨q, rfl, rfl⟩ := Option.map_eq_some_iff.1 hcall
    obtain ⟨it, i, piece, rfl, hat, hpiece, -, hq⟩ := h.at
    obtain ⟨it', hprev, hpos⟩ := Prev_pos hlayout hsize hat hfuel
    refine ⟨.Entries it', by rw [Block.Iter.call, hprev]; rfl, ?_⟩
    cases i with
    | zero =>
      -- Before the first pair the iterator is invalid, as it is behind the last one.
      rw [Cursor.nth_prev_zero hq.symm, ← Cursor.nth_eq_none (l := pieces.map Piece.pair) (i := pieces.length)
        (by rw [List.length_map])]
      exact shown_of_pos hpos
    | succ i =>
      rw [Cursor.nth_prev_succ hq.symm]
      exact shown_of_pos hpos

theorem interface_shows [Std.TransCmp cmp] (hlayout : Layout pieces points)
    (hsize : (contents pieces points).length < 2 ^ 32) (hl : Increasing cmp (pieces.map Piece.pair)) {fuel : ℕ}
    (hfuel : pieces.length < fuel) (hfuel' : points.length < fuel) :
    (Block.Iter.interface cmp fuel).Shows cmp (pieces.map Piece.pair) (Shown pieces points) where
  valid := by
    intro s p h
    cases p with
    | some q =>
      obtain ⟨it, i, piece, rfl, hat, -⟩ := h.at
      exact hat.valid
    | none =>
      obtain ⟨it, rfl, -, i, ⟨hi, -⟩ | ⟨-, hbase, hcurrent⟩, hp⟩ := h
      · rw [Cursor.nth_of_getElem? (List.getElem?_eq_getElem (by rwa [List.length_map]))] at hp
        cases hp
      · show decide (it.current < it.restarts) = false
        rw [hcurrent, restarts_eq hbase]
        exact decide_eq_false (Nat.lt_irrefl _)
  key := by
    intro s q h
    obtain ⟨it, i, p, rfl, hat, hp, hq, -⟩ := h.at
    obtain ⟨p', hp', hk, -⟩ := hat.entry
    obtain rfl := Option.some.inj (hp.symm.trans hp')
    show it.key.toOption = some q.current.1
    rw [BlockIterator.key, if_pos hat.valid, hk, hq]
    rfl
  value := by
    intro s q h
    obtain ⟨it, i, p, rfl, hat, hp, hq, -⟩ := h.at
    obtain ⟨p', hp', -, o, hv, ho, hbytes⟩ := hat.entry
    obtain rfl := Option.some.inj (hp.symm.trans hp')
    have hle := offset_le pieces (i + 1)
    have hlength := length_contents pieces points
    show it.value.toOption = some q.current.2
    rw [BlockIterator.value, if_pos hat.valid, hv, hq]
    simp only []
    rw [readBytes_of_le (by rw [data_eq hat.base]; omega), data_eq hat.base, hbytes]
    rfl
  call := by
    intro s p c p' h hcall
    obtain ⟨s', hs', hshown⟩ := call_shown hlayout hsize hl hfuel hfuel' h hcall
    exact ⟨s', Block.Iter.call_interface hs', hshown⟩

/-- After any calls that are allowed the iterator over the block is where a cursor over the pairs is. -/
def Agrees (cmp : Slice → Slice → Ordering) (l : List (Slice × Slice)) (block : Slice) : Prop :=
  ∃ start, Block.iterator block = .ok start ∧ ∀ calls p, Cursor.run cmp l none calls = some p →
    ∃ s, (Block.Iter.interface cmp (block.length + 1)).run start calls = some s ∧
      (Block.Iter.interface cmp (block.length + 1)).Looks s p

/-- The builder takes every increasing list of pairs, and a block that is shorter than 2^32 bytes agrees with it. -/
theorem run_blockIterator [Std.TransCmp cmp] {interval : ℕ} (hinterval : 1 ≤ interval) {l : List (Slice × Slice)}
    (hl : Increasing cmp l) :
    ∃ block, build cmp interval l = some block ∧ (block.length < 2 ^ 32 → Agrees cmp l block) := by
  obtain ⟨b, pieces, points, hadd, hbuilt, rfl⟩ := exists_built hinterval hl
  refine ⟨contents pieces points, by rw [build, hadd, Option.map_some, hbuilt.finish], fun hsize => ?_⟩
  have hlength := length_contents pieces points
  have hpieces := index_le_offset (Nat.le_refl pieces.length)
  rw [offset_length] at hpieces
  have hshows := interface_shows hbuilt.layout hsize hl
    (show pieces.length < (contents pieces points).length + 1 by omega) (by omega)
  have hstart : Shown pieces points (.Entries (view pieces points)) none :=
    ⟨_, rfl, rfl, pieces.length, Or.inr ⟨rfl, rfl, rfl⟩, (Cursor.nth_eq_none (by rw [List.length_map])).symm⟩
  refine ⟨_, iterator_contents hbuilt.layout hsize, fun calls p hrun => ?_⟩
  obtain ⟨s, hs, hshown⟩ := hshows.run hstart hrun
  exact ⟨s, hs, hshows.looks hshown⟩

section Examples

private def twoPairs : List (Slice × Slice) := [([97], [49]), ([97, 98], [50])]

theorem run_blockIterator_twoPairs : ∃ block, build (compareOn List.length) 2 twoPairs = some block ∧
    (block.length < 2 ^ 32 → Agrees (compareOn List.length) twoPairs block) :=
  run_blockIterator (by decide) (List.pairwise_pair.2 (by decide))

/-- A value of 2^32 bytes. -/
private def longValue : Slice := [0, 0, 0, 0] ++ List.replicate (2 ^ 32 - 4) 0

private theorem build_long {value : Slice} (hvalue : value.length = 2 ^ 32) :
    build compare 1 [([97], value)] = some ([0, 1, 0, 97] ++ (value ++ [0, 0, 0, 0, 1, 0, 0, 0])) := by
  have hlength : UInt32.ofNat value.length = 0 := by
    rw [hvalue]
    rfl
  simp [build, addAll, new, Add, sharedLength, encodeEntry, Finish, hlength]
  rfl

private theorem iterator_long {block value : Slice} (hvalue : value.length = 2 ^ 32)
    (hblock : block = [0, 1, 0, 97] ++ (value ++ [0, 0, 0, 0, 1, 0, 0, 0])) :
    Block.iterator block = .ok (.Entries (.new block 4 1)) := by
  have hlength : block.length = 2 ^ 32 + 12 := by simp [hblock, hvalue]
  have hread : Block.numrestarts block block.length = .ok 1 := by
    have hdrop : block.drop (block.length - 4) = [1, 0, 0, 0] := by
      have hsplit : block = ([0, 1, 0, 97] ++ (value ++ [0, 0, 0, 0])) ++ [1, 0, 0, 0] := by simp [hblock]
      rw [hlength, hsplit]
      apply List.drop_left'
      simp [hvalue]
    rw [Block.numrestarts, if_pos (by omega), readFixed32, readBytes_of_le (by omega), hdrop]
    rfl
  rw [Block.iterator, Block.new, if_neg (by omega), hread]
  simp only [Fault.ok_bind]
  rw [if_neg (by omega)]
  show Block.NewIterator _ = _
  rw [Block.NewIterator, if_neg (show ¬ block.length < 4 by omega), hread, Fault.ok_bind, if_neg (by omega), hlength]
  rfl

private theorem seekToFirst_long {block rest : Slice}
    (hblock : block = 0 :: 1 :: 0 :: 97 :: 0 :: 0 :: 0 :: 0 :: rest) :
    ∃ it, (BlockIterator.new block 4 1).SeekToFirst = .ok it ∧ it.value = .ok [] := by
  have hlength : block.length = rest.length + 8 := by simp [hblock]
  have hpoint : readFixed32 block (4 + 0 * 4) = .ok 0 := by
    have htake : (block.drop (4 + 0 * 4)).take 4 = [0, 0, 0, 0] := by
      rw [hblock]
      rfl
    rw [readFixed32, readBytes_of_le (by omega), htake]
    rfl
  obtain ⟨it, hit⟩ : ∃ it : BlockIterator, it = ⟨block, 4, 1, 4, 0, [], some (0, 0), .OK⟩ := ⟨_, rfl⟩
  have hseek : (BlockIterator.new block 4 1).seekToRestartPoint 0 = .ok it := by
    rw [BlockIterator.seekToRestartPoint, BlockIterator.getRestartPoint]
    simp only [BlockIterator.new, hpoint, Nat.zero_lt_one, if_true, Fault.ok_bind, hit]
    rfl
  have hdata : it.data = block := by rw [hit]
  have hrestarts : it.restarts = 4 := by rw [hit]
  have hentry : it.entryAt 0 = some ⟨0, 1, 0, 3⟩ := by
    have htake : (it.data.drop 0).take (it.restarts - 0) = [0, 1, 0, 97] := by
      rw [hdata, hrestarts, hblock]
      rfl
    rw [BlockIterator.entryAt, if_pos (by omega), htake, hrestarts]
    rfl
  have hindex : { it with current := 0 }.advanceRestart it.restartIndex = .ok 0 := by
    rw [BlockIterator.advanceRestart, if_neg (by simp only [hit]; omega), hit]
    rfl
  have hparse := BlockIterator.parseNextKey_entry (show it.nextEntryOffset = .ok 0 by rw [hit]; rfl) (by omega)
    (by rw [hdata]; omega) hentry (Nat.zero_le _) (show 4 ≤ it.data.length by rw [hdata]; omega) hindex
  rw [BlockIterator.SeekToFirst, hseek, Fault.ok_bind, hparse, Fault.ok_bind]
  refine ⟨_, rfl, ?_⟩
  rw [hit]
  exact (if_pos rfl).trans (readBytes_of_le (show 4 + 0 ≤ block.length by omega))

/-- The length of the value is 0 in 32 bits, and so is all of it that is seen. -/
theorem not_agrees_longValue : Increasing compare [([97], longValue)] ∧
    ∃ block, build compare 1 [([97], longValue)] = some block ∧ ¬ Agrees compare [([97], longValue)] block := by
  have hvalue : longValue.length = 2 ^ 32 := by
    rw [longValue, List.length_append, List.length_replicate]
    rfl
  have hzeros : ∃ rest, longValue = 0 :: 0 :: 0 :: 0 :: rest := ⟨_, rfl⟩
  generalize longValue = value at hvalue hzeros
  refine ⟨List.pairwise_singleton .., _, build_long hvalue, ?_⟩
  obtain ⟨block, hblock⟩ : ∃ block, block = [0, 1, 0, 97] ++ (value ++ [0, 0, 0, 0, 1, 0, 0, 0]) := ⟨_, rfl⟩
  rw [← hblock]
  rintro ⟨start, hstart, hagrees⟩
  obtain rfl := Except.ok.inj ((iterator_long hvalue hblock).symm.trans hstart)
  obtain ⟨s, hs, hlooks⟩ := hagrees [.SeekToFirst] (some ⟨[], ([97], value), []⟩) rfl
  obtain ⟨rest, hrest⟩ := hzeros
  obtain ⟨it, hseek, hempty⟩ := seekToFirst_long (hblock.trans (by rw [hrest]; rfl))
  have hcall : (Block.Iter.Entries (.new block 4 1)).call compare (block.length + 1) .SeekToFirst =
      .ok (.Entries it) := by
    rw [Block.Iter.call, hseek]
    rfl
  rw [Iterator.run, Block.Iter.call_interface hcall, Option.bind_some] at hs
  obtain rfl := Option.some.inj hs
  have hvalue' : it.value.toOption = some value := hlooks.value _ rfl
  rw [hempty] at hvalue'
  rw [← Option.some.inj hvalue'] at hvalue
  cases hvalue

end Examples

end BlockBuilder

end RedisDb
