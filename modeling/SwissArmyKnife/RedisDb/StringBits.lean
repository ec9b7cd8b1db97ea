import Mathlib.Data.Nat.Count
import Mathlib.Data.Set.Card
import SwissArmyKnife.RedisDb.StringReads

/-!
# Strings as arrays of bits

`SetBit` refines the update of a function from offsets to bits, whatever the bytes are and over any run of calls
(`setBits_bitArray`), and `BitCount` counts the offsets whose bit is set as long as its `int`s hold the numbers.
-/

namespace RedisDb

namespace RedisString

/-! ### One bit of a byte -/

theorem testBit_replaceBit (byteVal : UInt8) {bit j : Nat} (hbit : bit < 8) (hj : j < 8) (value : Int32) :
    (replaceBit byteVal bit value).toNat.testBit j =
      if j = bit then decide (value.toInt % 2 = 1) else byteVal.toNat.testBit j := by
  have hpow : ∀ k < 8, (1 <<< k.toUInt8 : UInt8).toNat = 2 ^ k := by decide
  have hmask : (1 <<< bit.toUInt8 : UInt8).toNat.testBit j = decide (bit = j) := by
    rw [hpow bit hbit, Nat.testBit_two_pow]
  simp only [replaceBit]
  generalize (1 <<< bit.toUInt8 : UInt8) = mask at hmask ⊢
  have hnot : (~~~mask).toNat.testBit j = !mask.toNat.testBit j := by
    have hlsb : (~~~mask).toNat.testBit j = (~~~mask.toBitVec).getLsbD j := rfl
    rw [hlsb, BitVec.getLsbD_not, decide_eq_true hj, Bool.true_and]
    rfl
  rw [UInt8.toNat_or, UInt8.toNat_and, Nat.testBit_or, Nat.testBit_and, hnot, hmask]
  by_cases heq : bit = j
  · subst heq
    by_cases hodd : value.toInt % 2 = 1 <;> simp [hodd, hmask]
  · have hne : ¬ j = bit := fun h => heq h.symm
    by_cases hodd : value.toInt % 2 = 1 <;> simp [hodd, hmask, heq, hne]

/-! ### Bits of a value -/

variable {value : Slice} {offset p : Nat} {bit : Int32}

theorem bitAt_eq (value : Slice) (p : Nat) :
    bitAt value p = if (value.getD (p / 8) 0).toNat.testBit (7 - p % 8) then 1 else 0 := by
  unfold bitAt
  cases hget : value[p / 8]? <;> simp [List.getD_eq_getElem?_getD, hget]

theorem bitAt_of_length_le (h : value.length * 8 ≤ p) : bitAt value p = 0 := by
  rw [bitAt, List.getElem?_eq_none (by omega)]

theorem bitAt_nil (p : Nat) : bitAt [] p = 0 := rfl

theorem length_writeBit (value : Slice) (offset : Nat) (bit : Int32) :
    (writeBit value offset bit).length = max value.length (offset / 8 + 1) := by
  unfold writeBit
  split
  · rename_i b hget
    obtain ⟨hlt, -⟩ := List.getElem?_eq_some_iff.1 hget
    rw [List.length_set]
    omega
  · rename_i hget
    have hle := List.getElem?_eq_none_iff.1 hget
    simp only [List.length_append, List.length_replicate, List.length_singleton]
    omega

/-- The byte that is written is the old one, or zero, with the bit replaced; the others stay. -/
theorem getD_writeBit (value : Slice) (offset : Nat) (bit : Int32) (k : Nat) :
    (writeBit value offset bit).getD k 0 =
      if k = offset / 8 then replaceBit (value.getD k 0) (7 - offset % 8) bit else value.getD k 0 := by
  unfold writeBit
  split
  · rename_i b hget
    obtain ⟨hlt, rfl⟩ := List.getElem?_eq_some_iff.1 hget
    simp only [List.getD_eq_getElem?_getD, List.getElem?_set]
    split
    · rename_i heq
      subst heq
      simp [hlt]
    · rename_i hne
      rw [if_neg fun h => hne h.symm]
  · rename_i hget
    have hle := List.getElem?_eq_none_iff.1 hget
    simp only [List.getD_eq_getElem?_getD, List.append_assoc]
    rcases lt_or_ge k value.length with hk | hk
    · rw [List.getElem?_append_left hk, if_neg (by omega)]
    · rw [List.getElem?_append_right hk, List.getElem?_eq_none hk]
      rcases lt_trichotomy k (offset / 8) with hlt | rfl | hgt
      · rw [List.getElem?_append_left (by simp; omega), List.getElem?_replicate, if_pos (by omega), if_neg (by omega)]
        rfl
      · rw [List.getElem?_append_right (by simp), List.length_replicate, Nat.sub_self, if_pos rfl]
        rfl
      · rw [List.getElem?_eq_none (by simp; omega), if_neg (by omega)]

theorem bitAt_writeBit (hbit : bit = 0 ∨ bit = 1) (value : Slice) (offset : Nat) :
    bitAt (writeBit value offset bit) = Function.update (bitAt value) offset bit := by
  funext p
  rw [bitAt_eq, getD_writeBit, Function.update_apply, bitAt_eq]
  by_cases hbyte : p / 8 = offset / 8
  · rw [if_pos hbyte, testBit_replaceBit _ (by omega) (by omega)]
    by_cases heq : p = offset
    · subst heq
      rcases hbit with rfl | rfl <;> simp
    · have hne : ¬ 7 - p % 8 = 7 - offset % 8 := by omega
      rw [if_neg hne, if_neg heq]
  · have hne : ¬ p = offset := fun h => hbyte (by rw [h])
    rw [if_neg hbyte, if_neg hne]

/-- The set bits of a value are the offsets whose bit is 1. -/
theorem count_bitAt (value : Slice) : Nat.count (fun p => bitAt value p = 1) (value.length * 8) = ones value := by
  induction value with
  | nil => rfl
  | cons b value ih =>
    rw [List.length_cons, Nat.add_mul, Nat.one_mul, Nat.add_comm, Nat.count_add, ones_cons, ← ih]
    congr 1
    · have hbit : ∀ p < 8, (bitAt (b :: value) p = 1 ↔ b.toNat.testBit (7 - p) = true) := by
        intro p hp
        rw [bitAt_eq, Nat.div_eq_of_lt hp, Nat.mod_eq_of_lt hp, List.getD_cons_zero]
        split <;> simp [*]
      simp only [Nat.count_succ, Nat.count_zero, List.range_succ, List.range_zero,
        List.nil_append, List.countP_append,
        List.countP_singleton, hbit, Nat.reduceLT, Nat.reduceSub]
      omega
    · congr 1
      funext k
      rw [bitAt_eq, bitAt_eq, show (8 + k) / 8 = k / 8 + 1 by omega, show (8 + k) % 8 = k % 8 by omega,
        List.getD_cons_succ]

/-- `GetBit` reads the bit of an offset that is not negative. -/
theorem readBit_eq (hsize : value.length < 2 ^ 63) {offset : Int64} (hoffset : 0 ≤ offset) :
    readBit value offset = some (bitAt value offset.toInt.toNat) := by
  have hpos : 0 ≤ offset.toInt := by simpa using Int64.le_iff_toInt_le.1 hoffset
  have hfits := (fits_toInt offset).2
  have hbyte := toNat_toUInt64 (offset >>> 3)
  rw [toInt_shiftRight_three, if_pos (by omega)] at hbyte
  have hbit : (offset &&& 7).toInt.toNat = offset.toInt.toNat % 8 := by
    have hand : (offset &&& 7).toUInt64.toNat = offset.toUInt64.toNat % 8 := by
      have hnat : (offset &&& 7).toUInt64.toNat = offset.toUInt64.toNat &&& (2 ^ 3 - 1) := UInt64.toNat_and ..
      rw [hnat, Nat.and_two_pow_sub_one_eq_mod]
    have hall := toNat_toUInt64 offset
    have hlow := toNat_toUInt64 (offset &&& 7)
    have hmin := (fits_toInt (offset &&& 7)).1
    rw [if_pos hpos] at hall
    rw [hand] at hlow
    split at hlow <;> omega
  simp only [readBit]
  generalize (offset >>> 3).toUInt64 = byte at hbyte ⊢
  have hlt := byte.toNat_lt
  have hindex : byte.toNat = offset.toInt.toNat / 8 := by omega
  simp only [length_lt_succ_iff hsize, hbit, bitAt, hindex]
  by_cases hmissing : value.length < (offset.toInt.toNat / 8 + 1) % 2 ^ 64
  · rw [if_pos hmissing, List.getElem?_eq_none (by omega)]
  · rw [if_neg hmissing, List.getElem?_eq_getElem (by omega)]
    rfl

/-! ### Calls -/

/-- A call of `SetBit` at a time. -/
structure BitCall where
  time : Int
  offset : Int64
  bit : Int32

namespace BitCall

def Valid (c : BitCall) : Prop := 0 ≤ c.offset ∧ (c.bit = 0 ∨ c.bit = 1)

/-- The value that holds the bit has, with its timestamp, a length of 32 bits, or the bit is set to what it is beyond
the end. -/
def Fits (c : BitCall) : Prop := c.bit = 0 ∨ c.offset.toInt < 2 ^ 35 - 40

instance (c : BitCall) : Decidable c.Fits := inferInstanceAs (Decidable (_ ∨ _))

end BitCall

/-- The database after some calls. -/
def setBits (db : Db) (key : Slice) (calls : List BitCall) : Db :=
  calls.foldl (fun db c => (SetBit none db key c.offset c.bit c.time).1) db

/-- What is stored under a key, when it is nothing or the encoding of a string; a record has a length of 32 bits. -/
structure Holds (db : Db) (key : Slice) (held : Option StringsMetaValue) : Prop where
  get : db.get key = held.map StringsMetaValue.Encode
  size : ∀ m ∈ held, m.value.length + 4 < 2 ^ 32

variable {db : Db} {key : Slice} {held : Option StringsMetaValue} {time : Int}

theorem Holds.length_bytesOf (h : Holds db key held) (time : Int) : (bytesOf held time).length + 4 < 2 ^ 32 := by
  cases held with
  | none => simp [bytesOf]
  | some m =>
    have hsize := h.size m rfl
    unfold bytesOf
    simp only
    split
    · simp
    · exact hsize

theorem Holds.getBit (h : Holds db key held) {offset : Int64} (hoffset : 0 ≤ offset) (time : Int) :
    GetBit none db key offset time = some (.OK, some (bitAt (bytesOf held time) offset.toInt.toNat)) := by
  have hget := h.get
  have hlength := h.length_bytesOf time
  cases held with
  | none =>
    rw [GetBit, RedisDb.Get, hget]
    simp only [Option.map_none]
    rw [readBit_eq (by simp) hoffset]
    rfl
  | some m =>
    rw [GetBit, RedisDb.Get, hget]
    simp only [Option.map_some, StringsMetaValue.new_encode]
    simp only [bytesOf] at hlength ⊢
    split
    · rename_i hstale
      rfl
    · rename_i hlive
      rw [if_neg hlive] at hlength
      rw [show m.parsed.uservalue = m.value from rfl, readBit_eq (by omega) hoffset]
      rfl

theorem Holds.setBit (h : Holds db key held) {offset : Int64} (hoffset : 0 ≤ offset) (bit : Int32) (time : Int) :
    SetBit none db key offset bit time = setBitOf db key (bytesOf held time) offset.toInt.toNat bit := by
  have hget := h.get
  rw [SetBit, if_neg (Int64.not_lt.2 hoffset), RedisDb.Get, hget]
  cases held with
  | none => rfl
  | some m =>
    simp only [Option.map_some, StringsMetaValue.new_encode]
    rfl

/-- A bit that is changed is within the lengths that a record has, when the call fits. -/
private theorem length_writeBit_lt_iff (h : Holds db key held) {c : BitCall} (hc : c.Valid)
    (hchanged : bitAt (bytesOf held c.time) c.offset.toInt.toNat ≠ c.bit) :
    (StringsMetaValue.new (writeBit (bytesOf held c.time) c.offset.toInt.toNat c.bit)).Encode.length < 2 ^ 32 ↔
    c.Fits := by
  obtain ⟨hoffset, hbit⟩ := hc
  have hlength := h.length_bytesOf c.time
  have hpos : 0 ≤ c.offset.toInt := by simpa using Int64.le_iff_toInt_le.1 hoffset
  rw [StringsMetaValue.length_encode, StringsMetaValue.new, length_writeBit, BitCall.Fits]
  constructor
  · intro hlt
    exact .inr (by omega)
  · rintro (hzero | hlt)
    · -- A bit that is cleared was within the value.
      have hwithin : c.offset.toInt.toNat / 8 < (bytesOf held c.time).length := by
        by_contra hbeyond
        rw [bitAt_of_length_le (by omega)] at hchanged
        exact hchanged hzero.symm
      omega
    · omega

/-- A call of `SetBit` returns the old bit and updates the bits. -/
theorem Holds.step (h : Holds db key held) {c : BitCall} (hc : c.Valid) (hfits : c.Fits) :
    ∃ db' held', SetBit none db key c.offset c.bit c.time =
        (db', .OK, some (bitAt (bytesOf held c.time) c.offset.toInt.toNat)) ∧
      Holds db' key held' ∧
      bitAt (bytesOf held' c.time) = Function.update (bitAt (bytesOf held c.time)) c.offset.toInt.toNat c.bit := by
  rw [h.setBit hc.1, setBitOf]
  by_cases hsame : bitAt (bytesOf held c.time) c.offset.toInt.toNat = c.bit
  · rw [if_pos hsame]
    refine ⟨db, held, rfl, h, ?_⟩
    rw [← hsame, Function.update_eq_self]
  · have hlt := (length_writeBit_lt_iff h hc hsame).2 hfits
    rw [if_neg hsame, putRecord_of_lt hlt]
    rw [StringsMetaValue.length_encode] at hlt
    refine ⟨_, some (StringsMetaValue.new (writeBit (bytesOf held c.time) c.offset.toInt.toNat c.bit)), rfl,
      ⟨SortedMap.get_put_self .., ?_⟩, ?_⟩
    · intro m hm
      rw [← Option.some.inj hm]
      exact hlt
    · rw [← bitAt_writeBit hc.2]
      rfl

/-- What a call of `SetBit` is to do: return the previous bit, and change no bit but its own. -/
def WritesBit (db : Db) (key : Slice) (c : BitCall) : Prop :=
  ∃ db' prev, SetBit none db key c.offset c.bit c.time = (db', .OK, some prev) ∧
    GetBit none db key c.offset c.time = some (.OK, some prev) ∧
    ∀ p, 0 ≤ p → GetBit none db' key p c.time =
      if p = c.offset then some (.OK, some c.bit) else GetBit none db key p c.time

/-- What `BitCount` without a range is to do: count the offsets whose bit is 1. -/
def CountsBits (db : Db) (key : Slice) (startoffset endoffset : Int64) (time : Int) : Prop :=
  ∃ ret, BitCountChecked none db key startoffset endoffset false time = some (.OK, ret) ∧
    ret.toInt = Set.ncard {p : Int64 | 0 ≤ p ∧ GetBit none db key p time = some (.OK, some 1)}

theorem Holds.writesBit (h : Holds db key held) {c : BitCall} (hc : c.Valid) (hfits : c.Fits) :
    WritesBit db key c := by
  obtain ⟨db', held', hset, hholds, hupdate⟩ := h.step hc hfits
  refine ⟨db', _, hset, h.getBit hc.1 c.time, fun p hp => ?_⟩
  rw [hholds.getBit hp, hupdate, h.getBit hp, Function.update_apply]
  have hinj : p.toInt.toNat = c.offset.toInt.toNat ↔ p = c.offset := by
    have hpos : 0 ≤ p.toInt := by simpa using Int64.le_iff_toInt_le.1 hp
    have hcpos : 0 ≤ c.offset.toInt := by simpa using Int64.le_iff_toInt_le.1 hc.1
    rw [← Int64.toInt_inj]
    omega
  simp only [hinj]
  split <;> rfl

/-- The bit is written exactly when the record has a length of 32 bits. -/
theorem Holds.writesBit_iff (h : Holds db key held) {c : BitCall} (hc : c.Valid) : WritesBit db key c ↔ c.Fits := by
  refine ⟨?_, h.writesBit hc⟩
  rintro ⟨db', prev, hset, -⟩
  rw [h.setBit hc.1, setBitOf] at hset
  by_cases hsame : bitAt (bytesOf held c.time) c.offset.toInt.toNat = c.bit
  · rcases hc.2 with hzero | hone
    · exact .inl hzero
    · have hlength := h.length_bytesOf c.time
      have hwithin : c.offset.toInt.toNat / 8 < (bytesOf held c.time).length := by
        by_contra hbeyond
        rw [bitAt_of_length_le (by omega), hone] at hsame
        exact absurd hsame (by decide)
      exact .inr (by omega)
  · rw [if_neg hsame] at hset
    simp only [Prod.mk.injEq] at hset
    exact (length_writeBit_lt_iff h hc hsame).1 (lt_of_putRecord hset.2.1)

/-- Every database of a run holds a string under the key. -/
theorem Holds.setBits (h : Holds db key held) {calls : List BitCall} (hcalls : ∀ c ∈ calls, c.Valid ∧ c.Fits) :
    ∃ held', Holds (setBits db key calls) key held' := by
  induction calls generalizing db held with
  | nil => exact ⟨held, h⟩
  | cons c calls ih =>
    obtain ⟨hvalid, hfits⟩ := hcalls c (List.mem_cons_self ..)
    obtain ⟨db', held', hset, hholds, -⟩ := h.step hvalid hfits
    have hrest := ih hholds fun c' hc' => hcalls c' (List.mem_cons_of_mem _ hc')
    rw [RedisString.setBits, List.foldl_cons, hset]
    exact hrest

/-- The offsets whose bit is 1 are as many as the set bits of the value. -/
theorem Holds.ncard_ones (h : Holds db key held) (hsmall : (bytesOf held time).length < 2 ^ 31) :
    Set.ncard {p : Int64 | 0 ≤ p ∧ GetBit none db key p time = some (.OK, some 1)} = ones (bytesOf held time) := by
  have hnat : ∀ k < (bytesOf held time).length * 8, (Int64.ofNat k).toInt = k := fun k hk =>
    Int64.toInt_ofNat_of_lt (by omega)
  have himage : {p : Int64 | 0 ≤ p ∧ GetBit none db key p time = some (.OK, some 1)} =
      Int64.ofNat '' ((Finset.range ((bytesOf held time).length * 8)).filter fun k =>
        bitAt (bytesOf held time) k = 1) := by
    ext p
    simp only [Set.mem_ofPred_eq, Set.mem_image, Finset.coe_filter, Finset.mem_range]
    constructor
    · rintro ⟨hp, hbit⟩
      rw [h.getBit hp] at hbit
      simp only [Option.some.injEq, Prod.mk.injEq, true_and] at hbit
      have hlt : p.toInt.toNat < (bytesOf held time).length * 8 := by
        by_contra hge
        rw [bitAt_of_length_le (by omega)] at hbit
        exact absurd hbit (by decide)
      have hpos : 0 ≤ p.toInt := by simpa using Int64.le_iff_toInt_le.1 hp
      refine ⟨p.toInt.toNat, ⟨hlt, hbit⟩, ?_⟩
      rw [← Int64.toInt_inj, hnat _ hlt]
      omega
    · rintro ⟨k, ⟨hlt, hbit⟩, rfl⟩
      have hp : 0 ≤ Int64.ofNat k := by
        rw [Int64.le_iff_toInt_le, hnat k hlt, Int64.toInt_zero]
        omega
      rw [h.getBit hp, hnat k hlt, Int.toNat_natCast, hbit]
      exact ⟨hp, rfl⟩
  rw [himage, Set.InjOn.ncard_image, Set.ncard_coe_finset, ← Nat.count_eq_card_filter_range, count_bitAt]
  intro a ha b hb heq
  simp only [Finset.coe_filter, Finset.mem_range, Set.mem_ofPred_eq] at ha hb
  have htoInt := congrArg Int64.toInt heq
  rw [hnat a ha.1, hnat b hb.1] at htoInt
  omega

theorem Holds.countsBits_iff (h : Holds db key held) (hne : bytesOf held time ≠ []) (startoffset endoffset : Int64) :
    CountsBits db key startoffset endoffset time ↔
      (bytesOf held time).length < 2 ^ 31 ∧ ones (bytesOf held time) < 2 ^ 31 := by
  have hsize := h.length_bytesOf time
  have hpos := List.length_pos_of_ne_nil hne
  have hcall : BitCountChecked none db key startoffset endoffset false time =
      (GetBitCountChecked (bytesOf held time) 0 (bytesOf held time).length).map fun ret => (.OK, ret) := by
    have hget := h.get
    cases held with
    | none => exact absurd rfl hne
    | some m =>
      have hlive : m.parsed.IsStale time = false := by
        by_contra hstale
        exact hne (by simp [bytesOf, hstale])
      have hbytes : bytesOf (some m) time = m.value := by simp [bytesOf, hlive]
      rw [hbytes] at hne hsize ⊢
      have hgetm : db.get key = some (StringsMetaValue.mk m.value m.timestamp).Encode := hget
      rw [(checked_live hgetm hlive startoffset endoffset false).2.1, bitCountOf_false (by omega), if_neg hne]
  rw [CountsBits, hcall, GetBitCountChecked]
  by_cases hsmall : (bytesOf held time).length < 2 ^ 31
  · rw [h.ncard_ones hsmall, countFrom_eq (by omega) (by omega), Nat.zero_add, List.drop_zero, List.take_length,
      Int32.zero_add]
    simp only [Option.map_some, Option.some.injEq, Prod.mk.injEq, true_and, exists_eq_left', hsmall]
    constructor
    · intro heq
      have hlt := (Int32.ofNat (ones (bytesOf held time))).toInt_lt
      omega
    · intro hlt
      exact Int32.toInt_ofNat_of_lt hlt
  · rw [countFrom_eq_none hpos (by omega)]
    exact iff_of_false (by simp) fun h => hsmall h.1

/-- In a run of `SetBit` whose calls fit each one returns the previous bit at its offset and changes that bit only,
and the first one that does not fit fails; the bits beyond the end of the value are 0, and `BitCount` counts the set
bits when its `int`s hold the number of bytes and of bits. -/
theorem setBits_bitArray (hholds : Holds db key held) {calls : List BitCall} (hcalls : ∀ c ∈ calls, c.Valid) :
    (∀ before c after, calls = before ++ c :: after → (∀ c' ∈ before, c'.Fits) →
        (WritesBit (setBits db key before) key c ↔ c.Fits)) ∧
      ((∀ c ∈ calls, c.Fits) → ∃ held', Holds (setBits db key calls) key held' ∧ ∀ time,
        (∀ p : Int64, 0 ≤ p → ((bytesOf held' time).length : Int) * 8 ≤ p.toInt →
          GetBit none (setBits db key calls) key p time = some (.OK, some 0)) ∧
        (bytesOf held' time ≠ [] → ∀ startoffset endoffset,
          (CountsBits (setBits db key calls) key startoffset endoffset time ↔
            (bytesOf held' time).length < 2 ^ 31 ∧ ones (bytesOf held' time) < 2 ^ 31))) := by
  constructor
  · rintro before c after rfl hfits
    obtain ⟨held', h⟩ := hholds.setBits fun c' hc' => ⟨hcalls c' (List.mem_append_left _ hc'), hfits c' hc'⟩
    exact h.writesBit_iff (hcalls c (by simp))
  · intro hfits
    obtain ⟨held', h⟩ := hholds.setBits fun c hc => ⟨hcalls c hc, hfits c hc⟩
    refine ⟨held', h, fun time => ⟨fun p hp hbeyond => ?_, fun hne startoffset endoffset => ?_⟩⟩
    · rw [h.getBit hp, bitAt_of_length_le (by omega)]
    · exact h.countsBits_iff hne startoffset endoffset

theorem setBits_bitArray_minusSeven : WritesBit minusSeven [107] ⟨500, 3, 1⟩ :=
  ((@setBits_bitArray minusSeven [107] (some (StringsMetaValue.mk [45, 55] 1000))
    ⟨by decide, fun m hm => by rw [← Option.some.inj hm]; decide⟩ [⟨500, 3, 1⟩]
    (fun c hc => by rw [List.mem_singleton.1 hc]; exact ⟨by decide, Or.inr rfl⟩)).1 [] _ [] rfl (by
      simp)).2 (by decide)

/-- The bit at the offset 2^34 makes a value of more than 2^31 bytes, whose bits are not counted. -/
theorem bitCount_long :
    ¬ ∀ (db : Db) (key : Slice) (held : Option StringsMetaValue) (calls : List BitCall) (time : Int),
    Holds db key held → (∀ c ∈ calls, c.Valid) →
      ∀ held', Holds (setBits db key calls) key held' → bytesOf held' time ≠ [] →
        CountsBits (setBits db key calls) key 0 0 time := by
  intro h
  have hempty : Holds SortedMap.empty [107] none := ⟨rfl, by simp⟩
  have hvalid : (⟨0, 17179869184, 1⟩ : BitCall).Valid := ⟨by decide, Or.inr rfl⟩
  obtain ⟨value, hvalue⟩ : ∃ value, writeBit [] (17179869184 : Int64).toInt.toNat 1 = value := ⟨_, rfl⟩
  have hlength : value.length = 2 ^ 31 + 1 := by
    rw [← hvalue, length_writeBit, show (17179869184 : Int64).toInt.toNat = 2 ^ 34 by decide]
    rfl
  have hfits : (StringsMetaValue.new value).Encode.length < 2 ^ 32 := by
    rw [StringsMetaValue.length_encode, StringsMetaValue.new, hlength]
    decide
  have hrun : setBits SortedMap.empty [107] [⟨0, 17179869184, 1⟩] =
      SortedMap.empty.put [107] (StringsMetaValue.new value).Encode := by
    rw [setBits, List.foldl_cons, List.foldl_nil, hempty.setBit hvalid.1, setBitOf]
    simp only [bytesOf, bitAt_nil, hvalue]
    rw [if_neg (by decide), putRecord_of_lt hfits]
  have hholds : Holds (setBits SortedMap.empty [107] [⟨0, 17179869184, 1⟩]) [107]
      (some (StringsMetaValue.new value)) := by
    refine ⟨by rw [hrun, SortedMap.get_put_self]; rfl, fun m hm => ?_⟩
    rw [← Option.some.inj hm, StringsMetaValue.new, hlength]
    decide
  have hbytes : bytesOf (some (StringsMetaValue.new value)) 0 = value := rfl
  have hne : bytesOf (some (StringsMetaValue.new value)) 0 ≠ [] := by
    rw [hbytes, ← List.length_pos_iff_ne_nil]
    omega
  have hcounts := h _ _ _ _ 0 hempty (fun c hc => by rw [List.mem_singleton.1 hc]; exact hvalid) _ hholds hne
  have hsmall := ((hholds.countsBits_iff hne 0 0).1 hcounts).1
  rw [hbytes, hlength] at hsmall
  omega

end RedisString

end RedisDb
