import SwissArmyKnife.RedisDb.StringRanges

/-!
# Reads within a string

`GetBit`, `BitCount` and `Getrange` turn their offsets into indices, each in its own way.  Here `BitCount` and
`Getrange` are run with every index, every `substr` and every sum of 64 bits checked: there is no result when one of
them goes wrong, as there is none of `GetBit`.  `offsets_within_iff` tells when they stay within the value and read
what they should.
-/

namespace RedisDb

namespace RedisString

/-! ### Checked calls -/

/-- A number of 64 bits with a sign; none when it overflows. -/
def fits64 (i : Int) : Option Int := if Fits i then some i else none

/-- An offset, counted from the end when it is negative. -/
def fromEnd (size : Int) (offset : Int64) : Option Int :=
  if 0 ≤ offset then some offset.toInt else fits64 (size + offset.toInt)

/-- `substr`, none when it throws. -/
def substr (value : Slice) (pos n : Int) : Option Slice :=
  if 0 ≤ pos ∧ pos ≤ value.length then some ((value.drop pos.toNat).take n.toNat) else none

/-- The loop of `GetBitCount` from the index `i` on, an `int`, with so many bytes left; the bytes begin at `start` in
the value.  It has no result when a byte is not within the value, or when `i` overflows. -/
def countFrom (value : Slice) (start : Nat) : Nat → Nat → Int32 → Option Int32
  | 0, _, bitnum => some bitnum
  | left + 1, i, bitnum =>
    match value[start + i]? with
    | none => none
    | some b =>
      if i + 1 < 2 ^ 31 then countFrom value start left (i + 1) (bitnum + Int32.ofNat (bitsinbyte.getD b.toNat 0))
      else none

def GetBitCountChecked (value : Slice) (start bytes : Nat) : Option Int32 := countFrom value start bytes 0 0

/-- What `BitCount` does with a live value. -/
def bitCountOf (bitvalue : Slice) (startoffset endoffset : Int64) (haverange : Bool) : Option Int32 :=
  let valuelength : Int := bitvalue.length
  if haverange then do
    let startoffset ← fromEnd valuelength startoffset
    let endoffset ← fromEnd valuelength endoffset
    let startoffset := if startoffset < 0 then 0 else startoffset
    let endoffset := if endoffset < 0 then 0 else endoffset
    let endoffset ← if valuelength ≤ endoffset then fits64 (valuelength - 1) else some endoffset
    if endoffset < startoffset then some 0
    else do
      let difference ← fits64 (endoffset - startoffset)
      let bytes ← fits64 (difference + 1)
      GetBitCountChecked bitvalue startoffset.toNat bytes.toNat
  else do
    let last ← fits64 (valuelength - 1)
    let bytes ← fits64 (max last 0 + 1)
    GetBitCountChecked bitvalue 0 bytes.toNat

def BitCountChecked (io : Option Failure) (db : Db) (key : Slice) (startoffset endoffset : Int64) (haverange : Bool)
    (time : Int) : Option (Status × Int32) :=
  match RedisDb.Get io db key with
  | .ok value =>
    let pstringsvalue := ParsedStringsMetaValue.new value
    if pstringsvalue.IsStale time then some (.NotFound "Stale", 0)
    else (bitCountOf pstringsvalue.StripSuffix startoffset endoffset haverange).map fun ret => (.OK, ret)
  | .notFound => some (.NotFound "", 0)
  | .error e => some (e.status, 0)

/-- What `Getrange` does with a live value. -/
def rangeOfChecked (value : Slice) (startoffset endoffset : Int64) : Option Slice := do
  let size : Int := value.length
  let start ← fromEnd size startoffset
  let endt ← fromEnd size endoffset
  let last ← fits64 (size - 1)
  if last < start ∨ start ≠ 0 ∧ endt < start ∨ start ≠ 0 ∧ endt < 0 then some []
  else do
    let start := if start < 0 then 0 else start
    let endt := if size ≤ endt then last else endt
    let endt := if start = 0 ∧ endt < 0 then 0 else endt
    let difference ← fits64 (endt - start)
    let n ← fits64 (difference + 1)
    substr value start n

def GetrangeChecked (io : Option Failure) (db : Db) (key : Slice) (startoffset endoffset : Int64) (time : Int) :
    Option (Status × Slice) :=
  match RedisDb.Get io db key with
  | .ok value =>
    let pstringsvalue := ParsedStringsMetaValue.new value
    if pstringsvalue.IsStale time then some (.NotFound "Stale", [])
    else (rangeOfChecked pstringsvalue.StripSuffix startoffset endoffset).map fun ret => (.OK, ret)
  | .notFound => some (.NotFound "", [])
  | .error e => some (e.status, [])

/-! ### Set bits -/

/-- How many bits of some bytes are set. -/
def ones (bytes : Slice) : Nat := (bytes.map fun b => (List.range 8).countP b.toNat.testBit).sum

@[simp] theorem ones_nil : ones [] = 0 := rfl

@[simp] theorem ones_cons (b : UInt8) (bytes : Slice) :
    ones (b :: bytes) = (List.range 8).countP b.toNat.testBit + ones bytes := by
  simp [ones]

theorem bitsinbyte_getD (b : UInt8) : bitsinbyte.getD b.toNat 0 = (List.range 8).countP b.toNat.testBit := by
  rw [bitsinbyte_eq, List.getD_eq_getElem?_getD, List.getElem?_map, List.getElem?_range b.toNat_lt]
  rfl

variable {value : Slice} {start left i : Nat}

theorem countFrom_eq (hwithin : start + i + left ≤ value.length) (hint : i + left < 2 ^ 31) (bitnum : Int32) :
    countFrom value start left i bitnum =
      some (bitnum + Int32.ofNat (ones ((value.drop (start + i)).take left))) := by
  induction left generalizing i bitnum with
  | zero => simp [countFrom]
  | succ left ih =>
    have hlt : start + i < value.length := by omega
    rw [countFrom, List.getElem?_eq_getElem hlt]
    simp only
    rw [if_pos (by omega), ih (by omega) (by omega), List.drop_eq_getElem_cons hlt, List.take_succ_cons, ones_cons,
      Int32.ofNat_add, bitsinbyte_getD, Int32.add_assoc, Nat.add_assoc]

/-- The index overflows when there are too many bytes. -/
theorem countFrom_eq_none (hleft : 0 < left) (hint : 2 ^ 31 ≤ i + left) (bitnum : Int32) :
    countFrom value start left i bitnum = none := by
  induction left generalizing i bitnum with
  | zero => omega
  | succ left ih =>
    rw [countFrom]
    split
    · rfl
    · split
      · exact ih (by omega) (by omega) _
      · rfl

/-! ### Offsets -/

/-- The number that an offset stands for. -/
def position (size : Int) (offset : Int64) : Int := if 0 ≤ offset then offset.toInt else size + offset.toInt

theorem fits64_eq {n : Int} (h : Fits n) : fits64 n = some n := if_pos h

theorem fromEnd_eq {value : Slice} (hsize : value.length < 2 ^ 63) (offset : Int64) :
    fromEnd value.length offset = some (position value.length offset) := by
  have hfits := fits_toInt offset
  unfold fromEnd position
  split
  · rfl
  · rename_i hneg
    have hlt : offset.toInt < 0 := by simpa [Int64.le_iff_toInt_le] using hneg
    obtain ⟨hmin, -⟩ := hfits
    exact fits64_eq (by rw [Fits]; omega)

/-- The bytes between two offsets, each moved into the value when it is outside. -/
def clampedRange (value : Slice) (startoffset endoffset : Int64) : Slice :=
  let start := (position value.length startoffset).toNat
  let endt := min (position value.length endoffset).toNat (value.length - 1)
  (value.drop start).take (endt + 1 - start)

private theorem toNat_eq_ite (a : Int) : (if a < 0 then 0 else a) = (a.toNat : Int) := by
  split <;> omega

/-- The sums that give the number of bytes do not overflow. -/
private theorem bind_difference {α : Type*} {start endt : Nat} (hle : start ≤ endt) (hlt : endt + 1 < 2 ^ 63)
    (f : Int → Option α) :
    ((fits64 ((endt : Int) - start)).bind fun difference => (fits64 (difference + 1)).bind f) =
      f ((endt + 1 - start : Nat) : Int) := by
  rw [fits64_eq (by rw [Fits]; omega), Option.bind_some, fits64_eq (by rw [Fits]; omega), Option.bind_some]
  congr 1
  omega

theorem bitCountOf_true (hsize : value.length < 2 ^ 63) (startoffset endoffset : Int64) :
    bitCountOf value startoffset endoffset true =
      let start := (position value.length startoffset).toNat
      let endt := min (position value.length endoffset).toNat (value.length - 1)
      if value = [] ∨ endt < start then some 0 else GetBitCountChecked value start (endt + 1 - start) := by
  have hstart := fromEnd_eq hsize startoffset
  have hendt := fromEnd_eq hsize endoffset
  have hlast : fits64 ((value.length : Int) - 1) = some ((value.length : Int) - 1) := fits64_eq (by rw [Fits]; omega)
  simp only [bitCountOf, if_true, hstart, hendt, Option.bind_eq_bind, Option.bind_some, hlast]
  simp only [toNat_eq_ite]
  generalize (position value.length startoffset).toNat = start
  generalize (position value.length endoffset).toNat = endt
  by_cases hempty : value = []
  · subst hempty
    rw [if_pos (by simp), if_pos (by simp; omega), if_pos (Or.inl rfl)]
  · have hpos := List.length_pos_of_ne_nil hempty
    have hlast : (value.length : Int) - 1 = ((value.length - 1 : Nat) : Int) := by omega
    rw [hlast]
    simp only [hempty, false_or]
    by_cases hle : (value.length : Int) ≤ endt
    · rw [if_pos hle, min_eq_right (by omega)]
      by_cases hlt : value.length - 1 < start
      · rw [if_pos hlt, if_pos (by omega)]
      · rw [if_neg hlt, if_neg (by omega), bind_difference (by omega) (by omega)]
        rfl
    · rw [if_neg hle, min_eq_left (by omega)]
      by_cases hlt : endt < start
      · rw [if_pos hlt, if_pos (by omega)]
      · rw [if_neg hlt, if_neg (by omega), bind_difference (by omega) (by omega)]
        rfl

theorem bitCountOf_false (hsize : value.length < 2 ^ 63) (startoffset endoffset : Int64) :
    bitCountOf value startoffset endoffset false =
      if value = [] then none else GetBitCountChecked value 0 value.length := by
  have hlast : fits64 ((value.length : Int) - 1) = some ((value.length : Int) - 1) := fits64_eq (by rw [Fits]; omega)
  have hbytes : fits64 (max ((value.length : Int) - 1) 0 + 1) = some (max ((value.length : Int) - 1) 0 + 1) :=
    fits64_eq (by rw [Fits]; omega)
  simp only [bitCountOf, Bool.false_eq_true, if_false, Option.bind_eq_bind, Option.bind_some, hlast, hbytes]
  split
  · rename_i hempty
    subst hempty
    rfl
  · rename_i hne
    have hpos := List.length_pos_of_ne_nil hne
    congr 1
    omega

theorem length_clampedRange (value : Slice) (startoffset endoffset : Int64) :
    (clampedRange value startoffset endoffset).length =
      min (min (position value.length endoffset).toNat (value.length - 1) + 1 -
        (position value.length startoffset).toNat) (value.length - (position value.length startoffset).toNat) := by
  simp only [clampedRange, List.length_take, List.length_drop]

/-- `BitCount` with a range counts the bits between the clamped offsets when an `int` holds the number of bytes and
that of bits. -/
theorem bitCountOf_true_iff (hsize : value.length < 2 ^ 63) (startoffset endoffset : Int64) :
    (∃ ret, bitCountOf value startoffset endoffset true = some ret ∧
        ret.toInt = ones (clampedRange value startoffset endoffset)) ↔
      (clampedRange value startoffset endoffset).length < 2 ^ 31 ∧
        ones (clampedRange value startoffset endoffset) < 2 ^ 31 := by
  rw [bitCountOf_true hsize, length_clampedRange, clampedRange]
  simp only
  generalize (position value.length startoffset).toNat = start
  have hlast : min (position value.length endoffset).toNat (value.length - 1) ≤ value.length - 1 := min_le_right ..
  generalize min (position value.length endoffset).toNat (value.length - 1) = endt at hlast ⊢
  by_cases hnone : value = [] ∨ endt < start
  · rw [if_pos hnone]
    have hempty : (value.drop start).take (endt + 1 - start) = [] := by
      rcases hnone with rfl | hlt
      · simp
      · rw [show endt + 1 - start = 0 by omega, List.take_zero]
    have hlength : min (endt + 1 - start) (value.length - start) = 0 := by
      rcases hnone with rfl | hlt
      · simp
      · omega
    rw [hempty, hlength]
    exact iff_of_true ⟨0, rfl, rfl⟩ ⟨by decide, by decide⟩
  · rw [if_neg hnone]
    obtain ⟨hne, hle⟩ := not_or.1 hnone
    have hpos := List.length_pos_of_ne_nil hne
    rw [min_eq_left (by omega), GetBitCountChecked]
    by_cases hint : endt + 1 - start < 2 ^ 31
    · rw [countFrom_eq (by omega) (by omega)]
      simp only [Int32.zero_add, Nat.add_zero, Option.some.injEq, exists_eq_left', hint, true_and]
      constructor
      · intro heq
        have hlt := (Int32.ofNat (ones ((value.drop start).take (endt + 1 - start)))).toInt_lt
        omega
      · intro hlt
        exact Int32.toInt_ofNat_of_lt hlt
    · rw [countFrom_eq_none (by omega) (by omega)]
      exact iff_of_false (fun ⟨_, h, _⟩ => by simp at h) fun h => hint h.1

/-- `BitCount` without a range stays within the value when there is one, and an `int` holds its length. -/
theorem bitCountOf_false_iff (hsize : value.length < 2 ^ 63) (startoffset endoffset : Int64) :
    bitCountOf value startoffset endoffset false ≠ none ↔ value ≠ [] ∧ value.length < 2 ^ 31 := by
  rw [bitCountOf_false hsize]
  by_cases hempty : value = []
  · simp [hempty]
  · rw [if_neg hempty, GetBitCountChecked]
    have hpos := List.length_pos_of_ne_nil hempty
    by_cases hint : value.length < 2 ^ 31
    · rw [countFrom_eq (by omega) (by omega)]
      exact iff_of_true (by simp) ⟨hempty, hint⟩
    · rw [countFrom_eq_none hpos (by omega)]
      exact iff_of_false (by simp) fun h => hint h.2

theorem toInt_shiftRight_three (offset : Int64) : (offset >>> 3).toInt = offset.toInt / 8 := by
  have hshift : (offset >>> 3).toInt = offset.toInt >>> (3 : ℕ) := by
    rw [← Int64.toInt_toBitVec, Int64.toBitVec_shiftRight]
    exact BitVec.toInt_sshiftRight
  rw [hshift, Int.shiftRight_eq_div_pow]
  rfl

theorem toNat_toUInt64 (a : Int64) :
    (a.toUInt64.toNat : Int) = if 0 ≤ a.toInt then a.toInt else a.toInt + 2 ^ 64 := by
  have hcond := BitVec.toInt_eq_toNat_cond a.toBitVec
  have hlt := a.toUInt64.toNat_lt
  rw [Int64.toInt_toBitVec, Int64.toNat_toBitVec] at hcond
  split at hcond <;> split <;> omega

/-- The size is compared with the index plus 1, which may wrap around. -/
theorem length_lt_succ_iff (hsize : value.length < 2 ^ 63) (byte : UInt64) :
    UInt64.ofNat value.length < byte + 1 ↔ value.length < (byte.toNat + 1) % 2 ^ 64 := by
  rw [UInt64.lt_iff_toNat_lt, UInt64.toNat_ofNat_of_lt' (by simp only [UInt64.size]; omega), UInt64.toNat_add]
  rfl

/-- `GetBit` stays within the value unless the index of the byte is -1 before it loses its sign. -/
theorem readBit_ne_none_iff (hsize : value.length < 2 ^ 63) (offset : Int64) :
    readBit value offset ≠ none ↔ ¬ (-8 ≤ offset ∧ offset < 0) := by
  have hbyte := toNat_toUInt64 (offset >>> 3)
  rw [toInt_shiftRight_three] at hbyte
  have hfits := fits_toInt offset
  obtain ⟨hmin, hmax⟩ := hfits
  have height : (-8 : Int64).toInt = -8 := rfl
  rw [Int64.le_iff_toInt_le, Int64.lt_iff_toInt_lt, Int64.toInt_zero, height]
  simp only [readBit]
  generalize (offset >>> 3).toUInt64 = byte at hbyte ⊢
  have hlt := byte.toNat_lt
  simp only [length_lt_succ_iff hsize]
  by_cases hmissing : value.length < (byte.toNat + 1) % 2 ^ 64
  · rw [if_pos hmissing]
    refine iff_of_true (by simp) ?_
    split at hbyte <;> omega
  · rw [if_neg hmissing]
    -- The sum wraps at the index -1 only.
    by_cases hwrap : byte.toNat + 1 = 2 ^ 64
    · rw [List.getElem?_eq_none (by omega)]
      refine iff_of_false (by simp) ?_
      split at hbyte <;> omega
    · rw [List.getElem?_eq_getElem (by omega)]
      refine iff_of_true (by simp) ?_
      split at hbyte <;> omega

/-- `Getrange` returns the bytes between the clamped offsets unless both are before the value. -/
theorem rangeOfChecked_eq_iff (hsize : value.length < 2 ^ 63) (startoffset endoffset : Int64) :
    rangeOfChecked value startoffset endoffset = some (clampedRange value startoffset endoffset) ↔
      ¬ (value ≠ [] ∧ position value.length startoffset < 0 ∧ position value.length endoffset < 0) := by
  have hstart := fromEnd_eq hsize startoffset
  have hendt := fromEnd_eq hsize endoffset
  have hlast : fits64 ((value.length : Int) - 1) = some ((value.length : Int) - 1) := fits64_eq (by rw [Fits]; omega)
  simp only [rangeOfChecked, clampedRange, hstart, hendt, Option.bind_eq_bind, Option.bind_some, hlast]
  generalize position value.length startoffset = start
  generalize position value.length endoffset = endt
  by_cases hearly : (value.length : Int) - 1 < start ∨ start ≠ 0 ∧ endt < start ∨ start ≠ 0 ∧ endt < 0
  · rw [if_pos hearly, Option.some.injEq, eq_comm, ← List.length_eq_zero_iff, List.length_take, List.length_drop,
      ← List.length_pos_iff_ne_nil]
    omega
  · rw [if_neg hearly]
    refine iff_of_true ?_ (by omega)
    have hend : (if (if start < 0 then 0 else start) = 0 ∧ (if (value.length : Int) ≤ endt then
        (value.length : Int) - 1 else endt) < 0 then 0 else if (value.length : Int) ≤ endt then
        (value.length : Int) - 1 else endt) = ((min endt.toNat (value.length - 1) : Nat) : Int) := by
      split <;> split at * <;> omega
    rw [hend, toNat_eq_ite, bind_difference (by omega) (by omega), substr, if_pos (by omega)]
    rfl

/-! ### The calls -/

theorem getBitCount_eq (bytes : Slice) (n : Nat) : GetBitCount bytes n = Int32.ofNat (ones (bytes.take n)) := by
  simp only [GetBitCount, ones, bitsinbyte_getD]

private theorem position_eq_ite (size : Int) (offset : Int64) :
    (if offset < 0 then offset.toInt + size else offset.toInt) = position size offset := by
  have hsign : offset < 0 ↔ ¬ 0 ≤ offset := Int64.not_le.symm
  unfold position
  by_cases hpos : 0 ≤ offset
  · rw [if_pos hpos, if_neg (by rw [hsign]; exact not_not_intro hpos)]
  · rw [if_neg hpos, if_pos (hsign.2 hpos), Int.add_comm]

/-- The checked loop counts what `GetBitCount` counts. -/
theorem getBitCountChecked_eq {n : Nat} {ret : Int32} (hwithin : start + n ≤ value.length)
    (h : GetBitCountChecked value start n = some ret) : GetBitCount (value.drop start) n = ret := by
  rw [GetBitCountChecked] at h
  by_cases hint : n < 2 ^ 31
  · rw [countFrom_eq (by omega) (by omega), Int32.zero_add, Nat.add_zero, Option.some.injEq] at h
    rw [getBitCount_eq, h]
  · rw [countFrom_eq_none (by omega) (by omega)] at h
    exact absurd h (by simp)

variable {db : Db} {key : Slice} {t : Int32} {time : Int}

/-- A checked call that stays within the value is the call. -/
theorem bitCountChecked_eq (hget : db.get key = some (StringsMetaValue.mk value t).Encode)
    (hsize : value.length < 2 ^ 63) {startoffset endoffset : Int64} {haverange : Bool} {r : Status × Int32}
    (h : BitCountChecked none db key startoffset endoffset haverange time = some r) :
    BitCount none db key startoffset endoffset haverange time = r := by
  have hread : RedisDb.Get none db key = .ok (StringsMetaValue.mk value t).Encode := by simp [RedisDb.Get, hget]
  simp only [BitCountChecked, BitCount, hread, StringsMetaValue.new_encode,
    StringsMetaValue.stripSuffix_parsed] at h ⊢
  split at h
  · rename_i hstale
    rw [if_pos hstale]
    exact Option.some.inj h
  · rename_i hlive
    rw [if_neg hlive]
    obtain ⟨ret, hret, rfl⟩ := Option.map_eq_some_iff.1 h
    cases haverange with
    | false =>
      rw [bitCountOf_false hsize] at hret
      split at hret
      · exact absurd hret (by simp)
      · rename_i hne
        have hpos := List.length_pos_of_ne_nil hne
        have hcount := getBitCountChecked_eq (by omega) hret
        rw [List.drop_zero] at hcount
        rw [if_neg (by simp), show (max ((value.length : Int) - 1) 0 + 1).toNat = value.length by omega, hcount]
    | true =>
      rw [bitCountOf_true hsize] at hret
      simp only [if_true, position_eq_ite, toNat_eq_ite]
      simp only at hret
      generalize (position value.length startoffset).toNat = start at hret ⊢
      generalize (position value.length endoffset).toNat = endt at hret ⊢
      split at hret
      · rename_i hnone
        rw [if_pos ?_, Option.some.inj hret]
        rcases hnone with rfl | hlt
        · rw [if_pos (by simp)]
          simp
          omega
        · split <;> omega
      · rename_i hsome
        obtain ⟨hne, hle⟩ := not_or.1 hsome
        have hpos := List.length_pos_of_ne_nil hne
        have hcount := getBitCountChecked_eq (by omega) hret
        rw [if_neg (by split <;> omega), Int.toNat_natCast, ← hcount]
        congr 2
        split <;> omega

/-- The checked `Getrange` is `Getrange`. -/
theorem rangeOfChecked_eq (hsize : value.length < 2 ^ 63) (startoffset endoffset : Int64) :
    rangeOfChecked value startoffset endoffset = some (rangeOf value startoffset endoffset) := by
  have hstart := fromEnd_eq hsize startoffset
  have hendt := fromEnd_eq hsize endoffset
  have hlast : fits64 ((value.length : Int) - 1) = some ((value.length : Int) - 1) := fits64_eq (by rw [Fits]; omega)
  simp only [rangeOfChecked, hstart, hendt, Option.bind_eq_bind, Option.bind_some, hlast]
  simp only [rangeOf, ← position.eq_1]
  generalize position value.length startoffset = start
  generalize position value.length endoffset = endt
  split
  · rfl
  · rename_i hearly
    have hbounds : ∀ first last : Int, first = (if start < 0 then 0 else start) →
        last = (if first = 0 ∧ (if (value.length : Int) ≤ endt then (value.length : Int) - 1 else endt) < 0 then 0
          else if (value.length : Int) ≤ endt then (value.length : Int) - 1 else endt) →
        0 ≤ first ∧ first ≤ value.length ∧ first ≤ last ∧ last ≤ value.length := by
      intro first last hfirst hlast
      split at hlast <;> split at * <;> omega
    obtain ⟨h0, hfirst, hle, hmax⟩ := hbounds _ _ rfl rfl
    rw [fits64_eq (by rw [Fits]; omega), Option.bind_some, fits64_eq (by rw [Fits]; omega), Option.bind_some, substr,
      if_pos ⟨h0, hfirst⟩]

/-- The checked calls on a live value. -/
theorem checked_live (hget : db.get key = some (StringsMetaValue.mk value t).Encode)
    (hlive : (StringsMetaValue.mk value t).parsed.IsStale time = false) (startoffset endoffset : Int64)
    (haverange : Bool) :
    GetBit none db key startoffset time = (readBit value startoffset).map (fun ret => (.OK, some ret)) ∧
      BitCountChecked none db key startoffset endoffset haverange time =
        (bitCountOf value startoffset endoffset haverange).map (fun ret => (.OK, ret)) ∧
      GetrangeChecked none db key startoffset endoffset time =
        (rangeOfChecked value startoffset endoffset).map (fun ret => (.OK, ret)) := by
  have hread : RedisDb.Get none db key = .ok (StringsMetaValue.mk value t).Encode := by simp [RedisDb.Get, hget]
  refine ⟨?_, ?_, ?_⟩
  · simp only [GetBit, hread, StringsMetaValue.new_encode, hlive, Bool.false_eq_true, if_false]
    rfl
  · simp only [BitCountChecked, hread, StringsMetaValue.new_encode, hlive, Bool.false_eq_true, if_false,
      StringsMetaValue.stripSuffix_parsed]
  · simp only [GetrangeChecked, hread, StringsMetaValue.new_encode, hlive, Bool.false_eq_true, if_false,
      StringsMetaValue.stripSuffix_parsed]

/-- On a live value `GetBit` stays within it unless its offset is one of the eight below zero, `BitCount` without a
range when the value is not empty and an `int` holds its length, `BitCount` with a range counts the range when an
`int` holds the number of its bytes and of its bits, and `Getrange` returns the range unless both ends are before the
value. -/
theorem offsets_within_iff (hget : db.get key = some (StringsMetaValue.mk value t).Encode)
    (hlive : (StringsMetaValue.mk value t).parsed.IsStale time = false) (hsize : value.length < 2 ^ 63)
    (startoffset endoffset : Int64) :
    (GetBit none db key startoffset time ≠ none ↔ ¬ (-8 ≤ startoffset ∧ startoffset < 0)) ∧
      (BitCountChecked none db key startoffset endoffset false time ≠ none ↔ value ≠ [] ∧ value.length < 2 ^ 31) ∧
      ((∃ ret, BitCountChecked none db key startoffset endoffset true time = some (.OK, ret) ∧
          ret.toInt = ones (clampedRange value startoffset endoffset)) ↔
        (clampedRange value startoffset endoffset).length < 2 ^ 31 ∧
          ones (clampedRange value startoffset endoffset) < 2 ^ 31) ∧
      (GetrangeChecked none db key startoffset endoffset time =
          some (.OK, clampedRange value startoffset endoffset) ↔
        ¬ (value ≠ [] ∧ position value.length startoffset < 0 ∧ position value.length endoffset < 0)) := by
  obtain ⟨hbit, -, hrange⟩ := checked_live hget hlive startoffset endoffset true
  have hcount := fun haverange => (checked_live hget hlive startoffset endoffset haverange).2.1
  rw [hbit, hrange, hcount, hcount]
  refine ⟨?_, ?_, ?_, ?_⟩
  · rw [← readBit_ne_none_iff hsize, ne_eq, ne_eq, Option.map_eq_none_iff]
  · rw [← bitCountOf_false_iff hsize startoffset endoffset, ne_eq, ne_eq, Option.map_eq_none_iff]
  · rw [← bitCountOf_true_iff hsize]
    simp [Option.map_eq_some_iff]
  · rw [← rangeOfChecked_eq_iff hsize]
    simp [Option.map_eq_some_iff]

theorem offsets_within_iff_minusSeven :
    GetrangeChecked none minusSeven [107] (-2) (-1) 500 = some (.OK, clampedRange [45, 55] (-2) (-1)) :=
  ((offsets_within_iff (show minusSeven.get [107] = some (StringsMetaValue.mk [45, 55] 1000).Encode by decide)
    (by decide)
    (by decide) (-2) (-1)).2.2.2).2 (by decide)

/-- `GetBit` at the offset -1 reads outside of every value. -/
theorem getBit_before : ¬ ∀ (db : Db) (key value : Slice) (t : Int32) (time : Int) (offset : Int64),
    db.get key = some (StringsMetaValue.mk value t).Encode →
      (StringsMetaValue.mk value t).parsed.IsStale time = false → GetBit none db key offset time ≠ none := by
  intro h
  exact h minusSeven [107] [45, 55] 1000 500 (-1) (by decide) (by decide) (by decide)

end RedisString

end RedisDb
