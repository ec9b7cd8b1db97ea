import Mathlib.Data.List.Basic
import Mathlib.Tactic.Common
import Mathlib.Tactic.Ring
import SwissArmyKnife.Lib.Readers

/-!
# Fixed-width and varint codecs

`EncodeFixed32`, `EncodeFixed64`, `EncodeVarint32`, `EncodeVarint64` and the length-prefixed slices of the on-disk
formats, with their readers.  Each reader undoes its writer and leaves what follows (`decodeFixed32_append`,
`getVarint32_append`, `getLengthPrefixedSlice_append`).  A varint or a length-prefixed slice that is cut short is not
read (`reads_varint32`, `reads_varint64`, `reads_lengthPrefixedSlice`).
-/

namespace RedisDb

open Readers (Reads)

abbrev Slice := List UInt8

/-! ### Fixed-width integers -/

def EncodeFixed32 (value : UInt32) : Slice :=
  [value.toUInt8, (value >>> 8).toUInt8, (value >>> 16).toUInt8, (value >>> 24).toUInt8]

def DecodeFixed32 (p : Slice) : UInt32 :=
  (p.getD 0 0).toUInt32 ||| ((p.getD 1 0).toUInt32 <<< 8) ||| ((p.getD 2 0).toUInt32 <<< 16) |||
    ((p.getD 3 0).toUInt32 <<< 24)

def EncodeFixed64 (value : UInt64) : Slice :=
  EncodeFixed32 value.toUInt32 ++ EncodeFixed32 (value >>> 32).toUInt32

def DecodeFixed64 (p : Slice) : UInt64 :=
  ((DecodeFixed32 (p.drop 4)).toUInt64 <<< 32) ||| (DecodeFixed32 p).toUInt64

@[simp] theorem length_encodeFixed32 (value : UInt32) : (EncodeFixed32 value).length = 4 := rfl

@[simp] theorem length_encodeFixed64 (value : UInt64) : (EncodeFixed64 value).length = 8 := rfl

/-- Numbers without common bits. -/
private theorem or_shiftLeft {x i : Nat} (h : x < 2 ^ i) (y : Nat) : x ||| y <<< i = x + 2 ^ i * y := by
  rw [Nat.shiftLeft_eq, Nat.mul_comm, Nat.or_comm, ← Nat.two_pow_add_eq_or_of_lt h, Nat.add_comm]

/-- The bytes are the digits of what they decode to. -/
private theorem toNat_decodeFixed32 (a b c d : UInt8) (rest : Slice) :
    (DecodeFixed32 (a :: b :: c :: d :: rest)).toNat =
      a.toNat + 2 ^ 8 * b.toNat + 2 ^ 16 * c.toNat + 2 ^ 24 * d.toNat := by
  have ha := a.toNat_lt
  have hb := b.toNat_lt
  have hc := c.toNat_lt
  have hd := d.toNat_lt
  change ((a.toNat ||| b.toNat <<< 8 % 2 ^ 32) ||| c.toNat <<< 16 % 2 ^ 32) ||| d.toNat <<< 24 % 2 ^ 32 = _
  rw [Nat.mod_eq_of_lt (by rw [Nat.shiftLeft_eq]; omega), Nat.mod_eq_of_lt (by rw [Nat.shiftLeft_eq]; omega),
    Nat.mod_eq_of_lt (by rw [Nat.shiftLeft_eq]; omega), or_shiftLeft ha, or_shiftLeft (i := 16) (by omega),
    or_shiftLeft (i := 24) (by omega)]

private theorem toNat_byte (v : UInt32) {i : UInt32} (h : i.toNat < 32) :
    (v >>> i).toUInt8.toNat = v.toNat / 2 ^ i.toNat % 2 ^ 8 := by
  rw [UInt32.toNat_toUInt8, UInt32.toNat_shiftRight, Nat.mod_eq_of_lt h, Nat.shiftRight_eq_div_pow]

theorem decodeFixed32_append (value : UInt32) (rest : Slice) :
    DecodeFixed32 (EncodeFixed32 value ++ rest) = value := by
  apply UInt32.toNat_inj.1
  have hlt := value.toNat_lt
  have hfirst : value.toUInt8.toNat = value.toNat % 2 ^ 8 := UInt32.toNat_toUInt8 value
  refine (toNat_decodeFixed32 ..).trans ?_
  rw [hfirst, toNat_byte _ (by decide), toNat_byte _ (by decide), toNat_byte _ (by decide)]
  change value.toNat % 2 ^ 8 + 2 ^ 8 * (value.toNat / 2 ^ 8 % 2 ^ 8) + 2 ^ 16 * (value.toNat / 2 ^ 16 % 2 ^ 8) +
    2 ^ 24 * (value.toNat / 2 ^ 24 % 2 ^ 8) = _
  omega

/-- Four bytes are the encoding of what they decode to. -/
theorem encodeFixed32_decodeFixed32 {p : Slice} (hlen : p.length = 4) : EncodeFixed32 (DecodeFixed32 p) = p := by
  obtain ⟨a, b, c, d, rfl⟩ : ∃ a b c d, p = [a, b, c, d] := List.length_eq_four.1 hlen
  have hvalue := toNat_decodeFixed32 a b c d []
  have ha := a.toNat_lt
  have hb := b.toNat_lt
  have hc := c.toNat_lt
  have hd := d.toNat_lt
  simp only [EncodeFixed32, List.cons.injEq, ← UInt8.toNat_inj, and_true, UInt32.toNat_toUInt8, hvalue,
    toNat_byte _ (show (8 : UInt32).toNat < 32 by decide), toNat_byte _ (show (16 : UInt32).toNat < 32 by decide),
    toNat_byte _ (show (24 : UInt32).toNat < 32 by decide)]
  simp only [UInt32.reduceToNat]
  omega

/-- Two halves are the digits of what they decode to. -/
private theorem toNat_halves (low high : UInt32) :
    ((high.toUInt64 <<< 32) ||| low.toUInt64).toNat = low.toNat + 2 ^ 32 * high.toNat := by
  have hlow := low.toNat_lt
  have hhigh := high.toNat_lt
  change high.toNat <<< 32 % 2 ^ 64 ||| low.toNat = _
  rw [Nat.mod_eq_of_lt (by rw [Nat.shiftLeft_eq]; omega), Nat.or_comm, or_shiftLeft hlow]

private theorem toNat_upper (v : UInt64) : (v >>> 32).toUInt32.toNat = v.toNat / 2 ^ 32 % 2 ^ 32 := by
  rw [UInt64.toNat_toUInt32, UInt64.toNat_shiftRight, Nat.shiftRight_eq_div_pow]
  rfl

theorem decodeFixed64_append (value : UInt64) (rest : Slice) :
    DecodeFixed64 (EncodeFixed64 value ++ rest) = value := by
  have hdrop : (EncodeFixed64 value ++ rest).drop 4 = EncodeFixed32 (value >>> 32).toUInt32 ++ rest := rfl
  have htake : EncodeFixed64 value ++ rest =
      EncodeFixed32 value.toUInt32 ++ (EncodeFixed32 (value >>> 32).toUInt32 ++ rest) := rfl
  rw [DecodeFixed64, hdrop, decodeFixed32_append, htake, decodeFixed32_append]
  apply UInt64.toNat_inj.1
  have hlt := value.toNat_lt
  rw [toNat_halves, toNat_upper, UInt64.toNat_toUInt32]
  omega

/-- The bytes of a slice at an offset are the encoding of what is decoded there. -/
theorem exists_encodeFixed32 {p : Slice} (hlen : p.length = 4) : ∃ value, p = EncodeFixed32 value :=
  ⟨_, (encodeFixed32_decodeFixed32 hlen).symm⟩

theorem exists_encodeFixed64 {p : Slice} (hlen : p.length = 8) : ∃ value, p = EncodeFixed64 value := by
  obtain ⟨low, hlow⟩ := exists_encodeFixed32 (p := p.take 4) (by simp [hlen])
  obtain ⟨high, hhigh⟩ := exists_encodeFixed32 (p := p.drop 4) (by simp [hlen])
  refine ⟨(high.toUInt64 <<< 32) ||| low.toUInt64, ?_⟩
  have hvalue := toNat_halves low high
  have hfirst : ((high.toUInt64 <<< 32) ||| low.toUInt64).toUInt32 = low := by
    apply UInt32.toNat_inj.1
    have := low.toNat_lt
    rw [UInt64.toNat_toUInt32, hvalue]
    omega
  have hsecond : (((high.toUInt64 <<< 32) ||| low.toUInt64) >>> 32).toUInt32 = high := by
    apply UInt32.toNat_inj.1
    have := low.toNat_lt
    have := high.toNat_lt
    rw [toNat_upper, hvalue]
    omega
  rw [EncodeFixed64, hfirst, hsecond, ← hlow, ← hhigh, List.take_append_drop]

/-! ### Varints -/

def EncodeVarint32 (v : UInt32) : Slice :=
  let B : UInt32 := 128
  if v < (1 : UInt32) <<< 7 then [v.toUInt8]
  else if v < (1 : UInt32) <<< 14 then [(v ||| B).toUInt8, (v >>> 7).toUInt8]
  else if v < (1 : UInt32) <<< 21 then [(v ||| B).toUInt8, ((v >>> 7) ||| B).toUInt8, (v >>> 14).toUInt8]
  else if v < (1 : UInt32) <<< 28 then
    [(v ||| B).toUInt8, ((v >>> 7) ||| B).toUInt8, ((v >>> 14) ||| B).toUInt8, (v >>> 21).toUInt8]
  else
    [(v ||| B).toUInt8, ((v >>> 7) ||| B).toUInt8, ((v >>> 14) ||| B).toUInt8, ((v >>> 21) ||| B).toUInt8,
      (v >>> 28).toUInt8]

/-- The loop of `GetVarint32PtrFallback`: the bytes seen so far are in `result`. -/
def GetVarint32PtrFallback (shift : UInt32) (result : UInt32) : Slice → Option (UInt32 × Slice)
  | [] => none
  | byte :: p =>
    if shift ≤ 28 then
      if byte &&& 128 ≠ 0 then
        GetVarint32PtrFallback (shift + 7) (result ||| ((byte &&& 127).toUInt32 <<< shift)) p
      else some (result ||| (byte.toUInt32 <<< shift), p)
    else none

def GetVarint32 (input : Slice) : Option (UInt32 × Slice) :=
  match input with
  | byte :: p => if byte &&& 128 = 0 then some (byte.toUInt32, p) else GetVarint32PtrFallback 0 0 (byte :: p)
  | [] => GetVarint32PtrFallback 0 0 []

/-- The continuation bit of a byte is set. -/
private theorem or_128_and (b : UInt8) : (b ||| 128) &&& 128 ≠ 0 := by
  intro h
  have h : (b.toNat ||| 128) &&& 128 = 0 := congrArg UInt8.toNat h
  rw [Nat.and_or_distrib_right] at h
  exact absurd (Nat.or_eq_zero_iff.1 h).2 (by decide)

/-- The other bits of a byte with the continuation bit. -/
private theorem toNat_or_128_and (b : UInt8) : ((b ||| 128) &&& 127).toNat = b.toNat % 2 ^ 7 := by
  change (b.toNat ||| 128) &&& (2 ^ 7 - 1) = _
  rw [Nat.and_two_pow_sub_one_eq_mod, Nat.or_mod_two_pow]
  exact Nat.or_zero _

private theorem low_byte_and (w : UInt32) : (w ||| 128).toUInt8 &&& 128 ≠ 0 := by
  rw [UInt32.toUInt8_or]
  exact or_128_and _

/-- A byte below 128 has no continuation bit. -/
theorem and_128_eq_zero {b : UInt8} (h : b.toNat < 128) : b &&& 128 = 0 := by
  apply UInt8.toNat_inj.1
  change b.toNat &&& 2 ^ 7 = 0
  rw [← Nat.and_two_pow_sub_one_of_lt_two_pow (n := 7) h, Nat.and_assoc]
  exact Nat.and_zero _

private theorem high_bit_zero {w : UInt32} (h : w.toNat < 128) : w.toUInt8 &&& 128 = 0 := by
  apply and_128_eq_zero
  rw [UInt32.toNat_toUInt8]
  omega

/-- A byte is put above the bits that were read. -/
private theorem toNat_or_byte {result shift v : UInt32} {byte : UInt8} (hs : shift.toNat ≤ 28)
    (hr : result.toNat = v.toNat % 2 ^ shift.toNat) (hbyte : byte.toNat ≤ v.toNat / 2 ^ shift.toNat) :
    (result ||| (byte.toUInt32 <<< shift)).toNat = v.toNat % 2 ^ shift.toNat + 2 ^ shift.toNat * byte.toNat := by
  have hlt := v.toNat_lt
  have hle : byte.toNat * 2 ^ shift.toNat ≤ v.toNat := (Nat.le_div_iff_mul_le (Nat.two_pow_pos _)).1 hbyte
  rw [UInt32.toNat_or, UInt32.toNat_shiftLeft, UInt8.toNat_toUInt32,
    Nat.mod_eq_of_lt (show shift.toNat < 32 by omega), Nat.mod_eq_of_lt (by rw [Nat.shiftLeft_eq]; omega), hr,
    or_shiftLeft (Nat.mod_lt _ (Nat.two_pow_pos _))]

/-- A continuation byte adds seven bits to the result. -/
private theorem fallback_more {shift result v : UInt32} (hs : shift.toNat ≤ 28)
    (hr : result.toNat = v.toNat % 2 ^ shift.toNat) :
    ∃ result' : UInt32, result'.toNat = v.toNat % 2 ^ (shift + 7).toNat ∧
      ∀ p, GetVarint32PtrFallback shift result (((v >>> shift) ||| 128).toUInt8 :: p) =
        GetVarint32PtrFallback (shift + 7) result' p := by
  have hle : shift ≤ 28 := hs
  have h7 : (shift + 7).toNat = shift.toNat + 7 := by
    rw [UInt32.toNat_add]
    exact Nat.mod_eq_of_lt (by simp; omega)
  have hbyte : (((v >>> shift) ||| 128).toUInt8 &&& 127).toNat = v.toNat / 2 ^ shift.toNat % 2 ^ 7 := by
    rw [UInt32.toUInt8_or]
    refine (toNat_or_128_and _).trans ?_
    rw [UInt32.toNat_toUInt8, UInt32.toNat_shiftRight, Nat.mod_eq_of_lt (show shift.toNat < 32 by omega),
      Nat.shiftRight_eq_div_pow]
    omega
  refine ⟨_, ?_, fun p => by rw [GetVarint32PtrFallback, if_pos hle, if_pos (low_byte_and _)]⟩
  rw [toNat_or_byte hs hr (hbyte.trans_le (Nat.mod_le _ _)), hbyte, h7, Nat.pow_add, Nat.mod_mul]

/-- The last byte completes the value. -/
private theorem fallback_last {shift result v : UInt32} (hs : shift.toNat ≤ 28)
    (hr : result.toNat = v.toNat % 2 ^ shift.toNat) (hv : (v >>> shift).toNat < 128) (p : Slice) :
    GetVarint32PtrFallback shift result ((v >>> shift).toUInt8 :: p) = some (v, p) := by
  have hle : shift ≤ 28 := hs
  rw [GetVarint32PtrFallback, if_pos hle, if_neg (by simp [high_bit_zero hv])]
  refine congrArg some (Prod.ext ?_ rfl)
  apply UInt32.toNat_inj.1
  have hbyte : (v >>> shift).toUInt8.toNat = v.toNat / 2 ^ shift.toNat := by
    rw [UInt32.toNat_toUInt8, Nat.mod_eq_of_lt (by omega), UInt32.toNat_shiftRight,
      Nat.mod_eq_of_lt (show shift.toNat < 32 by omega), Nat.shiftRight_eq_div_pow]
  rw [toNat_or_byte hs hr hbyte.le, hbyte, Nat.mod_add_div]

private theorem getVarint32_eq_fallback (input : Slice) : GetVarint32 input = GetVarint32PtrFallback 0 0 input := by
  cases input with
  | nil => rfl
  | cons byte p =>
    rw [GetVarint32]
    split
    · rename_i h
      simp [GetVarint32PtrFallback, h]
    · rfl

private theorem shiftRight_lt {v k : UInt32} {n : Nat} (hk : k.toNat < 32) (h : v.toNat < 2 ^ k.toNat * n) :
    (v >>> k).toNat < n := by
  rw [UInt32.toNat_shiftRight, Nat.shiftRight_eq_div_pow, Nat.mod_eq_of_lt hk]
  exact Nat.div_lt_of_lt_mul h

theorem getVarint32_append (v : UInt32) (rest : Slice) : GetVarint32 (EncodeVarint32 v ++ rest) = some (v, rest) := by
  rw [getVarint32_eq_fallback, EncodeVarint32]
  have h0 : (0 : UInt32).toNat = v.toNat % 2 ^ (0 : UInt32).toNat := by simp [Nat.mod_one]
  have hv := v.toNat_lt
  -- the bytes are those of the shifts 0, 7, 14, 21 and 28
  have e0 : v >>> 0 = v := UInt32.shiftRight_zero
  split
  · rename_i h
    have hlast := fallback_last (by decide) h0 (shiftRight_lt (by decide) h) rest
    rwa [e0] at hlast
  obtain ⟨r1, hr1, e1⟩ := fallback_more (by decide) h0
  rw [e0] at e1
  split
  · rename_i h
    exact (e1 _).trans (fallback_last (by decide) hr1 (shiftRight_lt (by decide) h) rest)
  obtain ⟨r2, hr2, e2⟩ := fallback_more (by decide) hr1
  split
  · rename_i h
    exact ((e1 _).trans (e2 _)).trans
      (fallback_last (by decide) hr2 (shiftRight_lt (by decide) h) rest)
  obtain ⟨r3, hr3, e3⟩ := fallback_more (by decide) hr2
  split
  · rename_i h
    exact (((e1 _).trans (e2 _)).trans (e3 _)).trans
      (fallback_last (by decide) hr3 (shiftRight_lt (by decide) h) rest)
  obtain ⟨r4, hr4, e4⟩ := fallback_more (by decide) hr3
  have hlast : (v >>> 28).toNat < 128 := shiftRight_lt (by decide) (by simp; omega)
  exact ((((e1 _).trans (e2 _)).trans (e3 _)).trans (e4 _)).trans (fallback_last (by decide) hr4 hlast rest)

/-- The bytes with a continuation bit alone are no varint. -/
private theorem fallback_cut {p : Slice} (h : ∀ byte ∈ p, byte &&& 128 ≠ 0) (shift result : UInt32) :
    GetVarint32PtrFallback shift result p = none := by
  induction p generalizing shift result with
  | nil => rfl
  | cons byte p ih =>
    have hbyte := h byte (List.mem_cons_self ..)
    rw [GetVarint32PtrFallback, if_pos hbyte, ih fun b hb => h b (List.mem_cons_of_mem _ hb)]
    exact ite_self none

/-- Every byte of a varint but the last has a continuation bit. -/
private theorem encodeVarint32_concat (v : UInt32) :
    ∃ init last, EncodeVarint32 v = init ++ [last] ∧ ∀ byte ∈ init, byte &&& 128 ≠ 0 := by
  have hlow : ∀ w : UInt32, (w.toUInt8 ||| 128) &&& 128 ≠ 0 := by simpa using low_byte_and
  rw [EncodeVarint32]
  split
  · exact ⟨[], _, rfl, by simp⟩
  split
  · exact ⟨[_], _, rfl, by simp [hlow]⟩
  split
  · exact ⟨[_, _], _, rfl, by simp [hlow]⟩
  split
  · exact ⟨[_, _, _], _, rfl, by simp [hlow]⟩
  · exact ⟨[_, _, _, _], _, rfl, by simp [hlow]⟩

theorem reads_varint32 (v : UInt32) : Reads GetVarint32 (EncodeVarint32 v) v where
  whole := getVarint32_append v
  cut p hp hne := by
    obtain ⟨init, last, heq, hinit⟩ := encodeVarint32_concat v
    rw [heq] at hp hne
    have hp : p <+: init := (List.prefix_concat_iff.1 hp).resolve_left hne
    rw [getVarint32_eq_fallback]
    exact fallback_cut (fun b hb => hinit b (hp.subset hb)) 0 0

theorem encodeVarint32_ne_nil (v : UInt32) : EncodeVarint32 v ≠ [] := by
  obtain ⟨init, last, heq, -⟩ := encodeVarint32_concat v
  simp [heq]

theorem length_of_getVarint32 {input rest : Slice} {v : UInt32} (h : GetVarint32 input = some (v, rest)) :
    rest.length < input.length := by
  have hfallback : ∀ (shift result : UInt32) (input : Slice),
      GetVarint32PtrFallback shift result input = some (v, rest) → rest.length < input.length := by
    intro shift result input
    induction input generalizing shift result with
    | nil => simp [GetVarint32PtrFallback]
    | cons byte p ih =>
      intro h
      rw [GetVarint32PtrFallback] at h
      split at h
      · split at h
        · have := ih _ _ h
          simp only [List.length_cons]
          omega
        · obtain ⟨-, rfl⟩ : _ ∧ p = rest := by simpa using h
          simp
      · simp at h
  rw [getVarint32_eq_fallback] at h
  exact hfallback 0 0 input h

private theorem toNat_shiftRight_seven (v : UInt64) : (v >>> 7).toNat = v.toNat / 128 := by
  rw [UInt64.toNat_shiftRight, Nat.shiftRight_eq_div_pow]
  rfl

def EncodeVarint64 (v : UInt64) : Slice :=
  if v ≥ 128 then ((v &&& 127) ||| 128).toUInt8 :: EncodeVarint64 (v >>> 7) else [v.toUInt8]
termination_by v.toNat
decreasing_by
  rename_i h
  have h : 128 ≤ v.toNat := h
  rw [toNat_shiftRight_seven]
  omega

/-- The loop of `GetVarint64Ptr`: the bytes seen so far are in `result`. -/
def GetVarint64Ptr (shift : UInt32) (result : UInt64) : Slice → Option (UInt64 × Slice)
  | [] => none
  | byte :: p =>
    if shift ≤ 63 then
      if byte &&& 128 ≠ 0 then
        GetVarint64Ptr (shift + 7) (result ||| ((byte &&& 127).toUInt64 <<< shift.toUInt64)) p
      else some (result ||| (byte.toUInt64 <<< shift.toUInt64), p)
    else none

def GetVarint64 (input : Slice) : Option (UInt64 × Slice) := GetVarint64Ptr 0 0 input

/-- A byte of a varint, as a number: the low seven bits and the continuation bit. -/
private theorem byte_of_varint64 (v : UInt64) :
    ((v &&& 127) ||| 128).toUInt8 &&& 128 ≠ 0 ∧ (((v &&& 127) ||| 128).toUInt8 &&& 127).toNat = v.toNat % 128 := by
  rw [UInt64.toUInt8_or]
  refine ⟨or_128_and _, (toNat_or_128_and _).trans ?_⟩
  rw [UInt64.toNat_toUInt8, UInt64.toNat_and]
  change (v.toNat &&& (2 ^ 7 - 1)) % 2 ^ 8 % 2 ^ 7 = _
  rw [Nat.and_two_pow_sub_one_eq_mod]
  omega
/-- The next seven bits are put above those that were read. -/
private theorem varint64_or {result d : UInt64} {shift : UInt32} (hshift : shift.toNat < 64)
    (hresult : result.toNat < 2 ^ shift.toNat) (hd : d.toNat * 2 ^ shift.toNat < 2 ^ 64) :
    (result ||| (d <<< shift.toUInt64)).toNat = d.toNat * 2 ^ shift.toNat + result.toNat := by
  rw [UInt64.toNat_or, UInt64.toNat_shiftLeft, UInt32.toNat_toUInt64, Nat.mod_eq_of_lt hshift, Nat.shiftLeft_eq,
    Nat.mod_eq_of_lt hd, Nat.or_comm, Nat.mul_comm, ← Nat.two_pow_add_eq_or_of_lt hresult]

/-- Reading on where the value without the bits that were read is encoded. -/
private theorem getVarint64Ptr_append (v : UInt64) {w : UInt64} {shift : UInt32} {result : UInt64}
    (hshift : shift.toNat ≤ 63) (hresult : result.toNat < 2 ^ shift.toNat)
    (hv : v.toNat * 2 ^ shift.toNat + result.toNat = w.toNat) (rest : Slice) :
    GetVarint64Ptr shift result (EncodeVarint64 v ++ rest) = some (w, rest) := by
  have hw := w.toNat_lt
  have hle : shift ≤ 63 := hshift
  induction v using EncodeVarint64.induct generalizing shift result with
  | case1 v h ih =>
    have hbig : 128 ≤ v.toNat := h
    have hpow : 128 * 2 ^ shift.toNat ≤ v.toNat * 2 ^ shift.toNat := Nat.mul_le_mul_right _ hbig
    have hsmall : shift.toNat < 57 := by
      by_contra hge
      have : 2 ^ 57 ≤ 2 ^ shift.toNat := Nat.pow_le_pow_right (by omega) (by omega)
      omega
    have h7 : (shift + 7).toNat = shift.toNat + 7 := by
      rw [UInt32.toNat_add]
      exact Nat.mod_eq_of_lt (by simp; omega)
    obtain ⟨hcont, hlow⟩ := byte_of_varint64 v
    have hdigit := Nat.div_add_mod v.toNat 128
    have hsplit : v.toNat * 2 ^ shift.toNat =
        v.toNat / 128 * 2 ^ (shift.toNat + 7) + v.toNat % 128 * 2 ^ shift.toNat := by
      conv => lhs; rw [← hdigit]
      ring
    have hor := varint64_or (d := (((v &&& 127) ||| 128).toUInt8 &&& 127).toUInt64) (by omega) hresult (by
      rw [UInt8.toNat_toUInt64, hlow]
      omega)
    rw [UInt8.toNat_toUInt64, hlow] at hor
    rw [EncodeVarint64, if_pos h, List.cons_append, GetVarint64Ptr, if_pos hle, if_pos hcont]
    refine ih (by omega) ?_ ?_ (show (shift + 7).toNat ≤ 63 by omega)
    · have hmod : v.toNat % 128 ≤ 127 := by omega
      have := Nat.mul_le_mul_right (2 ^ shift.toNat) hmod
      rw [hor, h7, Nat.pow_add]
      omega
    · rw [hor, h7, toNat_shiftRight_seven]
      omega
  | case2 v h =>
    have hlt : v.toNat < 128 := Nat.lt_of_not_le h
    have hbyte : v.toUInt8.toNat = v.toNat := by
      rw [UInt64.toNat_toUInt8]
      exact Nat.mod_eq_of_lt (by omega)
    have hlast : v.toUInt8 &&& 128 = 0 := and_128_eq_zero (by omega)
    rw [EncodeVarint64, if_neg h, List.cons_append, List.nil_append, GetVarint64Ptr, if_pos hle,
      if_neg (not_not.2 hlast)]
    refine congrArg some (Prod.ext ?_ rfl)
    apply UInt64.toNat_inj.1
    rw [varint64_or (by omega) hresult (by rw [UInt8.toNat_toUInt64, hbyte]; omega), UInt8.toNat_toUInt64, hbyte, hv]

private theorem getVarint64Ptr_cut {p : Slice} (h : ∀ byte ∈ p, byte &&& 128 ≠ 0) (shift : UInt32) (result : UInt64) :
    GetVarint64Ptr shift result p = none := by
  induction p generalizing shift result with
  | nil => rfl
  | cons byte p ih =>
    have hbyte := h byte (List.mem_cons_self ..)
    rw [GetVarint64Ptr, if_pos hbyte, ih fun b hb => h b (List.mem_cons_of_mem _ hb)]
    exact ite_self none

private theorem encodeVarint64_concat (v : UInt64) :
    ∃ init last, EncodeVarint64 v = init ++ [last] ∧ ∀ byte ∈ init, byte &&& 128 ≠ 0 := by
  induction v using EncodeVarint64.induct with
  | case1 v h ih =>
    obtain ⟨init, last, heq, hinit⟩ := ih
    refine ⟨_ :: init, last, by rw [EncodeVarint64, if_pos h, heq, List.cons_append], ?_⟩
    intro byte hbyte
    rcases List.mem_cons.1 hbyte with rfl | hbyte
    · exact (byte_of_varint64 v).1
    · exact hinit byte hbyte
  | case2 v h => exact ⟨[], _, by rw [EncodeVarint64, if_neg h]; rfl, by simp⟩

theorem reads_varint64 (v : UInt64) : Reads GetVarint64 (EncodeVarint64 v) v where
  whole := getVarint64Ptr_append v (by decide) (by decide) (by simp)
  cut p hp hne := by
    obtain ⟨init, last, heq, hinit⟩ := encodeVarint64_concat v
    rw [heq] at hp hne
    have hp : p <+: init := (List.prefix_concat_iff.1 hp).resolve_left hne
    exact getVarint64Ptr_cut (fun b hb => hinit b (hp.subset hb)) 0 0

theorem length_of_getVarint64 {input rest : Slice} {v : UInt64} (h : GetVarint64 input = some (v, rest)) :
    rest.length < input.length := by
  have hptr : ∀ (shift : UInt32) (result : UInt64) (input : Slice),
      GetVarint64Ptr shift result input = some (v, rest) → rest.length < input.length := by
    intro shift result input
    induction input generalizing shift result with
    | nil => simp [GetVarint64Ptr]
    | cons byte p ih =>
      intro h
      rw [GetVarint64Ptr] at h
      split at h
      · split at h
        · have := ih _ _ h
          simp only [List.length_cons]
          omega
        · obtain ⟨-, rfl⟩ : _ ∧ p = rest := by simpa using h
          simp
      · simp at h
  exact hptr 0 0 input h

/-! ### Length-prefixed slices -/

def PutLengthPrefixedSlice (value : Slice) : Slice :=
  EncodeVarint32 (UInt32.ofNat value.length) ++ value

def GetLengthPrefixedSlice (input : Slice) : Option (Slice × Slice) :=
  match GetVarint32 input with
  | some (len, input) => if len.toNat ≤ input.length then some (input.take len.toNat, input.drop len.toNat) else none
  | none => none

theorem toNat_ofNat_of_lt {n : ℕ} (h : n < 2 ^ 32) : (UInt32.ofNat n).toNat = n := UInt32.toNat_ofNat_of_lt' h

theorem reads_lengthPrefixedSlice {value : Slice} (h : value.length < 2 ^ 32) :
    Reads GetLengthPrefixedSlice (PutLengthPrefixedSlice value) value := by
  have hlen := toNat_ofNat_of_lt h
  have hvalue : Reads (Readers.readN (UInt32.ofNat value.length).toNat) value value := by
    rw [hlen]
    exact Readers.reads_readN value
  refine ((reads_varint32 _).bind (fun len : UInt32 => Readers.readN len.toNat) hvalue).congr fun input => ?_
  rw [GetLengthPrefixedSlice]
  cases GetVarint32 input <;> rfl

theorem length_of_getLengthPrefixedSlice {input value rest : Slice}
    (h : GetLengthPrefixedSlice input = some (value, rest)) : value.length < 2 ^ 32 ∧ rest.length < input.length := by
  rw [GetLengthPrefixedSlice] at h
  cases hlen : GetVarint32 input with
  | none => simp [hlen] at h
  | some r =>
    obtain ⟨len, input'⟩ := r
    have hlt := length_of_getVarint32 hlen
    have hlen' := len.toNat_lt
    simp only [hlen] at h
    split at h
    · obtain ⟨rfl, rfl⟩ : input'.take len.toNat = value ∧ input'.drop len.toNat = rest := by simpa using h
      simp only [List.length_take, List.length_drop]
      omega
    · simp at h

end RedisDb
