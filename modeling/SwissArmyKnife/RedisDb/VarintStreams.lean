import SwissArmyKnife.RedisDb.Coding

/-!
# Streams of varints

Values that are appended to one string, in 32 or 64 bits or as slices with their length in front, are read back in the
same order (`getAll_putAll`).  The unrolled encoder of 32 bits writes what the loop for 64 bits writes
(`encodeVarint32_eq`), so that `VarintLength` is the length of both.
-/

namespace RedisDb

open Readers (Reads)

def PutVarint32 (dst : Slice) (v : UInt32) : Slice := dst ++ EncodeVarint32 v

def PutVarint64 (dst : Slice) (v : UInt64) : Slice := dst ++ EncodeVarint64 v

/-- The loop of `VarintLength`. -/
def varintLengthFrom (len : ℕ) (v : UInt64) : ℕ := if v ≥ 128 then varintLengthFrom (len + 1) (v >>> 7) else len
termination_by v.toNat
decreasing_by
  rename_i h
  have h : 128 ≤ v.toNat := h
  have hshift : (v >>> 7).toNat = v.toNat / 128 := by
    rw [UInt64.toNat_shiftRight, Nat.shiftRight_eq_div_pow]
    rfl
  omega

def VarintLength (v : UInt64) : ℕ := varintLengthFrom 1 v

/-! ### The lengths -/

private theorem varintLengthFrom_eq (v : UInt64) (len : ℕ) :
    varintLengthFrom (len + 1) v = len + (EncodeVarint64 v).length := by
  induction v using EncodeVarint64.induct generalizing len with
  | case1 v h ih =>
    rw [varintLengthFrom, if_pos h, EncodeVarint64, if_pos h, ih, List.length_cons]
    omega
  | case2 v h =>
    rw [varintLengthFrom, if_neg h, EncodeVarint64, if_neg h]
    rfl

theorem varintLength_eq (v : UInt64) : VarintLength v = (EncodeVarint64 v).length := by
  have := varintLengthFrom_eq v 0
  rwa [Nat.zero_add, Nat.zero_add] at this

/-- The byte of a word that is not the last one, in both encoders. -/
private theorem continued_byte (w : UInt32) : ((w.toUInt64 &&& 127) ||| 128).toUInt8 = (w ||| 128).toUInt8 := by
  apply UInt8.toNat_inj.1
  apply Nat.eq_of_testBit_eq
  intro i
  simp only [UInt64.toNat_toUInt8, UInt32.toNat_toUInt8, UInt64.toNat_or, UInt32.toNat_or, UInt64.toNat_and,
    UInt32.toNat_toUInt64, Nat.testBit_mod_two_pow, Nat.testBit_or, Nat.testBit_and,
    show UInt64.toNat 127 = 2 ^ 7 - 1 from rfl, show UInt64.toNat 128 = 2 ^ 7 from rfl,
    show UInt32.toNat 128 = 2 ^ 7 from rfl, Nat.testBit_two_pow_sub_one, Nat.testBit_two_pow]
  rcases Nat.lt_trichotomy i 7 with hlt | rfl | hgt
  · simp [hlt]
  · simp
  · simp [show ¬ i < 8 by omega]

private theorem shiftRight_toUInt64 (w : UInt32) : w.toUInt64 >>> 7 = (w >>> 7).toUInt64 := by
  apply UInt64.toNat_inj.1
  rw [UInt64.toNat_shiftRight, UInt32.toNat_toUInt64, UInt32.toNat_toUInt64, UInt32.toNat_shiftRight]
  rfl

/-- One round of the loop, on a value that 32 bits hold. -/
private theorem encodeVarint64_step (w : UInt32) : EncodeVarint64 w.toUInt64 =
    if w.toNat < 128 then [w.toUInt8] else (w ||| 128).toUInt8 :: EncodeVarint64 (w >>> 7).toUInt64 := by
  have hcond : w.toUInt64 ≥ 128 ↔ ¬ w.toNat < 128 := by
    rw [ge_iff_le, UInt64.le_iff_toNat_le, UInt32.toNat_toUInt64, not_lt]
    rfl
  rw [EncodeVarint64]
  by_cases h : w.toNat < 128
  · rw [if_neg (mt hcond.1 (not_not.2 h)), if_pos h, UInt32.toUInt8_toUInt64]
  · rw [if_pos (hcond.2 h), if_neg h, continued_byte, shiftRight_toUInt64]

private theorem shiftRight_seven (v : UInt32) {k m : UInt32} (hkm : k.toNat + 7 = m.toNat) (hm : m.toNat < 32) :
    (v >>> k) >>> 7 = v >>> m := by
  apply UInt32.toNat_inj.1
  rw [UInt32.toNat_shiftRight, UInt32.toNat_shiftRight, UInt32.toNat_shiftRight,
    Nat.mod_eq_of_lt (a := k.toNat) (by omega),
    Nat.mod_eq_of_lt hm, ← hkm, Nat.shiftRight_add]
  rfl

private theorem toNat_shiftRight_lt {v k : UInt32} {n : ℕ} (hk : k.toNat < 32) :
    (v >>> k).toNat < n ↔ v.toNat < 2 ^ k.toNat * n := by
  rw [UInt32.toNat_shiftRight, Nat.shiftRight_eq_div_pow, Nat.mod_eq_of_lt hk,
    Nat.div_lt_iff_lt_mul (Nat.two_pow_pos _),
    Nat.mul_comm]

/-- The unrolled encoder writes what the loop writes. -/
theorem encodeVarint32_eq (v : UInt32) : EncodeVarint32 v = EncodeVarint64 v.toUInt64 := by
  have h14 : (v >>> 7) >>> 7 = v >>> 14 := shiftRight_seven v rfl (by decide)
  have h21 : (v >>> 14) >>> 7 = v >>> 21 := shiftRight_seven v rfl (by decide)
  have h28 : (v >>> 21) >>> 7 = v >>> 28 := shiftRight_seven v rfl (by decide)
  have hlt7 : (v >>> 7).toNat < 128 ↔ v.toNat < 2 ^ 14 := toNat_shiftRight_lt (by decide)
  have hlt14 : (v >>> 14).toNat < 128 ↔ v.toNat < 2 ^ 21 := toNat_shiftRight_lt (by decide)
  have hlt21 : (v >>> 21).toNat < 128 ↔ v.toNat < 2 ^ 28 := toNat_shiftRight_lt (by decide)
  have hlt28 : (v >>> 28).toNat < 128 := (toNat_shiftRight_lt (by decide)).2 (by have := v.toNat_lt; simp; omega)
  have e7 : v < (1 : UInt32) <<< 7 ↔ v.toNat < 128 := UInt32.lt_iff_toNat_lt
  have e14 : v < (1 : UInt32) <<< 14 ↔ v.toNat < 2 ^ 14 := UInt32.lt_iff_toNat_lt
  have e21 : v < (1 : UInt32) <<< 21 ↔ v.toNat < 2 ^ 21 := UInt32.lt_iff_toNat_lt
  have e28 : v < (1 : UInt32) <<< 28 ↔ v.toNat < 2 ^ 28 := UInt32.lt_iff_toNat_lt
  rw [EncodeVarint32, encodeVarint64_step v, encodeVarint64_step (v >>> 7), h14, encodeVarint64_step (v >>> 14), h21,
    encodeVarint64_step (v >>> 21), h28, encodeVarint64_step (v >>> 28), if_pos hlt28]
  simp only [e7, e14, e21, e28, hlt7, hlt14, hlt21]
  split_ifs <;> rfl

theorem varintLength_toUInt64 (v : UInt32) : VarintLength v.toUInt64 = (EncodeVarint32 v).length := by
  rw [varintLength_eq, encodeVarint32_eq]

/-! ### Streams -/

/-- A value of a stream. -/
inductive Value where
  | varint32 (v : UInt32)
  | varint64 (v : UInt64)
  | slice (value : Slice)
deriving DecidableEq

/-- Which reader is called. -/
inductive Kind where
  | varint32
  | varint64
  | slice
deriving DecidableEq

namespace Value

def kind : Value → Kind
  | .varint32 _ => .varint32
  | .varint64 _ => .varint64
  | .slice _ => .slice

/-- The lengths of slices are written in 32 bits. -/
def Fits : Value → Prop
  | .slice value => value.length < 2 ^ 32
  | _ => True

def bytes : Value → Slice
  | .varint32 v => EncodeVarint32 v
  | .varint64 v => EncodeVarint64 v
  | .slice value => PutLengthPrefixedSlice value

def put (dst : Slice) : Value → Slice
  | .varint32 v => PutVarint32 dst v
  | .varint64 v => PutVarint64 dst v
  | .slice value => dst ++ PutLengthPrefixedSlice value

theorem put_eq (dst : Slice) (value : Value) : value.put dst = dst ++ value.bytes := by
  cases value <;> rfl

end Value

def Kind.get (kind : Kind) (input : Slice) : Option (Value × Slice) :=
  match kind with
  | .varint32 => (GetVarint32 input).map fun r => (.varint32 r.1, r.2)
  | .varint64 => (GetVarint64 input).map fun r => (.varint64 r.1, r.2)
  | .slice => (GetLengthPrefixedSlice input).map fun r => (.slice r.1, r.2)

theorem Value.Fits.reads {value : Value} (h : value.Fits) : Reads value.kind.get value.bytes value := by
  cases value with
  | varint32 v => exact (reads_varint32 v).map Value.varint32
  | varint64 v => exact (reads_varint64 v).map Value.varint64
  | slice value => exact (reads_lengthPrefixedSlice h).map Value.slice

/-- The values are appended one after another. -/
def putAll (dst : Slice) (values : List Value) : Slice := values.foldl Value.put dst

/-- One reader after another is called, until one returns false.  What they gave, and what is left if none did. -/
def getAll : List Kind → Slice → List Value × Option Slice
  | [], input => ([], some input)
  | kind :: kinds, input =>
    match kind.get input with
    | some (value, rest) => (value :: (getAll kinds rest).1, (getAll kinds rest).2)
    | none => ([], none)

theorem putAll_eq (dst : Slice) (values : List Value) : putAll dst values = dst ++ values.flatMap Value.bytes := by
  induction values generalizing dst with
  | nil => simp [putAll]
  | cons value values ih =>
    have hcons : putAll dst (value :: values) = putAll (value.put dst) values := rfl
    rw [hcons, ih, Value.put_eq, List.flatMap_cons, List.append_assoc]

private theorem getAll_flatMap {values : List Value} (hfits : ∀ value ∈ values, value.Fits) (rest : Slice) :
    getAll (values.map Value.kind) (values.flatMap Value.bytes ++ rest) = (values, some rest) := by
  induction values with
  | nil => rfl
  | cons value values ih =>
    have hreads := (hfits value (by simp)).reads.whole (values.flatMap Value.bytes ++ rest)
    have ih := ih fun v hv => hfits v (by simp [hv])
    rw [List.map_cons, List.flatMap_cons, List.append_assoc, getAll, hreads]
    simp only [ih]

/-- What is cut off is missed by one of the readers. -/
private theorem getAll_cut {values : List Value} (hfits : ∀ value ∈ values, value.Fits) {p : Slice}
    (hp : p <+: values.flatMap Value.bytes) (hne : p ≠ values.flatMap Value.bytes) :
    ∃ n < values.length, getAll (values.map Value.kind) p = (values.take n, none) := by
  induction values generalizing p with
  | nil =>
    rw [List.flatMap_nil] at hp hne
    exact absurd (List.prefix_nil.1 hp) hne
  | cons value values ih =>
    have hreads := (hfits value (by simp)).reads
    rw [List.flatMap_cons] at hp hne
    rcases List.prefix_or_prefix_of_prefix hp (List.prefix_append value.bytes _) with hfront | ⟨q, rfl⟩
    · by_cases heq : p = value.bytes
      · -- The value is whole and the others are missing.
        obtain ⟨n, hn, hget⟩ := ih (fun v hv => hfits v (by simp [hv])) (p := []) List.nil_prefix (by
          intro hnil
          rw [← hnil, List.append_nil] at hne
          exact hne heq)
        refine ⟨n + 1, by simpa using hn, ?_⟩
        rw [List.map_cons, getAll, heq, hreads.whole_self]
        simp only [hget, List.take_succ_cons]
      · refine ⟨0, by simp, ?_⟩
        rw [List.map_cons, getAll, hreads.cut p hfront heq]
        rfl
    · obtain ⟨n, hn, hget⟩ := ih (fun v hv => hfits v (by simp [hv]))
        ((List.prefix_append_right_inj value.bytes).1 hp) (fun h => hne (by rw [h]))
      refine ⟨n + 1, by simpa using hn, ?_⟩
      rw [List.map_cons, getAll, hreads.whole]
      simp only [hget, List.take_succ_cons]

/-- The readers give back what was written and leave what follows; cut short, the value that is not whole is
refused. -/
theorem getAll_putAll {values : List Value} (hfits : ∀ value ∈ values, value.Fits) :
    (∀ dst rest, putAll dst values = dst ++ putAll [] values ∧
      getAll (values.map Value.kind) (putAll [] values ++ rest) = (values, some rest)) ∧
    (∀ p, p <+: putAll [] values → p ≠ putAll [] values →
      ∃ n < values.length, getAll (values.map Value.kind) p = (values.take n, none)) ∧
    (∀ v : UInt32, VarintLength v.toUInt64 = (PutVarint32 [] v).length) ∧
    ∀ v : UInt64, VarintLength v = (PutVarint64 [] v).length := by
  have hbytes : putAll [] values = values.flatMap Value.bytes := putAll_eq [] values
  rw [hbytes]
  refine ⟨fun dst rest => ⟨putAll_eq dst values, getAll_flatMap hfits rest⟩, ?_,
    varintLength_toUInt64, varintLength_eq⟩
  intro p hp hne
  exact getAll_cut hfits hp hne

theorem getAll_putAll_mixed :
    getAll [.varint32, .slice, .varint64] (putAll [] [.varint32 300, .slice [7, 8], .varint64 1] ++ [9]) =
      ([.varint32 300, .slice [7, 8], .varint64 1], some [9]) :=
  ((@getAll_putAll [.varint32 300, .slice [7, 8], .varint64 1] (by
    intro value hvalue
    simp only [List.mem_cons, List.not_mem_nil, or_false] at hvalue
    rcases hvalue with rfl | rfl | rfl
    · trivial
    · show 2 < 2 ^ 32
      decide
    · trivial)).1 [] [9]).2

end RedisDb
