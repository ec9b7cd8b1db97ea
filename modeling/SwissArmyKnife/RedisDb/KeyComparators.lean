import SwissArmyKnife.RedisDb.Codecs
import SwissArmyKnife.RedisDb.EditCoding
import SwissArmyKnife.RedisDb.Separators

/-!
# The comparators of data keys

`ListsDataKeyComparatorImpl` and `ZSetsScoreKeyComparatorImpl` decode the fields of two keys and compare one field
after another.  They keep lengths and sizes in 32 signed bits.  As long as these hold them, the comparators order the
keys by their fields (`comparators_order`); beyond that they take different keys for equal (`compare_eq_of_wrapped`).
-/

namespace RedisDb

/-- Whether `ptr - k.data()` is the size of the key, which is in an `int32_t`. -/
def atEnd (k : Slice) (ptr : ℕ) : Bool := (ptr : ℤ) == (Int32.ofNat k.length).toInt

/-- There is no result when bytes outside of the keys would be read. -/
def ListsDataKeyComparatorImpl.Compare (a b : Slice) : Option Ordering :=
  match keyLength a 0, keyLength b 0 with
  | some keyalen, some keyblen =>
    let setskeya := (a.drop 4).take keyalen
    let setskeyb := (b.drop 4).take keyblen
    let ptra := 4 + keyalen
    let ptrb := 4 + keyblen
    if setskeya ≠ setskeyb then some (BytewiseComparatorImpl.Compare setskeya setskeyb)
    else if atEnd a ptra && atEnd b ptrb then some .eq
    else if atEnd a ptra then some .lt
    else if atEnd b ptrb then some .gt
    else if a.length < ptra + 4 ∨ b.length < ptrb + 4 then none
    else
      let versiona := (DecodeFixed32 (a.drop ptra)).toInt32
      let versionb := (DecodeFixed32 (b.drop ptrb)).toInt32
      let ptra := ptra + 4
      let ptrb := ptrb + 4
      if versiona ≠ versionb then some (if versiona < versionb then .lt else .gt)
      else if atEnd a ptra && atEnd b ptrb then some .eq
      else if atEnd a ptra then some .lt
      else if atEnd b ptrb then some .gt
      else if a.length < ptra + 8 ∨ b.length < ptrb + 8 then none
      else
        let indexa := DecodeFixed64 (a.drop ptra)
        let indexb := DecodeFixed64 (b.drop ptrb)
        if indexa ≠ indexb then some (if indexa < indexb then .lt else .gt) else some .eq
  | _, _ => none

def ListsDataKeyComparatorImpl.Equal (a b : Slice) : Option Bool :=
  (ListsDataKeyComparatorImpl.Compare a b).map fun r => r == .eq

/-- `ZSetsScoreKey::Encode`, where `bits` are those of the score. -/
def ZSetsScoreKey.encode {S : Type*} (bits : S → UInt64) (k : ZSetsScoreKey S) : Slice :=
  ScoreFields.Encode ⟨k.key, k.version, bits k.score, k.member⟩

namespace ZSetsScoreKeyComparatorImpl

variable {S : Type*} [LinearOrder S]

/-- `std::string_view(ptr, size - (ptr - k.data()))`, where the size is in an `int32_t`. -/
def memberAt (k : Slice) (ptr : ℕ) : Option Slice :=
  let size := (Int32.ofNat k.length).toInt - ptr
  if 0 ≤ size then some ((k.drop ptr).take size.toNat) else none

/-- There is no result when bytes outside of the keys would be read. -/
def Compare (ofBits : UInt64 → S) (a b : Slice) : Option Ordering :=
  match keyLength a (4 + 8), keyLength b (4 + 8) with
  | some keyalen, some keyblen =>
    let ptra := keyalen + 2 * 4
    let ptrb := keyblen + 2 * 4
    let ret := BytewiseComparatorImpl.Compare (a.take ptra) (b.take ptrb)
    if ret ≠ .eq then some ret
    else
      let ascore := ofBits (DecodeFixed64 (a.drop ptra))
      let bscore := ofBits (DecodeFixed64 (b.drop ptrb))
      let ptra := ptra + 8
      let ptrb := ptrb + 8
      if ascore ≠ bscore then some (if ascore < bscore then .lt else .gt)
      else if atEnd a ptra && atEnd b ptrb then some .eq
      else if atEnd a ptra then some .lt
      else if atEnd b ptrb then some .gt
      else
        match memberAt a ptra, memberAt b ptrb with
        | some keyamember, some keybmember => some (BytewiseComparatorImpl.Compare keyamember keybmember)
        | _, _ => none
  | _, _ => none

def Equal (ofBits : UInt64 → S) (a b : Slice) : Option Bool := (Compare ofBits a b).map fun r => r == .eq

end ZSetsScoreKeyComparatorImpl

/-! ### Keys of lists -/

theorem atEnd_iff {k : Slice} (h : k.length < 2 ^ 32) (ptr : ℕ) :
    atEnd k ptr = true ↔ ptr = k.length ∧ k.length < 2 ^ 31 := by
  have hsize : Int32.size = 2 ^ 32 := rfl
  rw [atEnd, beq_iff_eq, Int32.toInt_ofNat', Int.bmod_def, hsize]
  split_ifs <;> omega

namespace ListsDataKeyComparatorImpl

theorem length_encode (k : ListsDataKey) : k.Encode.length = k.key.length + 16 := by
  simp [ListsDataKey.Encode]
  omega

private theorem not_atEnd {k : ListsDataKey} (hk : k.key.length < 2 ^ 31) {ptr : ℕ} (hptr : ptr < k.key.length + 16) :
    atEnd k.Encode ptr = false := by
  have hlength := length_encode k
  rw [Bool.eq_false_iff, Ne, atEnd_iff (by omega)]
  omega

private theorem decode_version (k : ListsDataKey) :
    (DecodeFixed32 (k.Encode.drop (4 + k.key.length))).toInt32 = k.version := by
  rw [ListsDataKey.encode_eq, decode_drop_baseDataKey]

private theorem decode_index (k : ListsDataKey) : DecodeFixed64 (k.Encode.drop (4 + k.key.length + 4)) = k.index := by
  rw [ListsDataKey.encode_eq, drop_drop_baseDataKey]
  exact decodeFixed64_append k.index []

/-- The sign is that of the fields. -/
theorem compare_encode {a b : ListsDataKey} (ha : a.key.length < 2 ^ 31) (hb : b.key.length < 2 ^ 31) :
    Compare a.Encode b.Encode = some (ThreeWay.sign a b) := by
  have hkey : ∀ {k : ListsDataKey}, k.key.length < 2 ^ 31 → keyLength k.Encode 0 = some k.key.length :=
    fun h => keyLength_baseDataKey h _ (Nat.zero_le _)
  have hview : ∀ k : ListsDataKey, (k.Encode.drop 4).take k.key.length = k.key :=
    fun k => take_drop_baseDataKey ..
  have hlength : ∀ k : ListsDataKey, ¬ k.Encode.length < 4 + k.key.length + 4 ∧
      ¬ k.Encode.length < 4 + k.key.length + 4 + 8 := by
    intro k
    rw [length_encode]
    omega
  rw [Compare, hkey ha, hkey hb]
  dsimp only
  rw [hview, hview, not_atEnd ha (by omega), not_atEnd hb (by omega), not_atEnd ha (by omega),
    not_atEnd hb (by omega),
    decode_version, decode_version, decode_index, decode_index]
  simp only [(hlength a).1, (hlength b).1, (hlength a).2, (hlength b).2, or_self, if_false, Bool.and_self,
    Bool.false_eq_true, BytewiseComparatorImpl.Compare]
  by_cases hk : a.key = b.key
  · by_cases hv : a.version = b.version
    · by_cases hi : a.index = b.index
      · have heq : a = b := ListsDataKey.ext hk hv hi
        rw [if_neg (not_not.2 hk), if_neg (not_not.2 hv), if_neg (not_not.2 hi), ThreeWay.sign_eq_eq_iff.2 heq]
      · rw [if_neg (not_not.2 hk), if_neg (not_not.2 hv), if_pos hi]
        congr 1
        apply ThreeWay.eq_sign
        · rw [ListsDataKey.lt_iff]
          simp [hk, hv, UInt64.lt_iff_toNat_lt]
        · rw [ListsDataKey.ext_iff]
          split_ifs <;> simp [hi]
    · rw [if_neg (not_not.2 hk), if_pos hv]
      congr 1
      apply ThreeWay.eq_sign
      · rw [ListsDataKey.lt_iff]
        simp [hk, Int32.toInt_inj, hv, Int32.lt_iff_toInt_lt]
      · rw [ListsDataKey.ext_iff]
        split_ifs <;> simp [hv]
  · rw [if_pos hk]
    congr 1
    apply ThreeWay.eq_sign
    · rw [ListsDataKey.lt_iff, ThreeWay.sign_eq_lt_iff]
      simp [hk]
    · rw [ThreeWay.sign_eq_eq_iff]
      simp [ListsDataKey.ext_iff, hk]

end ListsDataKeyComparatorImpl

/-! ### Keys of sorted sets -/

namespace ZSetsScoreKeyComparatorImpl

variable {S : Type*} {bits : S → UInt64}

theorem length_encode (k : ZSetsScoreKey S) : (k.encode bits).length = k.key.length + 16 + k.member.length := by
  simp [ZSetsScoreKey.encode, ScoreFields.Encode, BaseDataKey]
  omega

private theorem take_prefixBytes (k : ZSetsScoreKey S) :
    (k.encode bits).take (k.key.length + 2 * 4) = k.prefixBytes := by
  have hlength : k.prefixBytes.length = k.key.length + 2 * 4 := by
    simp [ZSetsScoreKey.prefixBytes, BaseDataKey]
    omega
  have happend : k.encode bits = k.prefixBytes ++ (EncodeFixed64 (bits k.score) ++ k.member) :=
    baseDataKey_eq_append ..
  rw [happend, ← hlength, List.take_left]

private theorem drop_prefixBytes (k : ZSetsScoreKey S) :
    (k.encode bits).drop (k.key.length + 2 * 4) = EncodeFixed64 (bits k.score) ++ k.member := by
  have hptr : k.key.length + 2 * 4 = 4 + k.key.length + 4 := by omega
  rw [hptr]
  exact drop_drop_baseDataKey ..

private theorem decode_score (k : ZSetsScoreKey S) :
    DecodeFixed64 ((k.encode bits).drop (k.key.length + 2 * 4)) = bits k.score := by
  rw [drop_prefixBytes, decodeFixed64_append]

/-- The bytes of the key are counted by an `int32_t`. -/
def Fits (k : ZSetsScoreKey S) : Prop := k.key.length + 16 + k.member.length < 2 ^ 31

private theorem atEnd_member {k : ZSetsScoreKey S} (hk : Fits k) :
    atEnd (k.encode bits) (k.key.length + 2 * 4 + 8) = k.member.isEmpty := by
  have hlength : (k.encode bits).length = _ := length_encode k
  have hk : k.key.length + 16 + k.member.length < 2 ^ 31 := hk
  rw [Bool.eq_iff_iff, atEnd_iff (by omega), List.isEmpty_iff_length_eq_zero]
  omega

private theorem memberAt_encode {k : ZSetsScoreKey S} (hk : Fits k) :
    memberAt (k.encode bits) (k.key.length + 2 * 4 + 8) = some k.member := by
  have hlength : (k.encode bits).length = _ := length_encode k
  have hk : k.key.length + 16 + k.member.length < 2 ^ 31 := hk
  have hdrop : (k.encode bits).drop (k.key.length + 2 * 4 + 8) = k.member := by
    rw [← List.drop_drop, drop_prefixBytes]
    rfl
  have hsize : (Int32.ofNat (k.encode bits).length).toInt - (k.key.length + 2 * 4 + 8 : ℕ) = k.member.length := by
    rw [Int32.toInt_ofNat_of_lt (by omega), hlength]
    omega
  rw [memberAt, hsize, if_pos (by omega), hdrop, Int.toNat_natCast, List.take_length]

variable [LinearOrder S] {ofBits : UInt64 → S}

/-- The sign is that of the length, the key and the version as bytes, then of the scores, then of the members. -/
theorem compare_encode (hbits : Function.LeftInverse ofBits bits) {a b : ZSetsScoreKey S} (ha : Fits a)
    (hb : Fits b) : Compare ofBits (a.encode bits) (b.encode bits) = some (ThreeWay.sign a b) := by
  have hkey : ∀ {k : ZSetsScoreKey S}, Fits k → keyLength (k.encode bits) (4 + 8) = some k.key.length := by
    intro k hk
    have hk : k.key.length + 16 + k.member.length < 2 ^ 31 := hk
    exact keyLength_baseDataKey (show k.key.length < 2 ^ 31 by omega) _
      (by rw [List.length_append, length_encodeFixed64]; omega)
  have heq : a = b ↔ a.prefixBytes = b.prefixBytes ∧ a.score = b.score ∧ a.member = b.member := by
    rw [ZSetsScoreKey.ext_iff, ZSetsScoreKey.prefixBytes_inj]
    exact and_assoc.symm
  rw [Compare, hkey ha, hkey hb]
  dsimp only
  rw [take_prefixBytes, take_prefixBytes, decode_score, decode_score, hbits, hbits, atEnd_member ha, atEnd_member hb,
    memberAt_encode ha, memberAt_encode hb]
  dsimp only
  by_cases hp : a.prefixBytes = b.prefixBytes
  · have hret : BytewiseComparatorImpl.Compare a.prefixBytes b.prefixBytes = .eq := ThreeWay.sign_eq_eq_iff.2 hp
    rw [if_neg (not_not.2 hret)]
    by_cases hs : a.score = b.score
    · rw [if_neg (not_not.2 hs)]
      have hmembers : ThreeWay.sign a b = ThreeWay.sign a.member b.member := by
        symm
        apply ThreeWay.eq_sign
        · rw [ThreeWay.sign_eq_lt_iff, ZSetsScoreKey.lt_iff]
          simp [hp, hs]
        · rw [ThreeWay.sign_eq_eq_iff, heq]
          simp [hp, hs]
      rw [hmembers]
      cases hma : a.member with
      | nil =>
        cases b.member with
        | nil => rfl
        | cons c m => rfl
      | cons c m =>
        cases b.member with
        | nil => rfl
        | cons d m' => rfl
    · rw [if_pos hs]
      congr 1
      apply ThreeWay.eq_sign
      · rw [ZSetsScoreKey.lt_iff]
        simp [hp, hs]
      · rw [heq]
        split_ifs <;> simp [hs]
  · have hret : BytewiseComparatorImpl.Compare a.prefixBytes b.prefixBytes ≠ .eq := mt ThreeWay.sign_eq_eq_iff.1 hp
    rw [if_pos hret, BytewiseComparatorImpl.Compare]
    congr 1
    apply ThreeWay.eq_sign
    · rw [ThreeWay.sign_eq_lt_iff, ZSetsScoreKey.lt_iff]
      simp [hp]
    · rw [ThreeWay.sign_eq_eq_iff, heq]
      simp [hp]

/-- Between two keys with one key and version there is no other key or version. -/
theorem contiguous {a b x : ZSetsScoreKey S} (hab : a.key = b.key ∧ a.version = b.version)
    (hax : a ≤ x) (hxb : x ≤ b) :
    x.key = a.key ∧ x.version = a.version := by
  have hfront : a.prefixBytes = b.prefixBytes := ZSetsScoreKey.prefixBytes_inj.2 hab
  have hle : ∀ {k l : ZSetsScoreKey S}, k ≤ l → k.prefixBytes ≤ l.prefixBytes := by
    intro k l h
    by_contra hlt
    exact absurd (ZSetsScoreKey.lt_iff.2 (.inl (not_le.1 hlt))) (not_lt.2 h)
  exact ZSetsScoreKey.prefixBytes_inj.1 (le_antisymm (hfront ▸ hle hxb) (hle hax))

end ZSetsScoreKeyComparatorImpl

/-! ### The orders -/

/-- The comparators are strict total orders of keys whose sizes fit into 32 signed bits: of list keys by key, version
and index; and of score keys, where those with one key and version are next to each other, by score and member. -/
theorem comparators_order {S : Type*} [LinearOrder S] {bits : S → UInt64} {ofBits : UInt64 → S}
    (hbits : Function.LeftInverse ofBits bits) :
    (ThreeWay.StrictTotal (fun k : ListsDataKey => k.key.length < 2 ^ 31)
        (fun a b => ListsDataKeyComparatorImpl.Compare a.Encode b.Encode) ∧
      ∀ a b : ListsDataKey, a.key.length < 2 ^ 31 → b.key.length < 2 ^ 31 →
        (ListsDataKeyComparatorImpl.Equal a.Encode b.Encode = some true ↔ a = b) ∧
        (ListsDataKeyComparatorImpl.Compare a.Encode b.Encode = some .lt ↔ a.key < b.key ∨ a.key = b.key ∧
          (a.version.toInt < b.version.toInt ∨ a.version.toInt = b.version.toInt ∧ a.index.toNat < b.index.toNat))) ∧
    ThreeWay.StrictTotal ZSetsScoreKeyComparatorImpl.Fits
        (fun a b : ZSetsScoreKey S => ZSetsScoreKeyComparatorImpl.Compare ofBits (a.encode bits) (b.encode bits)) ∧
      (∀ a b : ZSetsScoreKey S, ZSetsScoreKeyComparatorImpl.Fits a → ZSetsScoreKeyComparatorImpl.Fits b →
        (ZSetsScoreKeyComparatorImpl.Equal ofBits (a.encode bits) (b.encode bits) = some true ↔ a = b) ∧
        (a.key = b.key ∧ a.version = b.version →
          (ZSetsScoreKeyComparatorImpl.Compare ofBits (a.encode bits) (b.encode bits) = some .lt ↔
            a.score < b.score ∨ a.score = b.score ∧ a.member < b.member))) ∧
      ∀ a b x : ZSetsScoreKey S, ZSetsScoreKeyComparatorImpl.Fits a → ZSetsScoreKeyComparatorImpl.Fits b →
        ZSetsScoreKeyComparatorImpl.Fits x → a.key = b.key ∧ a.version = b.version →
        ZSetsScoreKeyComparatorImpl.Compare ofBits (a.encode bits) (x.encode bits) ≠ some .gt →
        ZSetsScoreKeyComparatorImpl.Compare ofBits (x.encode bits) (b.encode bits) ≠ some .gt →
        x.key = a.key ∧ x.version = a.version := by
  have hlists := @ListsDataKeyComparatorImpl.compare_encode
  have hscores : ∀ a b : ZSetsScoreKey S, ZSetsScoreKeyComparatorImpl.Fits a → ZSetsScoreKeyComparatorImpl.Fits b →
      ZSetsScoreKeyComparatorImpl.Compare ofBits (a.encode bits) (b.encode bits) = some (ThreeWay.sign a b) :=
    fun _ _ => ZSetsScoreKeyComparatorImpl.compare_encode hbits
  refine ⟨⟨ThreeWay.strictTotal_of_sign fun a b => hlists, ?_⟩, ThreeWay.strictTotal_of_sign hscores, ?_, ?_⟩
  · intro a b ha hb
    rw [ListsDataKeyComparatorImpl.Equal, hlists ha hb, ThreeWay.map_sign_eq_iff, Option.some.injEq,
      ThreeWay.sign_eq_lt_iff,
      ListsDataKey.lt_iff]
    exact ⟨Iff.rfl, Iff.rfl⟩
  · intro a b ha hb
    rw [ZSetsScoreKeyComparatorImpl.Equal, hscores a b ha hb, ThreeWay.map_sign_eq_iff, Option.some.injEq,
      ThreeWay.sign_eq_lt_iff,
      ZSetsScoreKey.lt_iff]
    refine ⟨Iff.rfl, fun hblock => ?_⟩
    simp [ZSetsScoreKey.prefixBytes_inj.2 hblock]
  · intro a b x ha hb hx hblock hax hxb
    rw [hscores a x ha hx, ThreeWay.some_sign_ne_gt_iff] at hax
    rw [hscores x b hx hb, ThreeWay.some_sign_ne_gt_iff] at hxb
    exact ZSetsScoreKeyComparatorImpl.contiguous hblock hax hxb

/-- Scores that are not negative are ordered by their bits; these are 1 and 2. -/
theorem comparators_order_scores :
    ListsDataKeyComparatorImpl.Compare (ListsDataKey.Encode ⟨[7], -1, 5⟩) (ListsDataKey.Encode ⟨[7], 1, 2⟩) =
      some .lt ∧
    ZSetsScoreKeyComparatorImpl.Compare id
        (ZSetsScoreKey.encode id ⟨[7], 3, (0x3ff0000000000000 : UInt64), [9]⟩)
        (ZSetsScoreKey.encode id ⟨[7], 3, (0x4000000000000000 : UInt64), [8]⟩) = some .lt := by
  have h := @comparators_order UInt64 _ id id (fun _ => rfl)
  have hlists := (h.1.2 ⟨[7], -1, 5⟩ ⟨[7], 1, 2⟩ (by decide) (by decide)).2
  have hscores := (h.2.2.1 ⟨[7], 3, (0x3ff0000000000000 : UInt64), [9]⟩ ⟨[7], 3, (0x4000000000000000 : UInt64), [8]⟩
    (show 18 < 2 ^ 31 by decide) (show 18 < 2 ^ 31 by decide)).2 ⟨rfl, rfl⟩
  exact ⟨hlists.2 (.inr ⟨rfl, .inl (by decide)⟩), hscores.2 (.inl (by decide))⟩

/-! ### Keys that are too long -/

private theorem keyLength_zeros (n : ℕ) : keyLength (List.replicate (n + 16) 0) 0 = some 0 := by
  have hdecode : DecodeFixed32 (List.replicate (n + 16) 0) = 0 := decodeFixed32_append 0 (List.replicate (n + 12) 0)
  have hzero : (0 : UInt32).toInt32.toInt = 0 := rfl
  rw [keyLength, hdecode, hzero, List.length_replicate]
  exact if_pos ⟨le_rfl, by omega⟩

/-- Zeros, the number of which is 16 modulo 2 ^ 32, have no key, version 0 and index 0. -/
private theorem compare_zeros {n : ℕ} (hn : Int32.ofNat (n + 16) = 16) :
    ListsDataKeyComparatorImpl.Compare (List.replicate (n + 16) 0) (List.replicate (0 + 16) 0) = some .eq := by
  have hend : ∀ {m : ℕ}, Int32.ofNat (m + 16) = 16 → ∀ ptr < 16, atEnd (List.replicate (m + 16) 0) ptr = false := by
    intro m hm ptr hptr
    have hsixteen : (16 : Int32).toInt = 16 := rfl
    rw [atEnd, List.length_replicate, hm, hsixteen, beq_eq_false_iff_ne]
    omega
  have hversion : ∀ m : ℕ, DecodeFixed32 ((List.replicate (m + 16) 0).drop (4 + 0)) = 0 :=
    fun m => decodeFixed32_append 0 (List.replicate (m + 8) 0)
  have hindex : ∀ m : ℕ, DecodeFixed64 ((List.replicate (m + 16) 0).drop (4 + 0 + 4)) = 0 :=
    fun m => decodeFixed64_append 0 (List.replicate m 0)
  rw [ListsDataKeyComparatorImpl.Compare, keyLength_zeros, keyLength_zeros]
  dsimp only
  rw [hend hn _ (by omega), hend hn _ (by omega), hend rfl _ (by omega), hend rfl _ (by omega), hversion, hversion,
    hindex, hindex, List.length_replicate, List.length_replicate]
  simp

private theorem encode_zeros {n : ℕ} (hn : UInt32.ofNat n = 0) :
    ListsDataKey.Encode ⟨List.replicate n 0, 0, 0⟩ = List.replicate (n + 16) 0 := by
  have hzeros : EncodeFixed32 0 = List.replicate 4 0 ∧ EncodeFixed64 0 = List.replicate 8 0 := ⟨rfl, rfl⟩
  have hversion : (0 : Int32).toUInt32 = 0 := rfl
  rw [ListsDataKey.Encode, List.length_replicate, hn, hversion, hzeros.1, hzeros.2, ← List.replicate_add,
    ← List.replicate_add, ← List.replicate_add]
  congr 1
  omega

/-- A member whose length is 0 modulo 2 ^ 32 is taken for the empty one. -/
private theorem compare_members {S : Type*} [LinearOrder S] (bits : S → UInt64) (ofBits : UInt64 → S) (score : S)
    {n : ℕ} (hn : Int32.ofNat (0 + 16 + n) = 16) :
    ZSetsScoreKeyComparatorImpl.Compare ofBits (ZSetsScoreKey.encode bits ⟨[], 0, score, List.replicate n 0⟩)
      (ZSetsScoreKey.encode bits ⟨[], 0, score, []⟩) = some .eq := by
  have hkey : ∀ member, keyLength (ZSetsScoreKey.encode bits ⟨[], 0, score, member⟩) (4 + 8) = some 0 := by
    intro member
    exact keyLength_baseDataKey (show ([] : Slice).length < 2 ^ 31 by decide) _
      (by rw [List.length_append, length_encodeFixed64]; omega)
  have hend : ∀ member : Slice, Int32.ofNat (0 + 16 + member.length) = 16 →
      atEnd (ZSetsScoreKey.encode bits ⟨[], 0, score, member⟩) (0 + 2 * 4 + 8) = true := by
    intro member hmember
    have hlength : (ZSetsScoreKey.encode bits ⟨[], 0, score, member⟩).length = 0 + 16 + member.length :=
      ZSetsScoreKeyComparatorImpl.length_encode _
    rw [atEnd, hlength, hmember]
    rfl
  have hfront : ∀ member, (ZSetsScoreKey.encode bits ⟨[], 0, score, member⟩).take (0 + 2 * 4) =
      ZSetsScoreKey.prefixBytes (⟨[], 0, score, []⟩ : ZSetsScoreKey S) :=
    fun member => ZSetsScoreKeyComparatorImpl.take_prefixBytes (⟨[], 0, score, member⟩ : ZSetsScoreKey S)
  have hscore : ∀ member, DecodeFixed64 ((ZSetsScoreKey.encode bits ⟨[], 0, score, member⟩).drop (0 + 2 * 4)) =
      bits score := fun member => decodeFixed64_append (bits score) member
  rw [ZSetsScoreKeyComparatorImpl.Compare, hkey, hkey]
  dsimp only
  rw [hfront, hfront, hscore, hscore, hend _ (by rwa [List.length_replicate]), hend _ rfl]
  simp [BytewiseComparatorImpl.Compare, ThreeWay.sign]

/-- The length of a key or of a member of 2 ^ 32 zeros is 0 in 32 bits. -/
theorem compare_eq_of_wrapped :
    (ListsDataKeyComparatorImpl.Compare (ListsDataKey.Encode ⟨List.replicate (2 ^ 32) 0, 0, 0⟩)
        (ListsDataKey.Encode ⟨[], 0, 0⟩) = some .eq ∧
      (⟨List.replicate (2 ^ 32) 0, 0, 0⟩ : ListsDataKey) ≠ ⟨[], 0, 0⟩) ∧
    ZSetsScoreKeyComparatorImpl.Compare id
        (ZSetsScoreKey.encode id ⟨[], 0, (0x3ff0000000000000 : UInt64), List.replicate (2 ^ 32) 0⟩)
        (ZSetsScoreKey.encode id ⟨[], 0, (0x3ff0000000000000 : UInt64), []⟩) = some .eq ∧
      (⟨[], 0, 0x3ff0000000000000, List.replicate (2 ^ 32) 0⟩ : ZSetsScoreKey UInt64) ≠
        ⟨[], 0, 0x3ff0000000000000, []⟩ := by
  refine ⟨⟨?_, ?_⟩, compare_members id id _ (by decide), ?_⟩
  · rw [encode_zeros (by decide : UInt32.ofNat (2 ^ 32) = 0)]
    exact compare_zeros (by decide)
  · intro heq
    have hlength := congrArg (fun k => k.key.length) heq
    rw [List.length_replicate] at hlength
    exact absurd hlength (by decide)
  · intro heq
    have hlength := congrArg (fun k => k.member.length) heq
    rw [List.length_replicate] at hlength
    exact absurd hlength (by decide)

end RedisDb
