import Mathlib.Data.UInt
import SwissArmyKnife.RedisDb.DbFormat
import SwissArmyKnife.RedisDb.Env
import SwissArmyKnife.RedisDb.SkipList

/-!
# Memtables

`MemTable` on bytes: its entries are length-prefixed internal keys and values, in a skip list in the order of the
internal keys.  It is a sorted map of versions (`addAll_sorted`): the lists of the skip list are in order, its
iterator goes through the entries, and `Get` finds the newest version that a read may see.  A sequence number has 56
bits and a length 32.
-/

namespace RedisDb

/-! ### Internal keys -/

def ValueType.toUInt64 : ValueType → UInt64
  | .kTypeDeletion => 0
  | .kTypeValue => 1

namespace Encoded

/-- There is no result when an assertion fails. -/
def packSequenceAndType (seq : UInt64) (t : ValueType) : Option UInt64 :=
  if seq.toNat ≤ kMaxSequenceNumber then some ((seq <<< 8) ||| t.toUInt64) else none

/-- The user key of an internal key, which has at least 8 bytes. -/
def ExtractUserKey (internalKey : Slice) : Slice := internalKey.take (internalKey.length - 8)

/-- The tag of an internal key. -/
def tagOf (internalKey : Slice) : UInt64 := DecodeFixed64 (internalKey.drop (internalKey.length - 8))

/-- Increasing user key, then decreasing tag. -/
def InternalKeyComparator.Compare (comparator : Slice → Slice → Ordering) (akey bkey : Slice) : Ordering :=
  match comparator (ExtractUserKey akey) (ExtractUserKey bkey) with
  | .eq => if tagOf bkey < tagOf akey then .lt else if tagOf akey < tagOf bkey then .gt else .eq
  | r => r

/-- The key of a read: a key of a memtable, whose internal key begins at `kstart`. -/
structure LookupKey where
  space : Slice
  kstart : ℕ

namespace LookupKey

def new (userkey : Slice) (s : UInt64) : Option LookupKey := do
  let tag ← packSequenceAndType s kValueTypeForSeek
  let size := EncodeVarint32 (UInt32.ofNat (userkey.length + 8))
  return ⟨size ++ (userkey ++ EncodeFixed64 tag), size.length⟩

def MemtableKey (k : LookupKey) : Slice := k.space

def InternalKey (k : LookupKey) : Slice := k.space.drop k.kstart

def UserKey (k : LookupKey) : Slice := (k.space.drop k.kstart).take (k.space.length - k.kstart - 8)

end LookupKey

/-! ### The table -/

def VarintLength (v : ℕ) : ℕ := if 128 ≤ v then VarintLength (v >>> 7) + 1 else 1
  decreasing_by
    rw [Nat.shiftRight_eq_div_pow]
    omega

/-- `GetLengthPrefixedSlice` at a pointer, which is assumed not to be corrupted. -/
def lengthPrefixedSlice (data : Slice) : Slice :=
  match GetVarint32 data with
  | some (len, p) => p.take len.toNat
  | none => []

/-- Internal keys are encoded as length-prefixed strings. -/
def KeyComparator (comparator : Slice → Slice → Ordering) (aptr bptr : Slice) : Ordering :=
  InternalKeyComparator.Compare comparator (lengthPrefixedSlice aptr) (lengthPrefixedSlice bptr)

structure MemTable where
  table : SkipList Slice
  memoryusage : ℕ

/-- The arguments of a call of `Add`. -/
structure Write where
  seq : UInt64
  type : ValueType
  key : Slice
  value : Slice
  deriving DecidableEq

namespace Write

def tag (a : Write) : UInt64 := (a.seq <<< 8) ||| a.type.toUInt64

/-- The entry that `Add` builds. -/
def encode (a : Write) : Slice :=
  EncodeVarint32 (UInt32.ofNat (a.key.length + 8)) ++
    ((a.key ++ EncodeFixed64 a.tag) ++ (EncodeVarint32 (UInt32.ofNat a.value.length) ++ a.value))

def encodedlen (a : Write) : ℕ :=
  VarintLength (a.key.length + 8) + (a.key.length + 8) + VarintLength a.value.length + a.value.length

end Write

namespace MemTable

def new : MemTable := ⟨.new, 0⟩

def Add (comparator : Slice → Slice → Ordering) (m : MemTable) (draws : List Bool) (a : Write) : Option MemTable :=
  if a.encode.length = a.encodedlen then do
    let table ← m.table.Insert (KeyComparator comparator) a.encode draws
    return ⟨table, m.memoryusage + a.encodedlen⟩
  else none

def addAll (comparator : Slice → Slice → Ordering) (m : MemTable) : List (List Bool × Write) → Option MemTable
  | [] => some m
  | (draws, a) :: calls => do
    let m ← m.Add comparator draws a
    m.addAll comparator calls

/-- The value or the status that `Get` sets, or none when it returns false. -/
def Get (comparator : Slice → Slice → Ordering) (m : MemTable) (key : LookupKey) :
    Option (Option (Except Status Slice)) := do
  let node ← SkipList.Iterator.Seek (KeyComparator comparator) m.table key.MemtableKey
  if SkipList.Iterator.Valid node then do
    let entry ← SkipList.Iterator.key m.table node
    let (keylength, keyptr) ← GetVarint32 entry
    -- The sequence number is not checked: `Seek` has skipped the entries that are too new.
    if comparator (keyptr.take (keylength.toNat - 8)) key.UserKey = .eq then
      let tag := DecodeFixed64 (keyptr.drop (keylength.toNat - 8))
      if tag &&& 0xff = ValueType.kTypeValue.toUInt64 then
        return some (.ok (lengthPrefixedSlice (keyptr.drop keylength.toNat)))
      else if tag &&& 0xff = ValueType.kTypeDeletion.toUInt64 then return some (.error (.NotFound ""))
      else return none
    else return none
  else return none

end MemTable

/-! ### What is encoded -/

theorem lengthPrefixedSlice_append {d : Slice} (h : d.length < 2 ^ 32) (rest : Slice) :
    lengthPrefixedSlice (EncodeVarint32 (UInt32.ofNat d.length) ++ (d ++ rest)) = d := by
  rw [lengthPrefixedSlice, getVarint32_append]
  simp only [toNat_ofNat_of_lt h]
  exact List.take_left

theorem extractUserKey_append (userkey : Slice) (tag : UInt64) :
    ExtractUserKey (userkey ++ EncodeFixed64 tag) = userkey := by
  rw [ExtractUserKey, List.length_append, length_encodeFixed64, Nat.add_sub_cancel]
  exact List.take_left

theorem tagOf_append (userkey : Slice) (tag : UInt64) : tagOf (userkey ++ EncodeFixed64 tag) = tag := by
  rw [tagOf, List.length_append, length_encodeFixed64, Nat.add_sub_cancel, List.drop_left]
  exact (congrArg DecodeFixed64 (List.append_nil _).symm).trans (decodeFixed64_append tag [])

/-- The tag of a sequence number of 56 bits. -/
theorem toNat_tag {seq : UInt64} (h : seq.toNat ≤ kMaxSequenceNumber) (t : ValueType) :
    ((seq <<< 8) ||| t.toUInt64).toNat = RedisDb.packSequenceAndType seq.toNat t := by
  have htype : t.toUInt64.toNat = t.toNat := by cases t <;> rfl
  have hle := t.toNat_le
  have hshift : (seq <<< 8).toNat = seq.toNat <<< 8 := by
    rw [UInt64.toNat_shiftLeft]
    apply Nat.mod_eq_of_lt
    rw [Nat.shiftLeft_eq]
    simp only [kMaxSequenceNumber] at h
    show seq.toNat * 2 ^ 8 < 2 ^ 64
    omega
  rw [UInt64.toNat_or, hshift, htype, ← Nat.shiftLeft_add_eq_or_of_lt (show t.toNat < 2 ^ 8 by omega),
    Nat.shiftLeft_eq, RedisDb.packSequenceAndType]

theorem varintLength_eq {n : ℕ} (h : n < 2 ^ 32) : VarintLength n =
    if n < 2 ^ 7 then 1 else if n < 2 ^ 14 then 2 else if n < 2 ^ 21 then 3 else if n < 2 ^ 28 then 4 else 5 := by
  have hstep : ∀ v : ℕ, VarintLength v = if v < 128 then 1 else VarintLength (v / 128) + 1 := by
    intro v
    rw [VarintLength, Nat.shiftRight_eq_div_pow]
    by_cases hv : v < 128
    · rw [if_neg (by omega), if_pos hv]
    · rw [if_pos (by omega), if_neg hv]
  -- Five groups of 7 bits are enough for 32 bits.
  rw [hstep n, hstep (n / 128), hstep (n / 128 / 128), hstep (n / 128 / 128 / 128), hstep (n / 128 / 128 / 128 / 128)]
  split_ifs <;> omega

theorem length_encodeVarint32 {n : ℕ} (h : n < 2 ^ 32) :
    (EncodeVarint32 (UInt32.ofNat n)).length = VarintLength n := by
  have hlt : ∀ bound : UInt32, (UInt32.ofNat n < bound) = (n < bound.toNat) := by
    intro bound
    rw [UInt32.lt_iff_toNat_lt, toNat_ofNat_of_lt h]
  have hbounds : ((1 : UInt32) <<< 7).toNat = 2 ^ 7 ∧ ((1 : UInt32) <<< 14).toNat = 2 ^ 14 ∧
    ((1 : UInt32) <<< 21).toNat = 2 ^ 21 ∧ ((1 : UInt32) <<< 28).toNat = 2 ^ 28 := by decide
  rw [varintLength_eq h, EncodeVarint32]
  simp only [hlt, hbounds.1, hbounds.2.1, hbounds.2.2.1, hbounds.2.2.2, apply_ite List.length]
  rfl

/-! ### The order of the entries -/

section Order

variable {comparator : Slice → Slice → Ordering}

theorem compare_eq (akey bkey : Slice) : InternalKeyComparator.Compare comparator akey bkey =
    (comparator (ExtractUserKey akey) (ExtractUserKey bkey)).then
      (compare (tagOf bkey).toNat (tagOf akey).toNat) := by
  rw [InternalKeyComparator.Compare]
  cases comparator (ExtractUserKey akey) (ExtractUserKey bkey) with
  | lt => rfl
  | gt => rfl
  | eq =>
    simp only [UInt64.lt_iff_toNat_lt, Ordering.then]
    rcases Nat.lt_trichotomy (tagOf bkey).toNat (tagOf akey).toNat with h | h | h
    · rw [if_pos h, Nat.compare_eq_lt.2 h]
    · rw [h, if_neg (Nat.lt_irrefl _), if_neg (Nat.lt_irrefl _), Nat.compare_eq_eq.2 rfl]
    · rw [if_neg (Nat.lt_asymm h), if_pos h, Nat.compare_eq_gt.2 h]

instance [Std.TransCmp comparator] : Std.TransCmp (KeyComparator comparator) := by
  have huser : Std.TransCmp fun a b : Slice =>
      comparator (ExtractUserKey (lengthPrefixedSlice a)) (ExtractUserKey (lengthPrefixedSlice b)) :=
    { eq_swap := Std.OrientedCmp.eq_swap
      isLE_trans := Std.TransCmp.isLE_trans }
  have htag : Std.TransCmp fun a b : Slice =>
      compare (tagOf (lengthPrefixedSlice b)).toNat (tagOf (lengthPrefixedSlice a)).toNat :=
    { eq_swap := Std.OrientedCmp.eq_swap
      isLE_trans := fun hab hbc => Std.TransCmp.isLE_trans hbc hab }
  have hlex : KeyComparator comparator = compareLex
      (fun a b => comparator (ExtractUserKey (lengthPrefixedSlice a)) (ExtractUserKey (lengthPrefixedSlice b)))
      (fun a b => compare (tagOf (lengthPrefixedSlice b)).toNat (tagOf (lengthPrefixedSlice a)).toNat) := by
    funext a b
    rw [KeyComparator, compare_eq]
    rfl
  rw [hlex]
  infer_instance

namespace Write

/-- The sequence number has 56 bits and the lengths 32. -/
structure Fits (a : Write) : Prop where
  seq : a.seq.toNat ≤ kMaxSequenceNumber
  key : a.key.length + 8 < 2 ^ 32
  value : a.value.length < 2 ^ 32

theorem Fits.internalKey {a : Write} (h : a.Fits) :
    lengthPrefixedSlice a.encode = a.key ++ EncodeFixed64 a.tag := by
  have hlength : (a.key ++ EncodeFixed64 a.tag).length = a.key.length + 8 := by simp
  have hslice :=
    lengthPrefixedSlice_append (show (a.key ++ EncodeFixed64 a.tag).length < 2 ^ 32 by rw [hlength]; exact h.key)
    (EncodeVarint32 (UInt32.ofNat a.value.length) ++ a.value)
  rw [hlength] at hslice
  exact hslice

theorem Fits.toNat_tag {a : Write} (h : a.Fits) : a.tag.toNat = a.seq.toNat * 2 ^ 8 + a.type.toNat :=
  Encoded.toNat_tag h.seq a.type

/-- An entry has one user key and one tag. -/
theorem Fits.eq_of_encode_eq {a b : Write} (ha : a.Fits) (hb : b.Fits) (h : a.encode = b.encode) :
    a.key = b.key ∧ a.tag = b.tag := by
  have hkeys := ha.internalKey
  rw [h, hb.internalKey] at hkeys
  have hkey := congrArg ExtractUserKey hkeys
  have htag := congrArg tagOf hkeys
  rw [extractUserKey_append, extractUserKey_append] at hkey
  rw [tagOf_append, tagOf_append] at htag
  exact ⟨hkey.symm, htag.symm⟩

/-- The entry is as long as `Add` assumes. -/
theorem length_encode {a : Write} (hkey : a.key.length + 8 < 2 ^ 32) (hvalue : a.value.length < 2 ^ 32) :
    a.encode.length = a.encodedlen := by
  rw [encode, encodedlen]
  simp only [List.length_append, length_encodeVarint32 hkey, length_encodeVarint32 hvalue, length_encodeFixed64]
  omega

end Write

/-- The memtable key of a user key and a tag, with what follows it. -/
theorem keyComparator_eq {aptr bptr akey bkey : Slice} {atag btag : UInt64}
    (ha : lengthPrefixedSlice aptr = akey ++ EncodeFixed64 atag)
    (hb : lengthPrefixedSlice bptr = bkey ++ EncodeFixed64 btag) :
    KeyComparator comparator aptr bptr = (comparator akey bkey).then (compare btag.toNat atag.toNat) := by
  rw [KeyComparator, compare_eq, ha, hb, extractUserKey_append, extractUserKey_append, tagOf_append, tagOf_append]

end Order

/-- The key of a read. -/
theorem LookupKey.exists_new {userkey : Slice} {s : UInt64} (hs : s.toNat ≤ kMaxSequenceNumber)
    (hkey : userkey.length + 8 < 2 ^ 32) : ∃ key, LookupKey.new userkey s = some key ∧ key.UserKey = userkey ∧
      lengthPrefixedSlice key.MemtableKey =
        userkey ++ EncodeFixed64 ((s <<< 8) ||| kValueTypeForSeek.toUInt64) := by
  have hlength : (userkey ++ EncodeFixed64 ((s <<< 8) ||| kValueTypeForSeek.toUInt64)).length =
      userkey.length + 8 := by simp
  have hslice := lengthPrefixedSlice_append (show _ < 2 ^ 32 by rw [hlength]; exact hkey) []
  rw [hlength, List.append_nil] at hslice
  simp only [LookupKey.new, packSequenceAndType, if_pos hs, Option.bind_eq_bind, Option.bind_some]
  refine ⟨_, rfl, ?_, hslice⟩
  rw [UserKey]
  simp only [List.drop_left]
  have hsize : ∀ size : Slice,
      (size ++ (userkey ++ EncodeFixed64 ((s <<< 8) ||| kValueTypeForSeek.toUInt64))).length -
      size.length - 8 = userkey.length := by
    intro size
    simp
  rw [hsize]
  exact List.take_left

/-! ### Writes and reads -/

namespace MemTable

variable {comparator : Slice → Slice → Ordering}

/-- No two writes have the same user key, sequence number and type. -/
def Distinct (comparator : Slice → Slice → Ordering) (writes : List Write) : Prop :=
  writes.Pairwise fun a b => comparator a.key b.key = .eq → a.seq = b.seq → a.type ≠ b.type

theorem keyComparator_encode {a b : Write} (ha : a.Fits) (hb : b.Fits) : KeyComparator comparator a.encode b.encode =
    (comparator a.key b.key).then (compare b.tag.toNat a.tag.toNat) :=
  keyComparator_eq ha.internalKey hb.internalKey

theorem eq_of_tag_eq {a b : Write} (ha : a.Fits) (hb : b.Fits) (h : a.tag.toNat = b.tag.toNat) :
    a.seq = b.seq ∧ a.type = b.type := by
  rw [ha.toNat_tag, hb.toNat_tag] at h
  have hta := a.type.toNat_le
  have htb := b.type.toNat_le
  exact ⟨UInt64.toNat_inj.1 (by omega), ValueType.toNat_injective (by omega)⟩

/-- Writes are put into the table one after the other, whatever the draws are. -/
theorem exists_addAll [Std.TransCmp comparator] {calls : List (List Bool × Write)} {m : MemTable} {done : List Write}
    {chain : ℕ → List (ℕ × Slice)} (h : SkipList.Sound (KeyComparator comparator) m.table chain)
    (hdone : ((chain 0).map Prod.snd).Perm (done.map Write.encode))
    (hfits : ∀ a ∈ done ++ calls.map Prod.snd, a.Fits)
    (hdistinct : Distinct comparator (done ++ calls.map Prod.snd)) :
    ∃ m' chain', m.addAll comparator calls = some m' ∧ SkipList.Sound (KeyComparator comparator) m'.table chain' ∧
      ((chain' 0).map Prod.snd).Perm ((done ++ calls.map Prod.snd).map Write.encode) := by
  induction calls generalizing m done chain with
  | nil => exact ⟨m, chain, rfl, h, by simpa using hdone⟩
  | cons call calls ih =>
    obtain ⟨draws, a⟩ := call
    have ha : a.Fits := hfits a (by simp)
    -- An equal entry would be of a write with the same user key, sequence number and type.
    have hne : ∀ e ∈ chain 0, KeyComparator comparator e.2 a.encode ≠ .eq := by
      intro e he heq
      obtain ⟨b, hb, hbe⟩ := List.mem_map.1 (hdone.mem_iff.1 (List.mem_map_of_mem he))
      have hbfits : b.Fits := hfits b (List.mem_append_left _ hb)
      rw [← hbe, keyComparator_encode hbfits ha, Ordering.then_eq_eq] at heq
      have htag := eq_of_tag_eq hbfits ha (Nat.compare_eq_eq.1 heq.2).symm
      exact (List.pairwise_append.1 hdistinct).2.2 b hb a (by simp) heq.1 htag.1 htag.2
    obtain ⟨table, hinsert, hsound⟩ := h.insert hne draws
    have hadd : m.Add comparator draws a = some ⟨table, m.memoryusage + a.encodedlen⟩ := by
      rw [Add, if_pos (Write.length_encode ha.key ha.value), hinsert]
      rfl
    have hsplit : done ++ ((draws, a) :: calls).map Prod.snd = (done ++ [a]) ++ calls.map Prod.snd := by simp
    rw [hsplit] at hfits hdistinct ⊢
    obtain ⟨m', chain', haddAll, hsound', hperm⟩ :=
      @ih ⟨table, m.memoryusage + a.encodedlen⟩ (done ++ [a]) _ hsound (by
      refine ((h.perm_inserted _ a.encode (SkipList.randomHeight_bounds draws).1).map Prod.snd).trans ?_
      rw [List.map_append, List.map_cons, List.map_singleton]
      exact (hdone.cons a.encode).trans (List.perm_append_singleton ..).symm) hfits hdistinct
    exact ⟨m', chain', by rw [addAll, hadd]; exact haddAll, hsound', hperm⟩

/-- The write is of the user key and not later than the read. -/
def Visible (comparator : Slice → Slice → Ordering) (u : Slice) (s : UInt64) (a : Write) : Prop :=
  comparator a.key u = .eq ∧ a.seq ≤ s

/-- What a read that finds the write returns. -/
def result (a : Write) : Except Status Slice :=
  match a.type with
  | .kTypeValue => .ok a.value
  | .kTypeDeletion => .error (.NotFound "")

/-- What a read should return: what the newest visible write has, and nothing only when no write is visible. -/
def Reads (comparator : Slice → Slice → Ordering) (writes : List Write) (u : Slice) (s : UInt64) :
    Option (Except Status Slice) → Prop
  | none => ∀ a ∈ writes, ¬ Visible comparator u s a
  | some r => ∃ a ∈ writes, Visible comparator u s a ∧ r = result a ∧
      ∀ b ∈ writes, Visible comparator u s b → b.seq < a.seq ∨ b.seq = a.seq ∧ b.type.toNat ≤ a.type.toNat

/-- `Get` once the entry has been found. -/
theorem get_entry {m : MemTable} {key : LookupKey} {node : Option ℕ} {a : Write} (ha : a.Fits)
    (hseek : SkipList.Iterator.Seek (KeyComparator comparator) m.table key.MemtableKey = some node)
    (hkey : SkipList.Iterator.key m.table node = some a.encode) : m.Get comparator key =
      some (if comparator a.key key.UserKey = .eq then some (result a) else none) := by
  have hvalid : SkipList.Iterator.Valid node = true := by
    cases node with
    | none => cases hkey
    | some x => rfl
  have hlen := toNat_ofNat_of_lt ha.key
  obtain ⟨value, hvalue⟩ : ∃ value, value = EncodeVarint32 (UInt32.ofNat a.value.length) ++ a.value := ⟨_, rfl⟩
  have hentry : GetVarint32 a.encode =
      some (UInt32.ofNat (a.key.length + 8), a.key ++ (EncodeFixed64 a.tag ++ value)) := by
    rw [Write.encode, getVarint32_append, hvalue, List.append_assoc]
  have hdrop : (a.key ++ (EncodeFixed64 a.tag ++ value)).drop (a.key.length + 8) = value := by
    rw [← List.append_assoc, List.drop_left' (by simp)]
  have hslice : lengthPrefixedSlice value = a.value := by
    have hslice := lengthPrefixedSlice_append ha.value []
    rwa [List.append_nil, ← hvalue] at hslice
  have hbyte : a.tag &&& 0xff = a.type.toUInt64 := by
    have htype : a.type.toUInt64.toNat = a.type.toNat := by cases a.type <;> rfl
    have hle := a.type.toNat_le
    apply UInt64.toNat_inj.1
    rw [UInt64.toNat_and, ha.toNat_tag, htype, show (0xff : UInt64).toNat = 2 ^ 8 - 1 from rfl,
      Nat.and_two_pow_sub_one_eq_mod]
    omega
  rw [Get, hseek]
  simp only [Option.bind_eq_bind, Option.bind_some, hvalid, if_true, hkey, hentry, hlen,
    Nat.add_sub_cancel, List.take_left,
    List.drop_left, decodeFixed64_append, hbyte, hdrop, hslice]
  by_cases heq : comparator a.key key.UserKey = .eq
  · rw [if_pos heq, if_pos heq, result]
    cases a.type <;> rfl
  · rw [if_neg heq, if_neg heq]
    rfl

/-- The first element that passes a test comes before the others that do. -/
theorem find?_first {α : Type} {R : α → α → Prop} {l : List α} (hl : l.Pairwise R) {p : α → Bool} {a b : α}
    (ha : l.find? p = some a) (hb : b ∈ l) (hpb : p b = true) : b = a ∨ R a b := by
  obtain ⟨-, before, after, rfl, hbefore⟩ := List.find?_eq_some_iff_append.1 ha
  rcases List.mem_append.1 hb with hb | hb
  · have hnot := hbefore b hb
    rw [hpb] at hnot
    cases hnot
  · rcases List.mem_cons.1 hb with rfl | hb
    · exact Or.inl rfl
    · exact Or.inr ((List.pairwise_cons.1 (List.pairwise_append.1 hl).2.1).1 b hb)

/-- Where an entry is from the key of a read. -/
theorem isGE_lookupKey {a : Write} (ha : a.Fits) {u : Slice} {s : UInt64} (hs : s.toNat ≤ kMaxSequenceNumber)
    {memkey : Slice}
    (hkey : lengthPrefixedSlice memkey = u ++ EncodeFixed64 ((s <<< 8) ||| kValueTypeForSeek.toUInt64)) :
    (KeyComparator comparator a.encode memkey).isGE = true ↔ comparator a.key u = .gt ∨ Visible comparator u s a := by
  have hle := a.type.toNat_le
  have hseek : kValueTypeForSeek.toNat = 1 := rfl
  rw [keyComparator_eq ha.internalKey hkey, toNat_tag hs, ha.toNat_tag, RedisDb.packSequenceAndType, hseek, Visible,
    UInt64.le_iff_toNat_le]
  cases comparator a.key u with
  | lt => simp [Ordering.then]
  | gt => simp [Ordering.then]
  | eq =>
    rw [Ordering.eq_then, Nat.isGE_compare]
    simp only [reduceCtorEq, false_or, true_and]
    omega

/-- `Get` finds the newest version that the read may see. -/
theorem get_reads [Std.TransCmp comparator] {m : MemTable} {writes : List Write} {chain : ℕ → List (ℕ × Slice)}
    (h : SkipList.Sound (KeyComparator comparator) m.table chain)
    (hentries : ((chain 0).map Prod.snd).Perm (writes.map Write.encode)) (hfits : ∀ a ∈ writes, a.Fits) {u : Slice}
    {s : UInt64} (hs : s.toNat ≤ kMaxSequenceNumber) {key : LookupKey} (huser : key.UserKey = u)
    (hkey : lengthPrefixedSlice key.MemtableKey = u ++ EncodeFixed64 ((s <<< 8) ||| kValueTypeForSeek.toUInt64)) :
    ∃ r, m.Get comparator key = some r ∧ Reads comparator writes u s r := by
  have hiterates := h.iterates
  have hseek := hiterates.seek key.MemtableKey
  -- the entry of a write that is visible
  have hvisible : ∀ b ∈ writes, Visible comparator u s b →
      ∃ e ∈ chain 0, e.2 = b.encode ∧ (KeyComparator comparator e.2 key.MemtableKey).isGE = true := by
    intro b hb hvis
    obtain ⟨e, he, heb⟩ := List.mem_map.1 (hentries.mem_iff.2 (List.mem_map_of_mem hb))
    exact ⟨e, he, heb, by rw [heb]; exact (isGE_lookupKey (hfits b hb) hs hkey).2 (Or.inr hvis)⟩
  cases hfind : (chain 0).find? fun e => (KeyComparator comparator e.2 key.MemtableKey).isGE with
  | none =>
    rw [hfind] at hseek
    refine ⟨none, by rw [Get, hseek]; rfl, fun b hb hvis => ?_⟩
    obtain ⟨e, he, -, hge⟩ := hvisible b hb hvis
    exact List.find?_eq_none.1 hfind e he hge
  | some e =>
    rw [hfind] at hseek
    have he := List.mem_of_find?_eq_some hfind
    obtain ⟨a, ha, hea⟩ := List.mem_map.1 (hentries.mem_iff.1 (List.mem_map_of_mem he))
    have hget := get_entry (hfits a ha) hseek ((hiterates.key e he).trans (by rw [hea]))
    have hge : (KeyComparator comparator a.encode key.MemtableKey).isGE = true := by
      rw [hea]
      simpa using List.find?_some hfind
    have hcase := (isGE_lookupKey (hfits a ha) hs hkey).1 hge
    -- what comes after the entry that is found
    have hafter : ∀ b ∈ writes, Visible comparator u s b → a.encode = b.encode ∨
        (comparator a.key b.key).then (compare b.tag.toNat a.tag.toNat) = .lt := by
      intro b hb hvis
      obtain ⟨e', he', heb, hge'⟩ := hvisible b hb hvis
      rcases find?_first (h.increasing 0) hfind he' hge' with rfl | hlt
      · exact Or.inl (hea.trans heb)
      · rw [← keyComparator_encode (hfits a ha) (hfits b hb), hea, ← heb]
        exact Or.inr hlt
    rw [huser] at hget
    refine ⟨_, hget, ?_⟩
    rcases hcase with hgt | hvis
    · -- The entry that is found has a larger user key, so no entry of `u` is after the key of the read.
      rw [if_neg (by simp [hgt])]
      intro b hb hvisb
      rcases hafter b hb hvisb with hab | hlt
      · rw [((hfits a ha).eq_of_encode_eq (hfits b hb) hab).1, hvisb.1] at hgt
        cases hgt
      · have hle : (comparator a.key b.key).isLE = true := by
          cases hcmp : comparator a.key b.key <;> simp [hcmp, Ordering.then] at hlt ⊢
        have hcongr : comparator a.key u = comparator a.key b.key := (Std.TransCmp.congr_right hvisb.1).symm
        rw [← hcongr, hgt] at hle
        cases hle
    · -- The entries of `u` come with their tags decreasing, and the first one is found.
      rw [if_pos hvis.1]
      refine ⟨a, ha, hvis, rfl, fun b hb hvisb => ?_⟩
      have htag : b.tag.toNat ≤ a.tag.toNat := by
        rcases hafter b hb hvisb with hab | hlt
        · rw [((hfits a ha).eq_of_encode_eq (hfits b hb) hab).2]
        · have heq : comparator a.key b.key = .eq := Std.TransCmp.eq_trans hvis.1 (Std.OrientedCmp.eq_symm hvisb.1)
          rw [heq] at hlt
          exact Nat.le_of_lt (Nat.compare_eq_lt.1 hlt)
      rw [(hfits a ha).toNat_tag, (hfits b hb).toNat_tag] at htag
      have hta := a.type.toNat_le
      have htb := b.type.toNat_le
      rw [UInt64.lt_iff_toNat_lt, ← UInt64.toNat_inj]
      omega

/-- A memtable is a sorted map of versions: after any writes, whatever the heights of the nodes, the lists of the skip
list are in order and hold the entries of the writes, its iterator goes through them, and a read finds the newest
version that it may see. -/
theorem addAll_sorted [Std.TransCmp comparator] {calls : List (List Bool × Write)}
    (hfits : ∀ a ∈ calls.map Prod.snd, a.Fits) (hdistinct : Distinct comparator (calls.map Prod.snd)) :
    ∃ m chain, new.addAll comparator calls = some m ∧
      SkipList.Levels (KeyComparator comparator) m.table chain ∧
      ((chain 0).map Prod.snd).Perm ((calls.map Prod.snd).map Write.encode) ∧
      SkipList.Iterates (KeyComparator comparator) m.table (chain 0) ∧
      ∀ (u : Slice) (s : UInt64), u.length + 8 < 2 ^ 32 → s.toNat ≤ kMaxSequenceNumber →
        ∃ key r, LookupKey.new u s = some key ∧ m.Get comparator key = some r ∧
          Reads comparator (calls.map Prod.snd) u s r := by
  obtain ⟨m, chain, hadd, hsound, hentries⟩ := exists_addAll
    (show SkipList.Sound (KeyComparator comparator) new.table fun _ => [] from SkipList.sound_new)
    (List.Perm.refl ([].map Write.encode)) hfits hdistinct
  refine ⟨m, chain, hadd, hsound.toLevels, hentries, hsound.iterates, fun u s hu hs => ?_⟩
  obtain ⟨key, hkey, huser, hslice⟩ := LookupKey.exists_new hs hu
  obtain ⟨r, hget, hreads⟩ := get_reads hsound hentries hfits hs huser hslice
  exact ⟨key, r, hkey, hget, hreads⟩

/-- The table holds the entries of the writes, which are all different. -/
structure Holds (comparator : Slice → Slice → Ordering) (m : MemTable) (writes : List Write) : Prop where
  table : ∃ chain, SkipList.Sound (KeyComparator comparator) m.table chain ∧
    ((chain 0).map Prod.snd).Perm (writes.map Write.encode)
  fits : ∀ a ∈ writes, a.Fits
  distinct : Distinct comparator writes

theorem holds_new (comparator : Slice → Slice → Ordering) : new.Holds comparator [] :=
  ⟨⟨fun _ => [], SkipList.sound_new, List.Perm.refl _⟩, by simp, List.Pairwise.nil⟩

theorem Holds.addAll [Std.TransCmp comparator] {m : MemTable} {writes : List Write} (h : m.Holds comparator writes)
    {calls : List (List Bool × Write)} (hfits : ∀ a ∈ calls.map Prod.snd, a.Fits)
    (hdistinct : Distinct comparator (writes ++ calls.map Prod.snd)) :
    ∃ m', m.addAll comparator calls = some m' ∧ m'.Holds comparator (writes ++ calls.map Prod.snd) := by
  obtain ⟨chain, hsound, hentries⟩ := h.table
  have hall : ∀ a ∈ writes ++ calls.map Prod.snd, a.Fits := fun a ha =>
    (List.mem_append.1 ha).elim (h.fits a) (hfits a)
  obtain ⟨m', chain', hadd, hsound', hentries'⟩ := exists_addAll hsound hentries hall hdistinct
  exact ⟨m', hadd, ⟨chain', hsound', hentries'⟩, hall, hdistinct⟩

section Examples

theorem addAll_sorted_twoVersions : ∃ m chain,
    new.addAll compare
      [([true], ⟨1, .kTypeValue, [97], [49]⟩), ([true, true], ⟨2, .kTypeDeletion, [97], []⟩)] = some m ∧
    SkipList.Levels (KeyComparator compare) m.table chain ∧
    ((chain 0).map Prod.snd).Perm
      ([(⟨1, .kTypeValue, [97], [49]⟩ : Write), ⟨2, .kTypeDeletion, [97], []⟩].map Write.encode) ∧
    SkipList.Iterates (KeyComparator compare) m.table (chain 0) ∧
    ∀ (u : Slice) (s : UInt64), u.length + 8 < 2 ^ 32 → s.toNat ≤ kMaxSequenceNumber →
      ∃ key r, LookupKey.new u s = some key ∧ m.Get compare key = some r ∧
        Reads compare [⟨1, .kTypeValue, [97], [49]⟩, ⟨2, .kTypeDeletion, [97], []⟩] u s r :=
  addAll_sorted (by simp; exact ⟨⟨by decide, by decide, by decide⟩, ⟨by decide, by decide, by decide⟩⟩)
    (by simp [Distinct])

/-- The sequence number 2^56 is cut to 0, so a read as of 0 finds the write. -/
theorem not_reads_wideSequence : ∃ m key,
    new.addAll compare [([], ⟨2 ^ 56, .kTypeValue, [97], [49]⟩)] = some m ∧
    LookupKey.new [97] 0 = some key ∧ m.Get compare key = some (some (.ok [49])) ∧
    ¬ Reads compare [⟨2 ^ 56, .kTypeValue, [97], [49]⟩] [97] 0 (some (.ok [49])) := by
  have hlength : (⟨2 ^ 56, .kTypeValue, [97], [49]⟩ : Write).encode.length =
      (⟨2 ^ 56, .kTypeValue, [97], [49]⟩ : Write).encodedlen := Write.length_encode (by decide) (by decide)
  rw [addAll, Add, if_pos hlength]
  refine ⟨_, _, rfl, rfl, by decide +kernel, ?_⟩
  rintro ⟨a, ha, hvis, -⟩
  rw [List.mem_singleton.1 ha] at hvis
  exact absurd hvis.2 (by decide)

end Examples

end MemTable

end Encoded

end RedisDb
