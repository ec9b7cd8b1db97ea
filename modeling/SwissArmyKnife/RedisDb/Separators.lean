import SwissArmyKnife.Lib.ThreeWay
import SwissArmyKnife.RedisDb.Comparator
import SwissArmyKnife.RedisDb.MemTable
import SwissArmyKnife.RedisDb.TableBuilder

/-!
# Separators and successors

`FindShortestSeparator` and `FindShortSuccessor` of `BytewiseComparatorImpl` and of `InternalKeyComparator`.  A
separator is not less than the start and less than the limit, and a successor is not less than its key; the internal
keys that are built are well formed, and no assertion fails (`separators_contract`).  There is no result when an
assertion fails.
-/

namespace RedisDb

namespace BytewiseComparatorImpl

/-- `std::string_view::compare`, on unsigned bytes. -/
def Compare (a b : Slice) : Ordering := ThreeWay.sign a b

/-- The length of the common prefix. -/
def diffIndex : Slice → Slice → ℕ
  | a :: start, b :: limit => if a = b then diffIndex start limit + 1 else 0
  | _, _ => 0

def FindShortestSeparator (start limit : Slice) : Option Slice :=
  match start[diffIndex start limit]?, limit[diffIndex start limit]? with
  | some diffByte, some limitByte =>
    if diffByte < 0xff ∧ diffByte.toNat + 1 < limitByte.toNat then
      let start := (start.set (diffIndex start limit) (diffByte + 1)).take (diffIndex start limit + 1)
      if Compare start limit = .lt then some start else none
    else some start
  -- one string is a prefix of the other
  | _, _ => some start

def FindShortSuccessor (key : Slice) : Slice :=
  match key.findIdx? (· != 0xff) with
  | some i => (key.set i (key.getD i 0 + 1)).take (i + 1)
  | none => key

/-! ### Bytes -/

private theorem succ_gt {a : UInt8} (h : a < 0xff) : a < a + 1 := by
  rw [UInt8.lt_iff_toNat_lt] at h ⊢
  have hff : (0xff : UInt8).toNat = 255 := rfl
  have hone : (1 : UInt8).toNat = 1 := rfl
  rw [UInt8.toNat_add]
  omega

private theorem set_take (p : Slice) (a b : UInt8) (x : Slice) :
    ((p ++ a :: x).set p.length b).take (p.length + 1) = p ++ [b] := by
  rw [List.set_append_right _ _ (Nat.le_refl _), Nat.sub_self, List.set_cons_zero, List.take_length_add_append]
  rfl

/-- The byte at which the strings differ. -/
private theorem split_at_diffIndex {start limit : Slice} {a b : UInt8} (ha : start[diffIndex start limit]? = some a)
    (hb : limit[diffIndex start limit]? = some b) :
    ∃ p x y, start = p ++ a :: x ∧ limit = p ++ b :: y ∧ diffIndex start limit = p.length := by
  induction start generalizing limit with
  | nil => simp at ha
  | cons c start ih =>
    cases limit with
    | nil => simp at hb
    | cons d limit =>
      by_cases hcd : c = d
      · have hcons : diffIndex (c :: start) (d :: limit) = diffIndex start limit + 1 := if_pos hcd
        rw [hcons, List.getElem?_cons_succ] at ha hb
        obtain ⟨p, x, y, hstart, hlimit, hlength⟩ := ih ha hb
        refine ⟨c :: p, x, y, by rw [hstart]; rfl, by rw [hlimit, hcd]; rfl, ?_⟩
        rw [hcons, hlength]
        rfl
      · have hcons : diffIndex (c :: start) (d :: limit) = 0 := if_neg hcd
        rw [hcons, List.getElem?_cons_zero] at ha hb
        obtain rfl := Option.some.inj ha
        obtain rfl := Option.some.inj hb
        exact ⟨[], start, limit, rfl, rfl, hcons⟩

/-- The start is left as it is, or made a string between the start and the limit. -/
theorem separator_cases (start limit : Slice) :
    FindShortestSeparator start limit = some start ∨
      ∃ s, FindShortestSeparator start limit = some s ∧ start < s ∧ s < limit := by
  rw [FindShortestSeparator]
  cases ha : start[diffIndex start limit]? with
  | none => exact .inl rfl
  | some a =>
    cases hb : limit[diffIndex start limit]? with
    | none => exact .inl rfl
    | some b =>
      dsimp only
      by_cases h : a < 0xff ∧ a.toNat + 1 < b.toNat
      · obtain ⟨p, x, y, hstart, hlimit, hlength⟩ := split_at_diffIndex ha hb
        rw [if_pos h, hlength]
        subst hstart hlimit
        rw [set_take]
        have hsucc := succ_gt h.1
        have hlt : a + 1 < b := by
          have hone : (1 : UInt8).toNat = 1 := rfl
          have hb := b.toNat_lt
          rw [UInt8.lt_iff_toNat_lt, UInt8.toNat_add]
          omega
        have hs : p ++ [a + 1] < p ++ b :: y := append_lt_append_iff.2 (List.cons_lt_cons_iff.2 (.inl hlt))
        have hcompare : Compare (p ++ [a + 1]) (p ++ b :: y) = .lt := ThreeWay.sign_eq_lt_iff.2 hs
        rw [if_pos hcompare]
        exact .inr ⟨_, rfl, append_lt_append_iff.2 (List.cons_lt_cons_iff.2 (.inl hsucc)), hs⟩
      · rw [if_neg h]
        exact .inl rfl

theorem le_successor (key : Slice) : key ≤ FindShortSuccessor key := by
  rw [FindShortSuccessor]
  cases h : key.findIdx? (· != 0xff) with
  | none => exact le_rfl
  | some i =>
    obtain ⟨hi, hne, -⟩ := List.findIdx?_eq_some_iff_getElem.1 h
    have hlength : (key.take i).length = i := List.length_take_of_le hi.le
    have hsplit : key = key.take i ++ key[i] :: key.drop (i + 1) := by
      rw [List.getElem_cons_drop, List.take_append_drop]
    have hlt : key[i] < 0xff := by
      have hff : (0xff : UInt8).toNat = 255 := rfl
      have hbyte := key[i].toNat_lt
      rw [bne_iff_ne, Ne, ← UInt8.toNat_inj] at hne
      rw [UInt8.lt_iff_toNat_lt]
      omega
    have htake := set_take (key.take i) key[i] (key[i] + 1) (key.drop (i + 1))
    rw [← hsplit, hlength] at htake
    dsimp only
    rw [List.getD_eq_getElem?_getD, List.getElem?_eq_getElem hi, Option.getD_some, htake]
    conv => lhs; rw [hsplit]
    exact (append_lt_append_iff.2 (List.cons_lt_cons_iff.2 (.inl (succ_gt hlt)))).le

end BytewiseComparatorImpl

/-- A comparator of user keys. -/
structure UserComparator where
  Compare : Slice → Slice → Ordering
  FindShortestSeparator : Slice → Slice → Option Slice
  FindShortSuccessor : Slice → Option Slice

/-- The functions return, and a start that is made greater is less than the limit. -/
structure UserComparator.Lawful (c : UserComparator) : Prop where
  trans : Std.TransCmp c.Compare
  separator : ∀ start limit, ∃ s, c.FindShortestSeparator start limit = some s ∧
    (c.Compare start s = .lt → c.Compare s limit = .lt)
  successor : ∀ key, (c.FindShortSuccessor key).isSome

def BytewiseComparator : UserComparator where
  Compare := BytewiseComparatorImpl.Compare
  FindShortestSeparator := BytewiseComparatorImpl.FindShortestSeparator
  FindShortSuccessor key := some (BytewiseComparatorImpl.FindShortSuccessor key)

theorem bytewiseComparator_lawful : BytewiseComparator.Lawful where
  trans := ThreeWay.transCmpSign
  separator start limit := by
    rcases BytewiseComparatorImpl.separator_cases start limit with h | ⟨s, h, -, hlt⟩
    · refine ⟨start, h, ?_⟩
      intro hself
      exact absurd (ThreeWay.sign_eq_lt_iff.1 hself) (lt_irrefl start)
    · exact ⟨s, h, fun _ => ThreeWay.sign_eq_lt_iff.2 hlt⟩
  successor _ := rfl

namespace Encoded

structure ParsedInternalKey where
  userkey : Slice
  sequence : UInt64
  type : ValueType

def ParseInternalKey (internalKey : Slice) : Option ParsedInternalKey :=
  let n := internalKey.length
  if n < 8 then none
  else
    let num := DecodeFixed64 (internalKey.drop (n - 8))
    let c := num &&& 0xff
    if c = 0 then some ⟨internalKey.take (n - 8), num >>> 8, .kTypeDeletion⟩
    else if c = 1 then some ⟨internalKey.take (n - 8), num >>> 8, .kTypeValue⟩
    else none

namespace InternalKeyComparator

/-- The user key with the earliest number that it can have. -/
def seekKey (userkey : Slice) : Option Slice :=
  (packSequenceAndType (UInt64.ofNat kMaxSequenceNumber) kValueTypeForSeek).map fun tag =>
    userkey ++ EncodeFixed64 tag

def FindShortestSeparator (comparator : UserComparator) (start limit : Slice) : Option Slice := do
  if start.length < 8 ∨ limit.length < 8 then none
  else
    let userstart := ExtractUserKey start
    let tmp ← comparator.FindShortestSeparator userstart (ExtractUserKey limit)
    if tmp.length < userstart.length ∧ comparator.Compare userstart tmp = .lt then
      let tmp ← seekKey tmp
      if Compare comparator.Compare start tmp = .lt ∧
        Compare comparator.Compare tmp limit = .lt then some tmp else none
    else some start

def FindShortSuccessor (comparator : UserComparator) (key : Slice) : Option Slice := do
  if key.length < 8 then none
  else
    let userkey := ExtractUserKey key
    let tmp ← comparator.FindShortSuccessor userkey
    if tmp.length < userkey.length ∧ comparator.Compare userkey tmp = .lt then
      let tmp ← seekKey tmp
      if Compare comparator.Compare key tmp = .lt then some tmp else none
    else some key

/-! ### Internal keys -/

variable {comparator : UserComparator}

theorem length_of_parse {key : Slice} (h : (ParseInternalKey key).isSome) : 8 ≤ key.length := by
  by_contra hlt
  rw [ParseInternalKey, if_pos (by omega)] at h
  exact Bool.false_ne_true h

/-- The tag of the largest sequence number. -/
def seekTag : UInt64 := (UInt64.ofNat kMaxSequenceNumber <<< 8) ||| kValueTypeForSeek.toUInt64

theorem seekKey_eq (userkey : Slice) : seekKey userkey = some (userkey ++ EncodeFixed64 seekTag) := rfl

theorem parse_seekKey (userkey : Slice) : (ParseInternalKey (userkey ++ EncodeFixed64 seekTag)).isSome := by
  have hnum : DecodeFixed64
      ((userkey ++ EncodeFixed64 seekTag).drop ((userkey ++ EncodeFixed64 seekTag).length - 8)) =
      seekTag := tagOf_append userkey seekTag
  have hlow : seekTag &&& 0xff = 1 := by decide
  rw [ParseInternalKey, if_neg (by simp)]
  dsimp only
  rw [hnum, hlow]
  rfl

private theorem compare_of_user_lt {akey bkey : Slice} {compare : Slice → Slice → Ordering}
    (h : compare (ExtractUserKey akey) (ExtractUserKey bkey) = .lt) : Compare compare akey bkey = .lt := by
  rw [Compare, h]

private theorem compare_self (h : Std.TransCmp comparator.Compare) (key : Slice) :
    Compare comparator.Compare key key = .eq := by
  have huser : comparator.Compare (ExtractUserKey key) (ExtractUserKey key) = .eq := Std.ReflCmp.compare_self
  rw [compare_eq, huser, Nat.compare_eq_eq.2 rfl]
  rfl

theorem transCmp (h : Std.TransCmp comparator.Compare) : Std.TransCmp (Compare comparator.Compare) := by
  have huser : Std.TransCmp fun a b : Slice => comparator.Compare (ExtractUserKey a) (ExtractUserKey b) :=
    { eq_swap := Std.OrientedCmp.eq_swap
      isLE_trans := Std.TransCmp.isLE_trans }
  have htag : Std.TransCmp fun a b : Slice => compare (tagOf b).toNat (tagOf a).toNat :=
    { eq_swap := Std.OrientedCmp.eq_swap
      isLE_trans := fun hab hbc => Std.TransCmp.isLE_trans hbc hab }
  have hlex : Compare comparator.Compare =
      compareLex (fun a b => comparator.Compare (ExtractUserKey a) (ExtractUserKey b))
        (fun a b => compare (tagOf b).toNat (tagOf a).toNat) := by
    funext a b
    rw [compare_eq]
    rfl
  rw [hlex]
  infer_instance

/-- The start is returned, or a key with a shorter and greater user key. -/
theorem separator_cases (h : comparator.Lawful) {start limit : Slice} (hstart : 8 ≤ start.length)
    (hlimit : 8 ≤ limit.length) : FindShortestSeparator comparator start limit = some start ∨
      ∃ s, FindShortestSeparator comparator start limit = some s ∧ (ParseInternalKey s).isSome ∧
        Compare comparator.Compare start s = .lt ∧ Compare comparator.Compare s limit = .lt := by
  obtain ⟨tmp, htmp, hlt⟩ := h.separator (ExtractUserKey start) (ExtractUserKey limit)
  rw [FindShortestSeparator, if_neg (by omega)]
  dsimp only
  rw [htmp]
  by_cases hshort : tmp.length < (ExtractUserKey start).length ∧ comparator.Compare (ExtractUserKey start) tmp = .lt
  · have hlow : Compare comparator.Compare start (tmp ++ EncodeFixed64 seekTag) = .lt :=
      compare_of_user_lt (by rw [extractUserKey_append]; exact hshort.2)
    have hhigh : Compare comparator.Compare (tmp ++ EncodeFixed64 seekTag) limit = .lt :=
      compare_of_user_lt (by rw [extractUserKey_append]; exact hlt hshort.2)
    refine .inr ⟨_, ?_, parse_seekKey tmp, hlow, hhigh⟩
    simp only [Option.bind_eq_bind, Option.bind_some, if_pos hshort, seekKey_eq, hlow, hhigh, and_self, if_true]
  · left
    simp only [Option.bind_eq_bind, Option.bind_some, if_neg hshort]

theorem successor_cases (h : comparator.Lawful) {key : Slice} (hkey : 8 ≤ key.length) :
    FindShortSuccessor comparator key = some key ∨
      ∃ k, FindShortSuccessor comparator key = some k ∧ (ParseInternalKey k).isSome ∧
        Compare comparator.Compare key k = .lt := by
  obtain ⟨tmp, htmp⟩ := Option.isSome_iff_exists.1 (h.successor (ExtractUserKey key))
  rw [FindShortSuccessor, if_neg (by omega)]
  dsimp only
  rw [htmp]
  by_cases hshort : tmp.length < (ExtractUserKey key).length ∧ comparator.Compare (ExtractUserKey key) tmp = .lt
  · have hlow : Compare comparator.Compare key (tmp ++ EncodeFixed64 seekTag) = .lt :=
      compare_of_user_lt (by rw [extractUserKey_append]; exact hshort.2)
    refine .inr ⟨_, ?_, parse_seekKey tmp, hlow⟩
    simp only [Option.bind_eq_bind, Option.bind_some, if_pos hshort, seekKey_eq, hlow, if_true]
  · left
    simp only [Option.bind_eq_bind, Option.bind_some, if_neg hshort]

/-- The comparator with which tables are built. -/
def tableComparator (comparator : UserComparator) : Comparator where
  Compare := Compare comparator.Compare
  FindShortestSeparator start limit := (FindShortestSeparator comparator start limit).getD start
  FindShortSuccessor key := (FindShortSuccessor comparator key).getD key

theorem tableComparator_lawful (h : comparator.Lawful) : (tableComparator comparator).Lawful := by
  have := h.trans
  have hself : ∀ key, (Compare comparator.Compare key key).isLE := by
    intro key
    rw [compare_self h.trans]
    rfl
  have hseparator : ∀ start limit, (FindShortestSeparator comparator start limit).getD start = start ∨
      ∃ s, (FindShortestSeparator comparator start limit).getD start = s ∧
        Compare comparator.Compare start s = .lt ∧ Compare comparator.Compare s limit = .lt := by
    intro start limit
    by_cases hsize : start.length < 8 ∨ limit.length < 8
    · left
      rw [FindShortestSeparator, if_pos hsize]
      rfl
    · rw [not_or, Nat.not_lt, Nat.not_lt] at hsize
      rcases separator_cases h hsize.1 hsize.2 with heq | ⟨s, heq, -, hlow, hhigh⟩
      · exact .inl (by rw [heq]; rfl)
      · exact .inr ⟨s, by rw [heq]; rfl, hlow, hhigh⟩
  constructor
  · exact transCmp h.trans
  · intro start limit hlt
    rcases hseparator start limit with heq | ⟨s, heq, hlow, -⟩
    · simp only [tableComparator, heq, hself]
    · simp only [tableComparator, heq, hlow, Ordering.isLE_lt]
  · intro start limit hlt
    rcases hseparator start limit with heq | ⟨s, heq, -, hhigh⟩
    · simpa only [tableComparator, heq] using hlt
    · simpa only [tableComparator, heq] using hhigh
  · intro key
    by_cases hsize : key.length < 8
    · have hnone : FindShortSuccessor comparator key = none := by rw [FindShortSuccessor, if_pos hsize]
      simp only [tableComparator, hnone, Option.getD_none, hself]
    · rcases successor_cases h (Nat.not_lt.1 hsize) with heq | ⟨k, heq, -, hlow⟩
      · simp only [tableComparator, heq, Option.getD_some, hself]
      · simp only [tableComparator, heq, Option.getD_some, hlow, Ordering.isLE_lt]

end InternalKeyComparator

/-- What is asked of separators and successors, for the bytewise comparator and for internal keys over any comparator
that keeps the contract, which the bytewise one does. -/
theorem separators_contract :
    (∀ start limit : Slice, start < limit →
      ∃ s, BytewiseComparatorImpl.FindShortestSeparator start limit = some s ∧ start ≤ s ∧ s < limit) ∧
    (∀ key : Slice, key ≤ BytewiseComparatorImpl.FindShortSuccessor key) ∧
    BytewiseComparator.Lawful ∧
    ∀ comparator : UserComparator, comparator.Lawful →
      (∀ start limit : Slice, (ParseInternalKey start).isSome → (ParseInternalKey limit).isSome →
        InternalKeyComparator.Compare comparator.Compare start limit = .lt →
        ∃ s, InternalKeyComparator.FindShortestSeparator comparator start limit = some s ∧
        (ParseInternalKey s).isSome ∧
          (InternalKeyComparator.Compare comparator.Compare start s).isLE ∧
          InternalKeyComparator.Compare comparator.Compare s limit = .lt) ∧
      ∀ key : Slice, (ParseInternalKey key).isSome →
        ∃ k, InternalKeyComparator.FindShortSuccessor comparator key = some k ∧ (ParseInternalKey k).isSome ∧
          (InternalKeyComparator.Compare comparator.Compare key k).isLE := by
  refine ⟨?_, BytewiseComparatorImpl.le_successor, bytewiseComparator_lawful, ?_⟩
  · intro start limit hlt
    rcases BytewiseComparatorImpl.separator_cases start limit with heq | ⟨s, heq, hlow, hhigh⟩
    · exact ⟨start, heq, le_rfl, hlt⟩
    · exact ⟨s, heq, hlow.le, hhigh⟩
  · intro comparator h
    have hself := InternalKeyComparator.compare_self h.trans
    constructor
    · intro start limit hstart hlimit hlt
      rcases InternalKeyComparator.separator_cases h (InternalKeyComparator.length_of_parse hstart)
        (InternalKeyComparator.length_of_parse hlimit) with heq | ⟨s, heq, hparse, hlow, hhigh⟩
      · exact ⟨start, heq, hstart, by rw [hself start]; rfl, hlt⟩
      · exact ⟨s, heq, hparse, by rw [hlow]; rfl, hhigh⟩
    · intro key hkey
      rcases InternalKeyComparator.successor_cases h (InternalKeyComparator.length_of_parse hkey) with
        heq | ⟨k, heq, hparse, hlow⟩
      · exact ⟨key, heq, hkey, by rw [hself key]; rfl⟩
      · exact ⟨k, heq, hparse, by rw [hlow]; rfl⟩

/-- The user keys "abc" and "az". -/
theorem separators_contract_bytes :
    ∃ s, InternalKeyComparator.FindShortestSeparator BytewiseComparator
        ([97, 98, 99] ++ EncodeFixed64 257) ([97, 122] ++ EncodeFixed64 513) = some s ∧
      (InternalKeyComparator.Compare BytewiseComparator.Compare ([97, 98, 99] ++ EncodeFixed64 257) s).isLE ∧
      InternalKeyComparator.Compare BytewiseComparator.Compare s ([97, 122] ++ EncodeFixed64 513) = .lt := by
  obtain ⟨s, hs, -, hlow, hhigh⟩ := (separators_contract.2.2.2 BytewiseComparator bytewiseComparator_lawful).1
    ([97, 98, 99] ++ EncodeFixed64 257) ([97, 122] ++ EncodeFixed64 513) (by decide) (by decide) (by decide)
  exact ⟨s, hs, hlow, hhigh⟩

end Encoded

end RedisDb
