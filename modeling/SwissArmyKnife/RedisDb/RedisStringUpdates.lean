import Mathlib.Logic.Relation
import SwissArmyKnife.Lib.Decimal
import SwissArmyKnife.RedisDb.RedisString
import SwissArmyKnife.RedisDb.WriteBatch

/-!
# Updates of strings in place

`Append`, `Incrby`, `Decrby`, `SetBit` and `Setrange` read the value of a string and store a new one.  The first three
store it with the timestamp of the old one; `Setrange`, and `SetBit` when it changes the bit, store it without
(`update_timestamp_iff`).  `Incrby` reads the old value with `strtoll`, as a C string: it is exact unless that reads a
text to its end which is not the decimal form of a number (`incrby_exact_iff`).  `Decrby` is a copy of it that tests
the sum where it takes the difference, and stores the number itself for a key without a value (`decrby_mirrors_iff`). 
Both have destroyed the text of that number when they store it.
-/

namespace RedisDb

/-- The C string at the beginning of some bytes. -/
def CStr (bytes : Slice) : Slice := bytes.takeWhile (· ≠ 0)

def LLONG_MAX : Int64 := Int64.maxValue

def LLONG_MIN : Int64 := Int64.minValue

namespace RedisString

def Append (io : Option Failure) (db : Db) (key value : Slice) (time : Int) : Db × Status × Int32 :=
  match RedisDb.Get io db key with
  | .ok oldvalue =>
    let pstringsvalue := ParsedStringsMetaValue.new oldvalue
    if pstringsvalue.IsStale time then
      (db.put key (StringsMetaValue.new value).Encode, .OK, Int32.ofNat value.length)
    else
      let newvalue := pstringsvalue.uservalue ++ value
      (db.put key (StringsMetaValue.mk newvalue pstringsvalue.timestamp).Encode, .OK, Int32.ofNat newvalue.length)
  | .notFound => (db.put key (StringsMetaValue.new value).Encode, .OK, Int32.ofNat value.length)
  | .error e => (db, e.status, 0)

/-- The test before the sum is taken. -/
def overflows (value ival : Int64) : Bool :=
  (decide (0 ≤ value) && decide (LLONG_MAX - value < ival)) ||
    (decide (value < 0) && decide (ival < LLONG_MIN - value))

/-- What a view shows of the text of a number that was destroyed: as many bytes of the memory. -/
def danglingNumber (memory : Nat → UInt8) (value : Int64) : Slice :=
  (List.range (Decimal.toString value.toInt).length).map memory

/-- `Incrby` and `Decrby`: `fresh` is returned for a key without a value, and `combine` is what is stored otherwise. 
The text of `value`, which a key without a value gets, is destroyed before it is stored.  The result pointer is
written when there is a result. -/
def combineNumber (io : Option Failure) (db : Db) (key : Slice) (value fresh : Int64) (combine : Int64 → Int64)
    (memory : Nat → UInt8) (time : Int) : Db × Status × Option Int64 :=
  match RedisDb.Get io db key with
  | .ok oldvalue =>
    let pstringsvalue := ParsedStringsMetaValue.new oldvalue
    if pstringsvalue.IsStale time then
      (db.put key (StringsMetaValue.new (danglingNumber memory value)).Encode, .OK, some fresh)
    else
      let ival := Int64.ofInt (Decimal.strtoll (CStr pstringsvalue.uservalue)).1
      if (Decimal.strtoll (CStr pstringsvalue.uservalue)).2 ≠ [] then (db, .Corruption "Value is not a integer", none)
      else if overflows value ival then (db, .InvalidArgument "Overflow", none)
      else
        let newvalue := Decimal.toString (combine ival).toInt
        (db.put key (StringsMetaValue.mk newvalue pstringsvalue.timestamp).Encode, .OK, some (combine ival))
  | .notFound => (db.put key (StringsMetaValue.new (danglingNumber memory value)).Encode, .OK, some fresh)
  | .error e => (db, e.status, none)

def Incrby (io : Option Failure) (db : Db) (key : Slice) (value : Int64) (memory : Nat → UInt8) (time : Int) :
    Db × Status × Option Int64 :=
  combineNumber io db key value value (fun ival => ival + value) memory time

/-- `Decrby` tests the sum and takes the difference. -/
def Decrby (io : Option Failure) (db : Db) (key : Slice) (value : Int64) (memory : Nat → UInt8) (time : Int) :
    Db × Status × Option Int64 :=
  combineNumber io db key value (-value) (fun ival => ival - value) memory time

/-- `Put` through a write batch, which keeps 32 bits of the length of the value (a key is taken to be shorter).  The
bytes behind that are read as more records of the batch, so that the status is not `OK`: for that the number of
records would have to overflow. -/
def putRecord (db : Db) (key value : Slice) : Db × Status :=
  (db.put key (value.take (value.length % 2 ^ 32)),
    if value.length < 2 ^ 32 then .OK
    else
      match (WriteBatch.iterateFrom 1 (value.drop (value.length % 2 ^ 32)) 1 1).2 with
      | .OK => .Corruption "WriteBatch has wrong Count"
      | s => s)

theorem putRecord_of_lt {value : Slice} (h : value.length < 2 ^ 32) (db : Db) (key : Slice) :
    putRecord db key value = (db.put key value, .OK) := by
  unfold putRecord
  rw [Nat.mod_eq_of_lt h, List.take_length, if_pos h]

theorem lt_of_putRecord {db : Db} {key value : Slice} (hok : (putRecord db key value).2 = .OK) :
    value.length < 2 ^ 32 := by
  by_contra hlong
  unfold putRecord at hok
  rw [if_neg hlong] at hok
  dsimp only at hok
  split at hok
  · cases hok
  · rename_i hne
    exact hne hok

/-- The bit of a string, the most significant one of a byte first; it is 0 beyond the end. -/
def bitAt (datavalue : Slice) (offset : Nat) : Int32 :=
  match datavalue[offset / 8]? with
  | some byteVal => if byteVal.toNat.testBit (7 - offset % 8) then 1 else 0
  | none => 0

/-- The byte with one bit replaced by the last bit of `value`. -/
def replaceBit (byteVal : UInt8) (bit : Nat) (value : Int32) : UInt8 :=
  let mask : UInt8 := 1 <<< bit.toUInt8
  (byteVal &&& ~~~mask) ||| (if value.toInt % 2 = 1 then mask else 0)

/-- The string with one bit replaced, padded with zeros when it is too short. -/
def writeBit (datavalue : Slice) (offset : Nat) (value : Int32) : Slice :=
  match datavalue[offset / 8]? with
  | some byteVal => datavalue.set (offset / 8) (replaceBit byteVal (7 - offset % 8) value)
  | none =>
    datavalue ++ List.replicate (offset / 8 - datavalue.length) 0 ++ [replaceBit 0 (7 - offset % 8) value]

/-- What `SetBit` does with the value that it has read. -/
def setBitOf (db : Db) (key datavalue : Slice) (offset : Nat) (value : Int32) : Db × Status × Option Int32 :=
  let ret := bitAt datavalue offset
  if ret = value then (db, .OK, some ret)
  else
    let r := putRecord db key (StringsMetaValue.new (writeBit datavalue offset value)).Encode
    (r.1, r.2, some ret)

def SetBit (io : Option Failure) (db : Db) (key : Slice) (offset : Int64) (value : Int32) (time : Int) :
    Db × Status × Option Int32 :=
  if offset < 0 then (db, .InvalidArgument "offset< 0", none)
  else
    match RedisDb.Get io db key with
    | .ok metavalue =>
      let pstringsvalue := ParsedStringsMetaValue.new metavalue
      let datavalue := if pstringsvalue.IsStale time then [] else pstringsvalue.uservalue
      setBitOf db key datavalue offset.toInt.toNat value
    | .notFound => setBitOf db key [] offset.toInt.toNat value
    | .error e => (db, e.status, none)

/-- The size less one, as 64 bits without a sign hold it. -/
def sizeLessOne (n : Nat) : Nat := (n + (2 ^ 64 - 1)) % 2 ^ 64

/-- The string with a range written over it, where `size` is the length of the range and `data` the C string that is
written; there is none when `substr` throws. -/
def overwriteRange (oldvalue : Slice) (startoffset size : Nat) (data : Slice) : Option Slice :=
  if oldvalue.length < startoffset then
    some (oldvalue ++ List.replicate (startoffset - oldvalue.length) 0 ++ data)
  else if sizeLessOne (startoffset + size) < sizeLessOne oldvalue.length then
    if startoffset + size ≤ oldvalue.length then
      some (oldvalue.take startoffset ++ data ++ oldvalue.drop (startoffset + size))
    else none
  else some (oldvalue.take startoffset ++ data)

/-- `Setrange`; `beyond` is what follows the bytes of `value` in memory, as they are written as a C string.  There is
no result when an exception is thrown, as for a stored value that is shorter than a timestamp. -/
def Setrange (io : Option Failure) (db : Db) (key : Slice) (startoffset : Int64) (value beyond : Slice) (time : Int) :
    Option (Db × Status × Option Int32) :=
  if startoffset < 0 then some (db, .InvalidArgument "offset< 0", none)
  else
    let data := CStr (value ++ beyond)
    let zeros := List.replicate startoffset.toInt.toNat 0 ++ data
    let store newvalue :=
      (db.put key (StringsMetaValue.new newvalue).Encode, Status.OK, some (Int32.ofNat newvalue.length))
    match RedisDb.Get io db key with
    | .ok oldvalue =>
      let pstringsvalue := ParsedStringsMetaValue.new oldvalue
      if oldvalue.length < ParsedStringsMetaValue.kStringsValueSuffixLength then none
      else if pstringsvalue.IsStale time then some (store zeros)
      else (overwriteRange pstringsvalue.StripSuffix startoffset.toInt.toNat value.length data).map store
    | .notFound => some (store zeros)
    | .error e => some (db, e.status, none)

/-! ### The timestamp of a value that is updated -/

inductive InPlace where
  | Append (value : Slice)
  | Incrby (value : Int64) (memory : Nat → UInt8)
  | Decrby (value : Int64) (memory : Nat → UInt8)
  | SetBit (offset : Int64) (value : Int32)
  | Setrange (startoffset : Int64) (value beyond : Slice)

namespace InPlace

def run (io : Option Failure) (db : Db) (key : Slice) (time : Int) : InPlace → Option (Db × Status)
  | Append value => some ((RedisString.Append io db key value time).1, (RedisString.Append io db key value time).2.1)
  | Incrby value memory =>
    some ((RedisString.Incrby io db key value memory time).1, (RedisString.Incrby io db key value memory time).2.1)
  | Decrby value memory =>
    some ((RedisString.Decrby io db key value memory time).1, (RedisString.Decrby io db key value memory time).2.1)
  | SetBit offset value =>
    some ((RedisString.SetBit io db key offset value time).1, (RedisString.SetBit io db key offset value time).2.1)
  | Setrange startoffset value beyond =>
    (RedisString.Setrange io db key startoffset value beyond time).map fun r => (r.1, r.2.1)

/-- The update stores a value without the timestamp. -/
def Drops (uservalue : Slice) : InPlace → Prop
  | SetBit offset value => bitAt uservalue offset.toInt.toNat ≠ value
  | Setrange _ _ _ => True
  | _ => False

instance (uservalue : Slice) : (u : InPlace) → Decidable (u.Drops uservalue)
  | Append _ => inferInstanceAs (Decidable False)
  | Incrby _ _ => inferInstanceAs (Decidable False)
  | Decrby _ _ => inferInstanceAs (Decidable False)
  | SetBit _ _ => inferInstanceAs (Decidable (_ ≠ _))
  | Setrange _ _ _ => inferInstanceAs (Decidable True)

end InPlace

/-- The timestamp of the key, when it has a value. -/
def timestampOf (db : Db) (key : Slice) : Option Int32 :=
  (db.get key).map fun value => (ParsedStringsMetaValue.new value).timestamp

@[simp] theorem timestampOf_put (db : Db) (key : Slice) (m : StringsMetaValue) :
    timestampOf (db.put key m.Encode) key = some m.timestamp := by
  simp [timestampOf, StringsMetaValue.new_encode, StringsMetaValue.parsed]

variable {io : Option Failure} {db db' : Db} {key value : Slice} {time : Int}

theorem timestampOf_of_get (hget : db.get key = some value) :
    timestampOf db key = some (ParsedStringsMetaValue.new value).timestamp := by
  simp [timestampOf, hget]

/-- A read that does not fail finds the value. -/
private theorem get_cases (io : Option Failure) (hget : db.get key = some value) :
    RedisDb.Get io db key = .ok value ∨ ∃ e, RedisDb.Get io db key = .error e := by
  cases io with
  | none => exact Or.inl (by simp [RedisDb.Get, hget])
  | some e => exact Or.inr ⟨e, rfl⟩

private theorem status_ne_ok (e : Failure) : e.status ≠ .OK := by
  cases e <;> simp [Failure.status]

section Live

variable (hget : db.get key = some value) (hlive : (ParsedStringsMetaValue.new value).IsStale time = false)
include hget hlive

theorem append_timestamp {more : Slice} (hok : (Append io db key more time).2.1 = .OK) :
    timestampOf (Append io db key more time).1 key = some (ParsedStringsMetaValue.new value).timestamp := by
  rcases get_cases io hget with hread | ⟨e, hread⟩
  · simp [Append, hread, hlive]
  · simp [Append, hread, status_ne_ok] at hok

theorem combineNumber_timestamp {delta fresh : Int64} {combine : Int64 → Int64} {memory : Nat → UInt8}
    (hok : (combineNumber io db key delta fresh combine memory time).2.1 = .OK) :
    timestampOf (combineNumber io db key delta fresh combine memory time).1 key =
      some (ParsedStringsMetaValue.new value).timestamp := by
  rcases get_cases io hget with hread | ⟨e, hread⟩
  · simp only [combineNumber, hread, hlive, Bool.false_eq_true, if_false] at hok ⊢
    split at hok
    · simp at hok
    · rename_i hend
      rw [if_neg hend]
      split at hok
      · simp at hok
      · rename_i hfits
        rw [if_neg hfits, timestampOf_put]
  · simp [combineNumber, hread, status_ne_ok] at hok

theorem setBit_timestamp {offset : Int64} {bit : Int32} (hok : (SetBit io db key offset bit time).2.1 = .OK) :
    timestampOf (SetBit io db key offset bit time).1 key =
      if bitAt (ParsedStringsMetaValue.new value).uservalue offset.toInt.toNat = bit then
        some (ParsedStringsMetaValue.new value).timestamp
      else some 0 := by
  unfold SetBit at hok ⊢
  by_cases hoffset : offset < 0
  · simp [hoffset] at hok
  · rcases get_cases io hget with hread | ⟨e, hread⟩
    · simp only [hoffset, hread, hlive, setBitOf, Bool.false_eq_true, if_false] at hok ⊢
      split
      · exact timestampOf_of_get hget
      · rename_i hbit
        rw [if_neg hbit] at hok
        dsimp only at hok ⊢
        rw [putRecord_of_lt (lt_of_putRecord hok), timestampOf_put]
        rfl
    · simp [hoffset, hread, status_ne_ok] at hok

theorem setrange_timestamp {startoffset : Int64} {range beyond : Slice} {ret : Option Int32}
    (hrun : Setrange io db key startoffset range beyond time = some (db', .OK, ret)) :
    timestampOf db' key = some 0 := by
  unfold Setrange at hrun
  by_cases hoffset : startoffset < 0
  · simp [hoffset] at hrun
  · rcases get_cases io hget with hread | ⟨e, hread⟩
    · simp only [hoffset, hread, hlive, Bool.false_eq_true, if_false] at hrun
      split at hrun
      · simp at hrun
      · obtain ⟨newvalue, -, heq⟩ := Option.map_eq_some_iff.1 hrun
        simp only [Prod.mk.injEq] at heq
        rw [← heq.1, timestampOf_put]
        rfl
    · simp [hoffset, hread, status_ne_ok] at hrun

/-- What a successful update does to the timestamp. -/
theorem timestampOf_run {u : InPlace} (hrun : u.run io db key time = some (db', .OK)) :
    timestampOf db' key = if u.Drops (ParsedStringsMetaValue.new value).uservalue then some 0
      else some (ParsedStringsMetaValue.new value).timestamp := by
  cases u with
  | Append more =>
    simp only [InPlace.run, Option.some.injEq, Prod.mk.injEq] at hrun
    rw [← hrun.1, append_timestamp hget hlive hrun.2]
    simp [InPlace.Drops]
  | Incrby delta memory =>
    simp only [InPlace.run, Option.some.injEq, Prod.mk.injEq] at hrun
    rw [← hrun.1, Incrby, combineNumber_timestamp hget hlive hrun.2]
    simp [InPlace.Drops]
  | Decrby delta memory =>
    simp only [InPlace.run, Option.some.injEq, Prod.mk.injEq] at hrun
    rw [← hrun.1, Decrby, combineNumber_timestamp hget hlive hrun.2]
    simp [InPlace.Drops]
  | SetBit offset bit =>
    simp only [InPlace.run, Option.some.injEq, Prod.mk.injEq] at hrun
    rw [← hrun.1, setBit_timestamp hget hlive hrun.2]
    simp [InPlace.Drops]
  | Setrange startoffset range beyond =>
    obtain ⟨⟨db'', status, ret⟩, hrange, heq⟩ := Option.map_eq_some_iff.1 hrun
    simp only [Prod.mk.injEq] at heq
    obtain ⟨rfl, rfl⟩ := heq
    rw [setrange_timestamp hget hlive hrange]
    simp [InPlace.Drops]

end Live

/-- A successful update of a live value that does not drop its timestamp. -/
def KeepingStep (key : Slice) (db db' : Db) : Prop :=
  ∃ io time u value, db.get key = some value ∧ (ParsedStringsMetaValue.new value).IsStale time = false ∧
    InPlace.run io db key time u = some (db', .OK) ∧
    ((ParsedStringsMetaValue.new value).timestamp = 0 ∨ ¬ u.Drops (ParsedStringsMetaValue.new value).uservalue)

theorem KeepingStep.timestamp_eq (h : KeepingStep key db db') : timestampOf db' key = timestampOf db key := by
  obtain ⟨io, time, u, value, hget, hlive, hrun, hkeeps⟩ := h
  rw [timestampOf_run hget hlive hrun, timestampOf_of_get hget]
  split
  · rename_i hdrops
    rw [hkeeps.resolve_right (not_not_intro hdrops)]
  · rfl

/-- A run of updates that drop no timestamp leaves the key to die when it would have. -/
theorem keepingSteps_timestamp_eq (h : Relation.ReflTransGen (KeepingStep key) db db') :
    timestampOf db' key = timestampOf db key := by
  induction h with
  | refl => rfl
  | tail _ hstep ih => rw [hstep.timestamp_eq, ih]

theorem isStale_of_timestamp_eq {p q : ParsedStringsMetaValue} (h : p.timestamp = q.timestamp) (now : Int) :
    p.IsStale now = q.IsStale now := by
  rw [ParsedStringsMetaValue.IsStale, ParsedStringsMetaValue.IsStale, h]

/-- An update keeps the timestamp when there is none or when it does not store the value without it, and then so does
every run of updates. -/
theorem update_timestamp_iff (key : Slice) :
    (∀ io db time u value db', db.get key = some value → (ParsedStringsMetaValue.new value).IsStale time = false →
        InPlace.run io db key time u = some (db', .OK) →
        (timestampOf db' key = some (ParsedStringsMetaValue.new value).timestamp ↔
          (ParsedStringsMetaValue.new value).timestamp = 0 ∨
          ¬ u.Drops (ParsedStringsMetaValue.new value).uservalue)) ∧
      ∀ db db' value, db.get key = some value → Relation.ReflTransGen (KeepingStep key) db db' →
        ∃ value', db'.get key = some value' ∧
          (ParsedStringsMetaValue.new value').timestamp = (ParsedStringsMetaValue.new value).timestamp ∧
          ∀ now, (ParsedStringsMetaValue.new value').IsStale now =
            (ParsedStringsMetaValue.new value).IsStale now := by
  constructor
  · intro io db time u value db' hget hlive hrun
    rw [timestampOf_run hget hlive hrun]
    split
    · rename_i hdrops
      simp only [Option.some.injEq, hdrops, not_true_eq_false, or_false]
      exact eq_comm
    · rename_i hkeeps
      simp [hkeeps]
  · intro db db' value hget hsteps
    have heq := keepingSteps_timestamp_eq hsteps
    rw [timestampOf_of_get hget] at heq
    obtain ⟨value', hget', htimestamp⟩ := Option.map_eq_some_iff.1 heq
    exact ⟨value', hget', htimestamp, isStale_of_timestamp_eq htimestamp⟩

/-- The value `a` under the key `k`, which dies at the time 1000. -/
def expiring : Db := SortedMap.empty.put [107] (StringsMetaValue.mk [97] 1000).Encode

theorem update_timestamp_iff_append :
    timestampOf (Append none expiring [107] [98] 500).1 [107] = some 1000 :=
  ((update_timestamp_iff [107]).1 none expiring 500 (.Append [98]) (StringsMetaValue.mk [97] 1000).Encode _
    (by decide) (by decide) rfl).2 (Or.inr (by decide))

/-- Changing a bit makes the value live for ever. -/
theorem setBit_drops_timestamp :
    ¬ ∀ key io db time u value db', db.get key = some value →
    (ParsedStringsMetaValue.new value).IsStale time = false →
      InPlace.run io db key time u = some (db', .OK) →
      timestampOf db' key = some (ParsedStringsMetaValue.new value).timestamp := by
  intro h
  have hkept := h [107] none expiring 500 (.SetBit 0 1) (StringsMetaValue.mk [97] 1000).Encode
    (SetBit none expiring [107] 0 1 500).1 (by decide) (by decide) rfl
  exact absurd hkept (by decide)

/-! ### Incrby -/

/-- An integer of 64 bits with a sign. -/
def Fits (i : ℤ) : Prop := -2 ^ 63 ≤ i ∧ i < 2 ^ 63

instance (i : ℤ) : Decidable (Fits i) := inferInstanceAs (Decidable (_ ∧ _))

theorem fits_toInt (v : Int64) : Fits v.toInt := ⟨v.le_toInt, v.toInt_lt⟩

/-- The test before the sum refuses exactly the sums that do not fit. -/
theorem overflows_eq_false (value ival : Int64) : overflows value ival = false ↔ Fits (ival.toInt + value.toInt) := by
  have hv := fits_toInt value
  have hi := fits_toInt ival
  have hmax : LLONG_MAX.toInt = 2 ^ 63 - 1 := by decide
  have hmin : LLONG_MIN.toInt = -2 ^ 63 := by decide
  simp only [Fits] at hv hi ⊢
  simp only [overflows, Bool.or_eq_false_iff, Bool.and_eq_false_iff, decide_eq_false_iff_not, Int64.le_iff_toInt_le,
    Int64.lt_iff_toInt_lt, Int64.toInt_sub, hmax, hmin, Int64.toInt_zero]
  rcases lt_or_ge value.toInt 0 with hneg | hpos
  · rw [Int.bmod_eq_of_le (n := -2 ^ 63 - value.toInt) (by omega) (by omega)]
    omega
  · rw [Int.bmod_eq_of_le (n := 2 ^ 63 - 1 - value.toInt) (by omega) (by omega)]
    omega

theorem toInt_add_of_fits {a b : Int64} (h : Fits (a.toInt + b.toInt)) : (a + b).toInt = a.toInt + b.toInt := by
  obtain ⟨hmin, hmax⟩ := h
  rw [Int64.toInt_add, Int.bmod_eq_of_le (by omega) (by omega)]

theorem toInt_sub_of_fits {a b : Int64} (h : Fits (a.toInt - b.toInt)) : (a - b).toInt = a.toInt - b.toInt := by
  obtain ⟨hmin, hmax⟩ := h
  rw [Int64.toInt_sub, Int.bmod_eq_of_le (by omega) (by omega)]

/-- What a call of `Incrby` is to do with a live value: add to the number that the value is the text of, when that and
the sum fit, and fail otherwise. -/
def IncrbyExact (db : Db) (key value : Slice) (v : Int64) (result : Db × Status × Option Int64) : Prop :=
  let old := ParsedStringsMetaValue.new value
  (∀ i, Decimal.Denotes old.uservalue i → Fits i → Fits (i + v.toInt) →
      result = (db.put key (StringsMetaValue.mk (Decimal.toString (i + v.toInt)) old.timestamp).Encode, .OK,
        some (Int64.ofInt (i + v.toInt)))) ∧
    ((¬ ∃ i, Decimal.Denotes old.uservalue i ∧ Fits i ∧ Fits (i + v.toInt)) → result.2.1 ≠ .OK ∧ result.1 = db)

/-- The text that `strtoll` reads. -/
def readNumber (uservalue : Slice) : ℤ × Slice := Decimal.strtoll (CStr uservalue)

theorem readNumber_of_denotes {uservalue : Slice} {i : ℤ} (h : Decimal.Denotes uservalue i) :
    readNumber uservalue = (Decimal.saturate i, []) := by
  have hcstr : CStr uservalue = uservalue := List.takeWhile_eq_self_iff.2 fun b hb => by simpa using h.ne_zero hb
  rw [readNumber, hcstr, h.whole.strtoll_eq]

/-- What `combineNumber` does with a live value. -/
theorem combineNumber_live (hget : db.get key = some value) {old : ParsedStringsMetaValue}
    (hold : ParsedStringsMetaValue.new value = old) (hlive : old.IsStale time = false) (v fresh : Int64)
    (combine : Int64 → Int64) (memory : Nat → UInt8) :
    combineNumber none db key v fresh combine memory time =
      if (readNumber old.uservalue).2 ≠ [] then (db, .Corruption "Value is not a integer", none)
      else if overflows v (Int64.ofInt (readNumber old.uservalue).1) then (db, .InvalidArgument "Overflow", none)
      else
        (db.put key (StringsMetaValue.mk
          (Decimal.toString (combine (Int64.ofInt (readNumber old.uservalue).1)).toInt) old.timestamp).Encode, .OK,
          some (combine (Int64.ofInt (readNumber old.uservalue).1))) := by
  have hread : RedisDb.Get none db key = .ok value := by simp [RedisDb.Get, hget]
  rw [combineNumber, hread]
  simp only [hold, hlive, Bool.false_eq_true, if_false]
  rfl

/-- What `Incrby` does with a live value. -/
theorem incrby_live (hget : db.get key = some value) {old : ParsedStringsMetaValue}
    (hold : ParsedStringsMetaValue.new value = old) (hlive : old.IsStale time = false) (v : Int64)
    (memory : Nat → UInt8) :
    (readNumber old.uservalue).2 = [] ∧ Fits ((readNumber old.uservalue).1 + v.toInt) ∧
        Incrby none db key v memory time =
          (db.put key (StringsMetaValue.mk (Decimal.toString ((readNumber old.uservalue).1 + v.toInt))
            old.timestamp).Encode, .OK, some (Int64.ofInt ((readNumber old.uservalue).1 + v.toInt))) ∨
      ¬ ((readNumber old.uservalue).2 = [] ∧ Fits ((readNumber old.uservalue).1 + v.toInt)) ∧
        (Incrby none db key v memory time).2.1 ≠ .OK ∧ (Incrby none db key v memory time).1 = db := by
  have hival : (Int64.ofInt (readNumber old.uservalue).1).toInt = (readNumber old.uservalue).1 := by
    obtain ⟨hmin, hmax⟩ := Decimal.strtoll_fits (CStr old.uservalue)
    exact Int64.toInt_ofInt_of_le hmin hmax
  have hoverflows := overflows_eq_false v (Int64.ofInt (readNumber old.uservalue).1)
  rw [hival] at hoverflows
  rw [Incrby, combineNumber_live hget hold hlive]
  by_cases hend : (readNumber old.uservalue).2 = []
  · rw [if_neg (not_not_intro hend)]
    by_cases hfits : Fits ((readNumber old.uservalue).1 + v.toInt)
    · have hsum := toInt_add_of_fits (hival.symm ▸ hfits)
      rw [hival] at hsum
      rw [hoverflows.2 hfits, hsum]
      refine Or.inl ⟨hend, hfits, ?_⟩
      rw [← hsum, Int64.ofInt_toInt]
      rfl
    · have hrefused : overflows v (Int64.ofInt (readNumber old.uservalue).1) = true :=
        Bool.eq_true_of_not_eq_false fun heq => hfits (hoverflows.1 heq)
      rw [if_pos hrefused]
      exact Or.inr ⟨fun h => hfits h.2, by simp, rfl⟩
  · rw [if_pos hend]
    exact Or.inr ⟨fun h => hend h.1, by simp, rfl⟩

/-- `Incrby` is exact unless the value is, up to its first NUL, a text that `strtoll` reads to its end, and not the
text of a number of 64 bits, and the sum with what `strtoll` makes of it fits. -/
theorem incrby_exact_iff (hget : db.get key = some value)
    (hlive : (ParsedStringsMetaValue.new value).IsStale time = false) (v : Int64) (memory : Nat → UInt8) :
    IncrbyExact db key value v (Incrby none db key v memory time) ↔
      ∀ i, Decimal.Whole (CStr (ParsedStringsMetaValue.new value).uservalue) i → Fits (i + v.toInt) →
        ∃ j, Decimal.Denotes (ParsedStringsMetaValue.new value).uservalue j ∧ Fits j := by
  obtain ⟨old, hold⟩ : ∃ old, ParsedStringsMetaValue.new value = old := ⟨_, rfl⟩
  have hdenotes : ∀ i, Decimal.Denotes old.uservalue i → Fits i → readNumber old.uservalue = (i, []) := by
    intro i hi hfits
    rw [readNumber_of_denotes hi, Decimal.saturate_of_fits hfits.1 hfits.2]
  rw [IncrbyExact, hold]
  rw [hold] at hlive
  rcases incrby_live hget hold hlive v memory with ⟨hend, hsum, hresult⟩ | ⟨hrefused, hstatus, hdb⟩
  · constructor
    · rintro ⟨-, hfails⟩ - - -
      by_contra hnot
      refine (hfails ?_).1 (by rw [hresult])
      rintro ⟨i, hi, hfits, -⟩
      exact hnot ⟨i, hi, hfits⟩
    · intro hnumber
      have hwhole : Decimal.Whole (CStr old.uservalue) (readNumber old.uservalue).1 :=
        Decimal.strtoll_eq_iff.1 (Prod.ext rfl hend)
      obtain ⟨i, hi, hfits⟩ := hnumber _ hwhole hsum
      rw [hdenotes i hi hfits] at hsum hresult
      refine ⟨fun j hj hjfits _ => ?_, fun hnone => absurd ⟨i, hi, hfits, hsum⟩ hnone⟩
      obtain rfl : i = j := congrArg Prod.fst ((hdenotes i hi hfits).symm.trans (hdenotes j hj hjfits))
      exact hresult
  · constructor
    · intro _ i hwhole hsum
      have hread : readNumber old.uservalue = (i, []) := hwhole.strtoll_eq
      rw [hread] at hrefused
      exact absurd ⟨rfl, hsum⟩ hrefused
    · intro _
      refine ⟨fun i hi hfits hsum => ?_, fun _ => ⟨hstatus, hdb⟩⟩
      rw [hdenotes i hi hfits] at hrefused
      exact absurd ⟨rfl, hsum⟩ hrefused

/-- The value `-7` under the key `k`. -/
def minusSeven : Db := SortedMap.empty.put [107] (StringsMetaValue.mk [45, 55] 1000).Encode

theorem incrby_exact_iff_minusSeven :
    IncrbyExact minusSeven [107] (StringsMetaValue.mk [45, 55] 1000).Encode 9
      (Incrby none minusSeven [107] 9 (fun _ => 0) 500) :=
  (incrby_exact_iff (show minusSeven.get [107] = _ by decide) (by decide) 9 fun _ => 0).2 fun _ _ _ =>
    ⟨-7, ⟨[55], by decide, by decide, Or.inr ⟨by decide, by decide⟩⟩, by decide, by decide⟩

/-- An empty value counts as zero. -/
theorem incrby_empty :
    ¬ ∀ (db : Db) (key value : Slice) (time : Int) (v : Int64) (memory : Nat → UInt8), db.get key = some value →
      (ParsedStringsMetaValue.new value).IsStale time = false →
      IncrbyExact db key value v (Incrby none db key v memory time) := by
  intro h
  have hexact := h (SortedMap.empty.put [107] (StringsMetaValue.new []).Encode) [107] (StringsMetaValue.new []).Encode
    500 5 (fun _ => 0) (by decide) (by decide)
  refine (hexact.2 ?_).1 (by decide)
  rintro ⟨i, ⟨ds, hne, -, ⟨htext, -⟩ | ⟨htext, -⟩⟩, -⟩
  · exact hne (htext.symm.trans (by decide))
  · exact absurd (htext.symm.trans (show _ = ([] : Slice) by decide)) (List.cons_ne_nil _ _)

/-! ### Decrby beside Incrby -/

/-- The number that a key counts as: what is read at the front of its value, and nothing when it has no live value. -/
def oldNumber (db : Db) (key : Slice) (time : Int) : ℤ :=
  match db.get key with
  | some value =>
    if (ParsedStringsMetaValue.new value).IsStale time then 0
    else Decimal.leading (CStr (ParsedStringsMetaValue.new value).uservalue)
  | none => 0

/-- `Decrby` does what `Incrby` does with the opposite number, and when it succeeds it returns the exact difference
and leaves a value that is read back as that.  Each call meets memory of its own. -/
def Mirrors (io : Option Failure) (db : Db) (key : Slice) (v : Int64)
    (memory memory' : Nat → UInt8) (time : Int) : Prop :=
  Decrby io db key v memory time = Incrby io db key (-v) memory' time ∧
    ((Decrby io db key v memory time).2.1 = .OK →
      ∃ ret stored, (Decrby io db key v memory time).2.2 = some ret ∧ ret.toInt = oldNumber db key time - v.toInt ∧
        (Decrby io db key v memory time).1.get key = some stored ∧
        readNumber (ParsedStringsMetaValue.new stored).uservalue = (ret.toInt, []))

/-- Both calls find the same byte where the text of 0 was, and it is read as 0. -/
def FindsZero (memory memory' : Nat → UInt8) : Prop := memory 0 = memory' 0 ∧ readNumber [memory 0] = (0, [])

/-- What `combineNumber` does with a key without a live value. -/
theorem combineNumber_fresh (hnone : live time (db.get key) = false) (v fresh : Int64) (combine : Int64 → Int64)
    (memory : Nat → UInt8) :
    combineNumber none db key v fresh combine memory time =
      (db.put key (StringsMetaValue.new (danglingNumber memory v)).Encode, .OK, some fresh) := by
  cases hget : db.get key with
  | none => simp [combineNumber, RedisDb.Get, hget]
  | some value =>
    rw [hget, live, Bool.not_eq_false'] at hnone
    simp [combineNumber, RedisDb.Get, hget, hnone]

theorem toInt_neg_of_ne {v : Int64} (hv : v ≠ Int64.minValue) : (-v).toInt = -v.toInt := by
  have hne : v.toInt ≠ -2 ^ 63 := fun h => hv (Int64.toInt_inj.1 (h.trans (by decide)))
  have hfits := fits_toInt v
  rw [Int64.toInt_neg, Int.bmod_eq_of_le (by have := hfits.2; omega) (by have := hfits.1; omega)]

theorem readNumber_toString {i : ℤ} (h : Fits i) : readNumber (Decimal.toString i) = (i, []) := by
  rw [readNumber_of_denotes (Decimal.denotes_toString i), Decimal.saturate_of_fits h.1 h.2]

/-- A value that was stored is read back as the number that was written. -/
theorem readNumber_stored (v : Int64) (t : Int32) :
    readNumber (ParsedStringsMetaValue.new (StringsMetaValue.mk (Decimal.toString v.toInt) t).Encode).uservalue =
      (v.toInt, []) := by
  rw [StringsMetaValue.new_encode]
  exact readNumber_toString (fits_toInt v)

theorem length_danglingNumber (memory : Nat → UInt8) (v : Int64) :
    (danglingNumber memory v).length = (Decimal.toString v.toInt).length := by
  rw [danglingNumber, List.length_map, List.length_range]

theorem danglingNumber_zero (memory : Nat → UInt8) : danglingNumber memory 0 = [memory 0] := by
  have hlength : (Decimal.toString (0 : Int64).toInt).length = 1 := by decide
  rw [danglingNumber, hlength]
  rfl

/-- The minus sign makes a text longer than that of the opposite number. -/
private theorem eq_zero_of_length_eq {i : ℤ} (h : (Decimal.toString i).length = (Decimal.toString (-i)).length) :
    i = 0 := by
  unfold Decimal.toString at h
  rw [Int.natAbs_neg] at h
  split_ifs at h <;> simp only [List.length_cons] at h <;> omega

/-- Without a live value the two agree on zero only, and when its text is still there or reads as zero all the same:
`Decrby` stores the number that is to be subtracted. -/
theorem mirrors_fresh (hnone : live time (db.get key) = false) {v : Int64} (hv : v ≠ Int64.minValue)
    (memory memory' : Nat → UInt8) :
    Mirrors none db key v memory memory' time ↔ v = 0 ∧ FindsZero memory memory' := by
  rw [Mirrors, Incrby, Decrby, combineNumber_fresh hnone, combineNumber_fresh hnone]
  have hread (found : Slice) :
      (ParsedStringsMetaValue.new (StringsMetaValue.new found).Encode).uservalue = found := by
    rw [StringsMetaValue.new_encode]
    rfl
  constructor
  · rintro ⟨hsame, hok⟩
    have hfound : danglingNumber memory v = danglingNumber memory' (-v) := by
      have hget := congrArg (fun r => r.1.get key) hsame
      simp only [SortedMap.get_put_self, Option.some.injEq] at hget
      rw [← hread (danglingNumber memory v), hget, hread]
    have hlength := congrArg List.length hfound
    rw [length_danglingNumber, length_danglingNumber, toInt_neg_of_ne hv] at hlength
    obtain rfl : v = 0 := Int64.toInt_inj.1 ((eq_zero_of_length_eq hlength).trans Int64.toInt_zero.symm)
    obtain ⟨ret, stored, hret, -, hstored, hnumber⟩ := hok rfl
    rw [SortedMap.get_put_self, Option.some.injEq] at hstored
    rw [← hstored, hread, danglingNumber_zero, ← Option.some.inj hret] at hnumber
    rw [danglingNumber_zero, show (-0 : Int64) = 0 from rfl, danglingNumber_zero] at hfound
    exact ⟨rfl, List.head_eq_of_cons_eq hfound, hnumber⟩
  · rintro ⟨rfl, hbyte, hnumber⟩
    have hzero : oldNumber db key time = 0 := by
      unfold oldNumber
      cases hget : db.get key with
      | none => rfl
      | some value =>
        rw [hget, live, Bool.not_eq_false'] at hnone
        simp [hnone]
    rw [show (-0 : Int64) = 0 from rfl, danglingNumber_zero, danglingNumber_zero, hbyte]
    refine ⟨rfl, fun _ => ⟨0, _, rfl, ?_, SortedMap.get_put_self .., ?_⟩⟩
    · rw [hzero]
      rfl
    · rw [hread, ← hbyte]
      exact hnumber

/-- On a live value the two agree when the number is one of 64 bits, and so are its sum and its difference. -/
theorem mirrors_live (hget : db.get key = some value) {old : ParsedStringsMetaValue}
    (hold : ParsedStringsMetaValue.new value = old) (hlive : old.IsStale time = false) {v : Int64}
    (hv : v ≠ Int64.minValue) (memory memory' : Nat → UInt8) {i : ℤ}
    (hi : Decimal.leading (CStr old.uservalue) = i) :
    Mirrors none db key v memory memory' time ↔
      ((readNumber old.uservalue).2 = [] → Fits i ∧ Fits (i + v.toInt) ∧ Fits (i - v.toInt)) := by
  have hne : v.toInt ≠ -2 ^ 63 := fun h => hv (Int64.toInt_inj.1 (h.trans (by decide)))
  have hvfits := fits_toInt v
  have hread : (readNumber old.uservalue).1 = Decimal.saturate i := by rw [readNumber, Decimal.strtoll_fst, hi]
  have hsat := Decimal.saturate_fits i
  have hival : (Int64.ofInt (Decimal.saturate i)).toInt = Decimal.saturate i :=
    Int64.toInt_ofInt_of_le hsat.1 hsat.2
  have hnumber : oldNumber db key time = i := by
    rw [oldNumber, hget]
    simp only [hold, hlive, hi, Bool.false_eq_true, if_false]
  have hsum := overflows_eq_false v (Int64.ofInt (Decimal.saturate i))
  have hdiff := overflows_eq_false (-v) (Int64.ofInt (Decimal.saturate i))
  rw [hival] at hsum hdiff
  rw [toInt_neg_of_ne hv, ← sub_eq_add_neg] at hdiff
  rw [Mirrors, Incrby, Decrby, combineNumber_live hget hold hlive, combineNumber_live hget hold hlive, hread, hnumber]
  by_cases hend : (readNumber old.uservalue).2 = []
  · rw [if_neg (not_not_intro hend), if_neg (not_not_intro hend), ← Int64.sub_eq_add_neg]
    by_cases hboth : Fits (Decimal.saturate i + v.toInt) ∧ Fits (Decimal.saturate i - v.toInt)
    · -- Both succeed; the result is exact when the number was not saturated.
      have hret := toInt_sub_of_fits (hival.symm ▸ hboth.2)
      rw [hival] at hret
      simp only [hsum.2 hboth.1, hdiff.2 hboth.2, Bool.false_eq_true, if_false, true_and, hend, forall_const]
      constructor
      · rintro ⟨ret, stored, hsome, hexact, -⟩
        rw [← Option.some.inj hsome, hret] at hexact
        have heq : Decimal.saturate i = i := by omega
        rw [heq] at hsat hboth
        exact ⟨hsat, hboth⟩
      · rintro ⟨hfits, -⟩
        refine ⟨_, _, rfl, ?_, SortedMap.get_put_self .., readNumber_stored _ _⟩
        rw [hret, Decimal.saturate_of_fits hfits.1 hfits.2]
    · -- The sum and the difference cannot both be too large, so the calls do not return the same.
      have hone : overflows v (Int64.ofInt (Decimal.saturate i)) ≠
          overflows (-v) (Int64.ofInt (Decimal.saturate i)) := by
        intro heq
        rw [← heq] at hdiff
        have hiff := hsum.symm.trans hdiff
        simp only [Fits] at hiff hboth hvfits
        omega
      refine iff_of_false (fun h => ?_) fun h => hboth ?_
      · have hstatus := congrArg (fun r => r.2.1) h.1
        cases hs : overflows v (Int64.ofInt (Decimal.saturate i)) <;>
          cases hd : overflows (-v) (Int64.ofInt (Decimal.saturate i)) <;> simp_all
      · obtain ⟨hfits, hplus, hminus⟩ := h hend
        rw [Decimal.saturate_of_fits hfits.1 hfits.2]
        exact ⟨hplus, hminus⟩
  · simp [hend]

/-- `Decrby` mirrors `Incrby` when the read fails, when there is no live value, nothing is subtracted and the
destroyed text reads as zero, and on a live value that is refused or whose number, sum and difference are numbers of
64 bits. -/
theorem decrby_mirrors_iff (io : Option Failure) (db : Db) (key : Slice) (v : Int64) (memory memory' : Nat → UInt8)
    (time : Int) (hv : v ≠ Int64.minValue) :
    Mirrors io db key v memory memory' time ↔ io ≠ none ∨
      match db.get key with
      | none => v = 0 ∧ FindsZero memory memory'
      | some value =>
        let old := ParsedStringsMetaValue.new value
        if old.IsStale time then v = 0 ∧ FindsZero memory memory'
        else (readNumber old.uservalue).2 = [] →
          Fits (Decimal.leading (CStr old.uservalue)) ∧ Fits (Decimal.leading (CStr old.uservalue) + v.toInt) ∧
            Fits (Decimal.leading (CStr old.uservalue) - v.toInt) := by
  cases io with
  | some e => simp [Mirrors, Decrby, Incrby, combineNumber, RedisDb.Get, status_ne_ok]
  | none =>
    simp only [ne_eq, not_true_eq_false, false_or]
    cases hget : db.get key with
    | none => exact mirrors_fresh (by rw [hget]; rfl) hv memory memory'
    | some value =>
      simp only
      split
      · rename_i hstale
        exact mirrors_fresh (by simp [hget, live, hstale]) hv memory memory'
      · rename_i hlive
        exact mirrors_live hget rfl (by simpa using hlive) hv memory memory' rfl

theorem decrby_mirrors_iff_minusSeven : Mirrors none minusSeven [107] 9 (fun _ => 0) (fun _ => 0) 500 :=
  (decrby_mirrors_iff none minusSeven [107] 9 (fun _ => 0) (fun _ => 0) 500 (by decide)).2 (Or.inr fun _ => by decide)

/-- The text of a number is still where it was. -/
def textOf (v : Int64) (i : Nat) : UInt8 := (Decimal.toString v.toInt).getD i 0

/-- A key that was absent gets the number that is to be subtracted. -/
theorem decrby_absent :
    ¬ ∀ (io : Option Failure) (db : Db) (key : Slice) (v : Int64) (memory memory' : Nat → UInt8) (time : Int),
      v ≠ Int64.minValue → Mirrors io db key v memory memory' time := by
  intro h
  have hsame := (h none SortedMap.empty [107] 5 (textOf 5) (textOf (-5)) 0 (by decide)).1
  exact absurd (congrArg (fun r => r.1.get [107]) hsame) (by decide)

end RedisString

end RedisDb
