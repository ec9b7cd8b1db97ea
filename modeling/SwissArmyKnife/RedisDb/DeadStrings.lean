import SwissArmyKnife.RedisDb.KeyScans
import SwissArmyKnife.RedisDb.RedisDB
import SwissArmyKnife.RedisDb.RedisStringCalls

/-!
# Dead strings

A value whose expiry time has passed stays in the store.  A call is run in such a store and in the store without the
value, and its two answers are compared: `Alike` asks for the same class of the status, the same output parameters and
the same contents of the key from then on.  `RedisString.alike_iff` tells for every call on strings when they are.
-/

namespace RedisDb

/-! ### Answers -/

inductive StatusClass where
  | OK
  | NotFound
  | other
deriving DecidableEq

def Status.toClass : Status → StatusClass
  | .OK => .OK
  | .NotFound _ => .NotFound
  | _ => .other

/-- The store after a call, its status and what its output parameters hold. -/
structure Response (σ ω : Type*) where
  db : σ
  status : Status
  output : ω

/-- Two answers that a client cannot tell apart, also by what it finds under the key after the time `later`.  A call
that has no answer is only like another one without. -/
def Alike {σ ω γ : Type*} (contents : σ → Int → γ) (later : Int) :
    Option (Response σ ω) → Option (Response σ ω) → Prop
  | some a, some b => a.status.toClass = b.status.toClass ∧ a.output = b.output ∧
      ∀ now, later ≤ now → contents a.db now = contents b.db now
  | none, none => True
  | _, _ => False

theorem Status.ok_congr {s s' : Status} (h : s.toClass = s'.toClass) : s.ok = s'.ok := by
  cases s <;> cases s' <;> first | rfl | cases h

theorem Alike.refl {σ ω γ : Type*} {contents : σ → Int → γ} {later : Int} :
    (r : Option (Response σ ω)) → Alike contents later r r
  | some _ => ⟨rfl, rfl, fun _ _ => rfl⟩
  | none => trivial

section Same

variable {σ ω γ : Type*} {contents : σ → Int → γ} {later : Int} {db db' : σ}
  (hsame : ∀ now, later ≤ now → contents db now = contents db' now)
include hsame

/-- Where the key shows the same in both stores, the status and the output parameters decide. -/
theorem alike_iff_of_same {s s' : Status} {o o' : ω} :
    Alike contents later (some ⟨db, s, o⟩) (some ⟨db', s', o'⟩) ↔ s.toClass = s'.toClass ∧ o = o' := by
  simp only [Alike, and_congr_right_iff, and_iff_left_iff_imp]
  intro _ _
  exact hsame

/-- For a scan, which leaves the store as it is and returns `OK`, its result decides. -/
theorem alike_map_iff {α : Type*} {out : α → ω} (hout : Function.Injective out) (x y : Option α) :
    Alike contents later (x.map fun a => ⟨db, .OK, out a⟩) (y.map fun a => ⟨db', .OK, out a⟩) ↔ x = y := by
  cases x with
  | none => cases y <;> simp [Alike]
  | some a =>
    cases y with
    | none => simp [Alike]
    | some b => simp [alike_iff_of_same hsame, hout.eq_iff]

end Same

/-- What a call meets: the errors of its reads, the two readings of the clock and the bytes of the memory that it
reads without having written them.  `beyond` is what follows a key and its zero byte, `memory` is what is left of a
temporary string, and `freed` what is left of the text of a number, when the key had a value and when it had none. 
The clock counts the seconds from 1970 on, and fits the 32 bits of a version. -/
structure Setting (L : Type*) where
  io : Nat → Option Failure
  time : Int
  later : Int
  memory : UInt32
  freed : Bool → Nat → UInt8
  beyond : Slice → Nat → UInt8
  doubles : LongDoubles L
  time_pos : 0 < time
  time_le_later : time ≤ later
  later_lt : later < 2 ^ 31

@[simp] theorem Get_some (f : Failure) (db : Db) (key : Slice) : Get (some f) db key = .error f := rfl
theorem Get_ok {db : Db} {key value : Slice} (h : db.get key = some value) : Get none db key = .ok value := by
  simp [Get, h]
@[simp] theorem Get_delete {db : Db} {key : Slice} : Get none (db.delete key) key = .notFound := by
  simp [Get]

namespace RedisString

/-- The calls on a key; an output parameter is given by what it holds before the call. -/
inductive Command where
  | Set (value : Slice)
  | Get (value : Slice)
  | Setxx (value : Slice) (ret ttl : Int32)
  | GetSet (value oldvalue : Slice)
  | SetBit (offset : Int64) (value ret : Int32)
  | GetBit (offset : Int64) (ret : Int32)
  | MSet (kvs : List KeyValue)
  | MGet (keys : List Slice) (vss : List ValueStatus)
  | Setnx (value : Slice) (ret ttl : Int32)
  | MSetnx (kvs : List KeyValue) (ret : Int32)
  | Setvx (value newvalue : Slice) (ret ttl : Int32)
  | Del
  | Delvx (value : Slice) (ret : Int32)
  /-- `beyond` follows the bytes of the value in memory. -/
  | Setrange (startoffset : Int64) (value beyond : Slice) (ret : Int32)
  | Getrange (startoffset endoffset : Int64) (ret : Slice)
  | Strlen (len : Int32)
  | Expire (ttl : Int32)
  | Scan (startkey pattern : Slice) (keys : List Slice) (count : Int64) (nextkey : Slice)
  | Expireat (timestamp : Int32)
  | Persist
  | TTL (timestamp : Int)
  | Incrby (value ret : Int64)
  /-- `beyond` follows the bytes of the value in memory. -/
  | Incrbyfloat (value beyond ret : Slice)
  | Decrby (value ret : Int64)
  | Append (value : Slice) (ret : Int32)
  | BitCount (startoffset endoffset : Int64) (ret : Int32) (haverange : Bool)
  | ScanKeyNum (keyinfo : KeyInfo)
  | ScanKeys (pattern : Slice) (keys : List Slice)

/-- What the output parameters hold after a call. -/
inductive Output where
  | nothing
  | number (n : Int)
  | text (bytes : Slice)
  | values (vss : List ValueStatus)
  | keys (keys : List Slice)
  | scan (r : ScanResult)
  | keyinfo (keyinfo : KeyInfo)

variable {L : Type*} (e : Setting L)

def run (db : Db) (key : Slice) : Command → Option (Response Db Output)
  | .Set value =>
    let r := RedisString.Set db key value
    some ⟨r.1, r.2, .nothing⟩
  | .Get _ =>
    let r := RedisString.Get (e.io 0) db key e.time
    some ⟨db, r.1, .text r.2⟩
  | .Setxx value ret ttl =>
    let r := Setxx (e.io 0) db key value e.time e.later ttl
    some ⟨r.1, r.2.1, .number (r.2.2.getD ret).toInt⟩
  | .GetSet value oldvalue =>
    let r := GetSet (e.io 0) db key value e.time
    some ⟨r.1, r.2.1, .text (r.2.2.getD oldvalue)⟩
  | .SetBit offset value ret =>
    let r := SetBit (e.io 0) db key offset value e.time
    some ⟨r.1, r.2.1, .number (r.2.2.getD ret).toInt⟩
  | .GetBit offset ret =>
    (GetBit (e.io 0) db key offset e.time).map fun r => ⟨db, r.1, .number (r.2.getD ret).toInt⟩
  | .MSet kvs =>
    let r := MSet db kvs
    some ⟨r.1, r.2, .nothing⟩
  | .MGet keys _ =>
    let r := MGet e.io db keys e.time
    some ⟨db, r.1, .values r.2⟩
  | .Setnx value _ ttl =>
    let r := Setnx (e.io 0) db key value e.time e.later ttl
    some ⟨r.1, r.2.1, .number r.2.2.toInt⟩
  | .MSetnx kvs _ =>
    let r := MSetnx e.io db kvs e.time
    some ⟨r.1, r.2.1, .number r.2.2.toInt⟩
  | .Setvx value newvalue _ ttl =>
    let r := Setvx (e.io 0) db key value newvalue e.time e.later ttl
    some ⟨r.1, r.2.1, .number r.2.2.toInt⟩
  | .Del =>
    let r := RedisString.Del (e.io 0) db key e.time
    some ⟨r.1, r.2, .nothing⟩
  | .Delvx value _ =>
    let r := Delvx (e.io 0) db key value e.time
    some ⟨r.1, r.2.1, .number r.2.2.toInt⟩
  | .Setrange startoffset value beyond ret =>
    (Setrange (e.io 0) db key startoffset value beyond e.time).map fun r =>
      ⟨r.1, r.2.1, .number (r.2.2.getD ret).toInt⟩
  | .Getrange startoffset endoffset _ =>
    let r := Getrange (e.io 0) db key startoffset endoffset e.time
    some ⟨db, r.1, .text r.2⟩
  | .Strlen _ =>
    let r := Strlen (e.io 0) db key e.time
    some ⟨db, r.1, .number r.2.toInt⟩
  | .Expire ttl =>
    let r := RedisString.Expire (e.io 0) db key e.time e.later ttl
    some ⟨r.1, r.2, .nothing⟩
  | .Scan startkey pattern keys count _ =>
    (Scan e.beyond db startkey pattern keys count e.time).map fun r => ⟨db, .OK, .scan r⟩
  | .Expireat timestamp =>
    let r := Expireat (e.io 0) db key e.time timestamp
    some ⟨r.1, r.2, .nothing⟩
  | .Persist =>
    let r := Persist (e.io 0) db key e.time
    some ⟨r.1, r.2, .nothing⟩
  | .TTL timestamp =>
    let r := TTL (e.io 0) db key e.time e.later
    some ⟨db, r.1, .number (r.2.getD timestamp)⟩
  | .Incrby value ret =>
    let r := Incrby (e.io 0) db key value (e.freed (db.get key).isSome) e.time
    some ⟨r.1, r.2.1, .number (r.2.2.getD ret).toInt⟩
  | .Incrbyfloat value beyond ret =>
    (Incrbyfloat e.doubles (e.io 0) db key value beyond e.time).map fun r => ⟨r.1, r.2.1, .text (r.2.2.getD ret)⟩
  | .Decrby value ret =>
    let r := Decrby (e.io 0) db key value (e.freed (db.get key).isSome) e.time
    some ⟨r.1, r.2.1, .number (r.2.2.getD ret).toInt⟩
  | .Append value _ =>
    let r := Append (e.io 0) db key value e.time
    some ⟨r.1, r.2.1, .number r.2.2.toInt⟩
  | .BitCount startoffset endoffset _ haverange =>
    let r := BitCount (e.io 0) db key startoffset endoffset haverange e.time
    some ⟨db, r.1, .number r.2.toInt⟩
  | .ScanKeyNum _ => (ScanKeyNum e.time db).map fun keyinfo => ⟨db, .OK, .keyinfo keyinfo⟩
  | .ScanKeys pattern keys => (ScanKeys e.beyond e.time db pattern keys).map fun keys => ⟨db, .OK, .keys keys⟩

/-! ### Dead values -/

/-- The value and the expiry time of a key, unless it has none or it is dead. -/
def contents (key : Slice) (db : Db) (now : Int) : Option (Slice × Int32) :=
  if live now (db.get key) then
    (db.get key).map fun value =>
      ((ParsedStringsMetaValue.new value).uservalue, (ParsedStringsMetaValue.new value).timestamp)
  else none

/-- The key has a value whose expiry time has passed. -/
def Dead (db : Db) (key : Slice) (time : Int) : Prop :=
  ∃ value, db.get key = some value ∧ live time (some value) = false

variable {db : Db} {key : Slice} {time now : Int}

theorem Dead.contents_eq (h : Dead db key time) (hle : time ≤ now) : contents key db now = none := by
  obtain ⟨value, hget, hdead⟩ := h
  rw [contents, hget, dead_mono hdead hle]
  rfl

@[simp] theorem contents_delete : contents key (db.delete key) now = none := by
  simp [contents]

theorem Dead.same (h : Dead db key e.time) (now : Int) (hle : e.later ≤ now) :
    contents key db now = contents key (db.delete key) now := by
  rw [contents_delete, h.contents_eq (e.time_le_later.trans hle)]

theorem Dead.alike_unchanged (h : Dead db key e.time) {s s' : Status} {o o' : Output} :
    Alike (contents key) e.later (some ⟨db, s, o⟩) (some ⟨db.delete key, s', o'⟩) ↔
      s.toClass = s'.toClass ∧ o = o' := alike_iff_of_same (h.same e)

theorem alike_put {value : Slice} {s s' : Status} {o o' : Output} :
    Alike (contents key) e.later (some ⟨db.put key value, s, o⟩) (some ⟨(db.delete key).put key value, s', o'⟩) ↔
      s.toClass = s'.toClass ∧ o = o' := by
  simp [Alike, contents]

/-- When the answers to a call are alike, for a dead key and for one without a value. -/
def Command.Conceals (db : Db) (key : Slice) : Command → Prop
  | .Setxx _ _ _ => e.io 0 ≠ none
  | .GetSet _ oldvalue => e.io 0 ≠ none ∨ oldvalue = []
  | .GetBit offset _ => e.io 0 ≠ none ∨ offset >>> 3 ≠ -1
  | .MGet keys _ => key ∉ keys ∨ ∃ i < keys.length, e.io i ≠ none
  | .Scan startkey pattern _ count _ =>
    let before := db.between startkey key
    startkey ≤ key → RunsOut e.time before count → goesOn pattern key = true →
      ∃ entry ∈ before, (ParsedStringsMetaValue.new entry.2).IsStale e.time = false ∧
        StringMatchLen (e.beyond entry.1) pattern entry.1 = none
  | .Incrby value _ | .Decrby value _ =>
    e.io 0 ≠ none ∨ danglingNumber (e.freed true) value = danglingNumber (e.freed false) value
  | .ScanKeyNum _ => False
  | _ => True

theorem readBit_nil (offset : Int64) : readBit [] offset = if offset >>> 3 = -1 then none else some 0 := by
  unfold readBit
  by_cases hbyte : offset >>> 3 = -1
  · rw [if_pos hbyte, hbyte, if_neg (by decide)]
    rfl
  · have hne : (offset >>> 3).toUInt64 + 1 ≠ 0 := by
      intro hzero
      have hlast : (offset >>> 3).toUInt64 = (-1 : Int64).toUInt64 := by
        rw [← UInt64.add_left_inj 1, hzero]
        rfl
      exact hbyte (by simpa using congrArg UInt64.toInt64 hlast)
    dsimp only
    rw [if_neg hbyte]
    exact if_pos (UInt64.pos_iff_ne_zero.2 hne)

theorem getBit_alike_iff (h : Dead db key e.time) (offset : Int64) (ret : Int32) :
    Alike (contents key) e.later (run e db key (.GetBit offset ret))
      (run e (db.delete key) key (.GetBit offset ret)) ↔
      e.io 0 ≠ none ∨ offset >>> 3 ≠ -1 := by
  obtain ⟨v, hget, hdead⟩ := id h
  have hstale := live_some.1 hdead
  cases hio : e.io 0 with
  | none =>
    simp only [run, GetBit, hio, Get_ok hget, Get_delete, hstale, readBit_nil, if_true]
    by_cases hbyte : offset >>> 3 = -1
    · simp [hbyte, Alike]
    · simp [hbyte, h.alike_unchanged]
  | some f => simp [run, GetBit, hio, h.alike_unchanged]

theorem mset_alike (h : Dead db key e.time) (kvs : List KeyValue) {s : Status} {o : Output} :
    Alike (contents key) e.later (some ⟨(MSet db kvs).1, s, o⟩) (some ⟨(MSet (db.delete key) kvs).1, s, o⟩) := by
  refine ⟨rfl, rfl, fun now hle => ?_⟩
  have hp (kv : KeyValue) : decide (kv.key = key) = true ↔ kv.key = key := decide_eq_true_iff
  simp only [MSet, contents, SortedMap.get_puts _ _ hp, SortedMap.get_delete_self, Option.or_none]
  cases kvs.reverse.find? fun kv => kv.key = key with
  | none => exact h.contents_eq (e.time_le_later.trans hle)
  | some kv => rfl

theorem anyExists_delete (h : Dead db key time) (io : Nat → Option Failure) (i : Nat) (kvs : List KeyValue) :
    anyExists io (db.delete key) time i kvs = anyExists io db time i kvs := by
  obtain ⟨v, hget, hdead⟩ := h
  have hstale := live_some.1 hdead
  induction kvs generalizing i with
  | nil => rfl
  | cons kv kvs ih =>
    cases hio : io i with
    | some f => simp only [anyExists, hio, Get_some, ih]
    | none =>
      by_cases hkey : kv.key = key
      · simp [anyExists, hio, hkey, Get_ok hget, hstale, ih]
      · simp [anyExists, hio, RedisDb.Get, SortedMap.get_delete, hkey, ih]

/-- What `MGet` says of a key, when it can be read. -/
def valueStatus (db : Db) (time : Int) (key : Slice) : ValueStatus :=
  match db.get key with
  | some value =>
    let p := ParsedStringsMetaValue.new value
    if p.IsStale time then ⟨[], .NotFound "Stale"⟩ else ⟨p.uservalue, .OK⟩
  | none => ⟨[], .NotFound " "⟩

theorem readValues_ok {io : Nat → Option Failure} {i : Nat} {keys : List Slice}
    (hio : ∀ j < keys.length, io (i + j) = none) :
    readValues io db time i keys = .ok (keys.map (valueStatus db time)) := by
  induction keys generalizing i with
  | nil => rfl
  | cons key keys ih =>
    have hfirst : io i = none := hio 0 (by simp)
    have hrest : readValues io db time (i + 1) keys = .ok (keys.map (valueStatus db time)) := by
      refine ih fun j hj => ?_
      rw [Nat.add_assoc, Nat.add_comm 1]
      exact hio (j + 1) (by simpa using hj)
    simp only [readValues, hfirst, hrest, RedisDb.Get, List.map_cons, valueStatus]
    cases db.get key with
    | none => rfl
    | some value => rfl

/-- The first read that fails ends `MGet`, whatever is in the store. -/
theorem readValues_error (time : Int) {io : Nat → Option Failure} {i j : Nat}
    {keys : List Slice} (hj : j < keys.length)
    (hio : io (i + j) ≠ none) : ∃ f, ∀ db, readValues io db time i keys = .error f := by
  induction keys generalizing i j with
  | nil => simp at hj
  | cons key keys ih =>
    cases hfirst : io i with
    | some f => exact ⟨f, fun db => by simp [readValues, hfirst]⟩
    | none =>
      cases j with
      | zero => exact absurd hfirst hio
      | succ j =>
        obtain ⟨f, hf⟩ := ih (i := i + 1) (j := j) (by simpa using hj) (by rwa [Nat.add_assoc, Nat.add_comm 1])
        refine ⟨f, fun db => ?_⟩
        simp only [readValues, hfirst, RedisDb.Get, hf]
        cases db.get key with
        | none => rfl
        | some value => rfl

theorem mGet_alike_iff (h : Dead db key e.time) (keys : List Slice) (vss : List ValueStatus) :
    Alike (contents key) e.later (run e db key (.MGet keys vss)) (run e (db.delete key) key (.MGet keys vss)) ↔
      key ∉ keys ∨ ∃ i < keys.length, e.io i ≠ none := by
  simp only [run, h.alike_unchanged, MGet]
  by_cases hio : ∃ i < keys.length, e.io i ≠ none
  · obtain ⟨i, hi, hfails⟩ := id hio
    obtain ⟨f, hf⟩ := readValues_error e.time hi (by rwa [Nat.zero_add])
    simp [hf, hio]
  · have hok (j : Nat) (hj : j < keys.length) : e.io (0 + j) = none := by
      rw [Nat.zero_add]
      exact not_not.1 fun hne => hio ⟨j, hj, hne⟩
    obtain ⟨v, hget, hdead⟩ := h
    have hstale := live_some.1 hdead
    have hvalue (k : Slice) : valueStatus db e.time k = valueStatus (db.delete key) e.time k ↔ k ≠ key := by
      by_cases hk : k = key
      · simp [valueStatus, hk, hget, hstale]
      · simp [valueStatus, SortedMap.get_delete, hk]
    simp only [readValues_ok hok, true_and, Output.values.injEq, List.map_inj_left, hvalue, hio, or_false]
    exact ⟨fun hall hmem => hall key hmem rfl, fun hnot k hk hkey => hnot (hkey ▸ hk)⟩

theorem Dead.alike_scan {α : Type*} (h : Dead db key e.time) {out : α → Output} (hout : Function.Injective out)
    (x y : Option α) :
    Alike (contents key) e.later (x.map fun a => ⟨db, .OK, out a⟩) (y.map fun a => ⟨db.delete key, .OK, out a⟩) ↔
      x = y := alike_map_iff (h.same e) hout x y

theorem incrbyfloat_alike (h : Dead db key e.time) (value beyond ret : Slice) :
    Alike (contents key) e.later (run e db key (.Incrbyfloat value beyond ret))
      (run e (db.delete key) key (.Incrbyfloat value beyond ret)) := by
  obtain ⟨v, hget, hdead⟩ := id h
  have hstale := live_some.1 hdead
  cases hnumber : e.doubles.StrToLongDouble value beyond with
  | none => simp [run, Incrbyfloat, hnumber, h.alike_unchanged]
  | some longdoubleby =>
    cases hio : e.io 0 with
    | some f => simp [run, Incrbyfloat, hnumber, hio, h.alike_unchanged]
    | none =>
      simp only [run, Incrbyfloat, hnumber, hio, Get_ok hget, Get_delete, hstale, if_true, freshNumber]
      cases e.doubles.LongDoubleToStr longdoubleby with
      | none => trivial
      | some text => simp [alike_put]

/-- A dead key and one without a value get the bytes that were found in place of the number. -/
theorem combineNumber_alike_iff (h : Dead db key e.time) (value fresh : Int64)
    (combine : Int64 → Int64) (ret : Int64) :
    let answer db :=
      let r := combineNumber (e.io 0) db key value fresh combine (e.freed (db.get key).isSome) e.time
      some (⟨r.1, r.2.1, .number (r.2.2.getD ret).toInt⟩ : Response Db Output)
    Alike (contents key) e.later (answer db) (answer (db.delete key)) ↔
      e.io 0 ≠ none ∨ danglingNumber (e.freed true) value = danglingNumber (e.freed false) value := by
  obtain ⟨v, hget, hdead⟩ := id h
  have hstale := live_some.1 hdead
  cases hio : e.io 0 with
  | some f => simp [combineNumber, h.alike_unchanged]
  | none =>
    simp only [combineNumber, Get_ok hget, Get_delete, hstale, hget, SortedMap.get_delete_self, Option.isSome_some,
      Option.isSome_none, if_true, ne_eq, not_true_eq_false, false_or]
    constructor
    · rintro ⟨-, -, hsame⟩
      have hlater := hsame e.later le_rfl
      simpa [contents, live, StringsMetaValue.new_encode, StringsMetaValue.parsed, StringsMetaValue.new,
        ParsedStringsMetaValue.IsStale] using hlater
    · intro hsame
      rw [hsame]
      exact (alike_put e).2 ⟨rfl, rfl⟩

theorem scanKeys_delete (h : Dead db key time) (beyond : Slice → Nat → UInt8) (pattern : Slice) (keys : List Slice) :
    ScanKeys beyond time (db.delete key) pattern keys = ScanKeys beyond time db pattern keys := by
  obtain ⟨v, hget, hdead⟩ := h
  have hstale := live_some.1 hdead
  obtain ⟨l, r, hentries, hdelete⟩ := SortedMap.entries_split hget
  rw [ScanKeys, ScanKeys, hentries, hdelete, scanKeys_skip (by simp [hstale])]

/-- A dead value is counted. -/
theorem scanKeyNum_delete_ne (h : Dead db key time) : ScanKeyNum time db ≠ ScanKeyNum time (db.delete key) := by
  obtain ⟨v, hget, hdead⟩ := h
  have hstale := live_some.1 hdead
  obtain ⟨l, r, hentries, hdelete⟩ := SortedMap.entries_split hget
  rw [ScanKeyNum, ScanKeyNum, hentries, hdelete, List.map_append, List.map_cons, List.map_append, Ne,
    scanKeyNum_eq_iff rfl]
  have hzero : (ParsedStringsMetaValue.new v).timestamp ≠ 0 := by
    intro hzero
    simp [ParsedStringsMetaValue.IsStale, hzero] at hstale
  simpa using hzero

/-- What `Scan` returns when it ends up at an entry, or at the end. -/
def finish (pattern : Slice) (r : Option (Slice × Slice) × List Slice × Int64) : ScanResult :=
  match r.1 with
  | none => ⟨true, r.2.1, r.2.2, []⟩
  | some e => if goesOn pattern e.1 then ⟨false, r.2.1, r.2.2, e.1⟩ else ⟨true, r.2.1, r.2.2, []⟩

theorem scan_eq (beyond : Slice → Nat → UInt8) (startkey pattern : Slice) (keys : List Slice) (count : Int64) :
    Scan beyond db startkey pattern keys count time =
      ((scanLoop time (fun key => StringMatchLen (beyond key) pattern key) (db.seek startkey) keys count).map
        fun r => (r.1.head?, r.2)).map (finish pattern) := by
  rw [Scan, Option.map_map]
  congr 1
  funext r
  obtain ⟨iter, keys, count⟩ := r
  cases iter <;> rfl

theorem goesOn_of_lt {pattern k k' : Slice} (hlt : k < k') (h : goesOn pattern k' = true) :
    goesOn pattern k = true := by
  unfold goesOn at h ⊢
  simp only [Bool.or_eq_true, decide_eq_true_eq] at h ⊢
  rcases le_or_gt k (if IsTailWildcard pattern then pattern.dropLast else []) with hle | hgt
  · exact Or.inl hle
  · refine Or.inr (startsWith_of_le hgt.le hlt.le ?_)
    exact h.resolve_left fun hle => (hgt.trans hlt).not_ge hle

/-- A scan of some entries, an expired one and later ones. -/
theorem scanLoop_eq_iff (isMatch : Slice → Option Bool) {before r : List (Slice × Slice)} {v : Slice}
    (hstale : (ParsedStringsMetaValue.new v).IsStale time = true) (hafter : ∀ entry ∈ r, key < entry.1)
    (pattern : Slice) (keys : List Slice) (count : Int64) :
    ((scanLoop time isMatch (before ++ (key, v) :: r) keys count).map fun r => (r.1.head?, r.2)).map
      (finish pattern) =
        ((scanLoop time isMatch (before ++ r) keys count).map fun r => (r.1.head?, r.2)).map (finish pattern) ↔
      (RunsOut time before count → goesOn pattern key = true →
        ∃ entry ∈ before, (ParsedStringsMetaValue.new entry.2).IsStale time = false ∧ isMatch entry.1 = none) := by
  by_cases hout : RunsOut time before count
  · rcases scanLoop_of_runsOut isMatch hout keys with
      ⟨entry, hmem, hlive, hmatch, hnone⟩ | ⟨hmatch, keys', count', hsome⟩
    · rw [hnone, hnone]
      exact iff_of_true rfl fun _ _ => ⟨entry, hmem, hlive, hmatch⟩
    · simp only [hsome, Option.map_some, List.head?_cons, Option.some.injEq]
      by_cases hgoes : goesOn pattern key = true
      · refine iff_of_false (fun heq => ?_) fun hconceals => ?_
        · cases r with
          | nil => simp [finish, hgoes] at heq
          | cons entry r =>
            have hne : key ≠ entry.1 := (hafter entry (by simp)).ne
            by_cases hgoes' : goesOn pattern entry.1 = true
            · simp [finish, hgoes, hgoes', hne] at heq
            · simp [finish, hgoes, hgoes'] at heq
        · obtain ⟨entry, hmem, hlive, hnone⟩ := hconceals hout hgoes
          exact hmatch entry hmem hlive hnone
      · refine iff_of_true ?_ fun _ hgoes' => absurd hgoes' hgoes
        cases r with
        | nil => simp [finish, hgoes]
        | cons entry r =>
          have hgoes' : goesOn pattern entry.1 ≠ true := fun h => hgoes (goesOn_of_lt (hafter entry (by simp)) h)
          simp [finish, hgoes, hgoes']
  · rw [scanLoop_skip isMatch hstale hout]
    exact iff_of_true rfl fun hout' => absurd hout' hout

theorem scan_eq_iff (h : Dead db key time) (beyond : Slice → Nat → UInt8) (startkey pattern : Slice)
    (keys : List Slice) (count : Int64) :
    Scan beyond db startkey pattern keys count time = Scan beyond (db.delete key) startkey pattern keys count time ↔
      (startkey ≤ key → RunsOut time (db.between startkey key) count →
        goesOn pattern key = true → ∃ entry ∈ db.between startkey key,
          (ParsedStringsMetaValue.new entry.2).IsStale time = false ∧
            StringMatchLen (beyond entry.1) pattern entry.1 = none) := by
  obtain ⟨v, hget, hdead⟩ := h
  have hstale := live_some.1 hdead
  rw [scan_eq, scan_eq]
  rcases lt_or_ge key startkey with hlt | hle
  · rw [SortedMap.seek_delete_of_lt hlt]
    exact iff_of_true rfl fun hle => absurd hlt (not_lt.2 hle)
  · obtain ⟨r, hseek, hdelete, hafter⟩ := SortedMap.seek_split hget hle
    have hiff := @scanLoop_eq_iff key time (fun key => StringMatchLen (beyond key) pattern key)
      (db.between startkey key) r v hstale hafter pattern keys count
    rw [← hseek, ← hdelete] at hiff
    rw [hiff]
    exact ⟨fun hconceals _ => hconceals, fun hconceals => hconceals hle⟩

/-- The calls that read one key, when the read does not fail. -/
theorem alike_iff (h : Dead db key e.time) (c : Command) :
    Alike (contents key) e.later (run e db key c) (run e (db.delete key) key c) ↔ c.Conceals e db key := by
  obtain ⟨v, hget, hdead⟩ := id h
  have hstale := live_some.1 hdead
  have hread := Get_ok hget
  cases c with
  | Set value =>
    simp only [run, RedisString.Set, alike_put, Command.Conceals, and_self]
  | Get value =>
    cases hio : e.io 0 with
    | none => simp [run, RedisString.Get, hio, hread, hstale, h.alike_unchanged, Command.Conceals, Status.toClass]
    | some f => simp [run, RedisString.Get, hio, h.alike_unchanged, Command.Conceals]
  | Setxx value ret ttl =>
    cases hio : e.io 0 with
    | none => simp [run, Setxx, hio, hread, hstale, h.alike_unchanged, Command.Conceals, Status.toClass]
    | some f => simp [run, Setxx, hio, h.alike_unchanged, Command.Conceals]
  | GetSet value oldvalue =>
    cases hio : e.io 0 with
    | none => simp [run, GetSet, hio, hread, hstale, alike_put, Command.Conceals, Status.toClass, eq_comm]
    | some f => simp [run, GetSet, hio, h.alike_unchanged, Command.Conceals]
  | SetBit offset value ret =>
    by_cases hoffset : offset < 0
    · simp [run, SetBit, hoffset, h.alike_unchanged, Command.Conceals]
    cases hio : e.io 0 with
    | none =>
      by_cases hbit : bitAt [] offset.toNatClampNeg = value
      · simp [run, SetBit, setBitOf, hoffset, hio, hread, hstale, hbit, h.alike_unchanged, Command.Conceals]
      · simp [run, SetBit, setBitOf, putRecord, hoffset, hio, hread, hstale, hbit, alike_put, Command.Conceals]
    | some f => simp [run, SetBit, hoffset, hio, h.alike_unchanged, Command.Conceals]
  | Setnx value ret ttl =>
    cases hio : e.io 0 with
    | none => simp [run, Setnx, hio, hread, hstale, alike_put, Command.Conceals]
    | some f => simp [run, Setnx, hio, h.alike_unchanged, Command.Conceals]
  | Setvx value newvalue ret ttl =>
    cases hio : e.io 0 with
    | none => simp [run, Setvx, hio, hread, hstale, h.alike_unchanged, Command.Conceals]
    | some f => simp [run, Setvx, hio, h.alike_unchanged, Command.Conceals]
  | Del =>
    cases hio : e.io 0 with
    | none => simp [run, RedisString.Del, hio, hread, hstale, h.alike_unchanged, Command.Conceals, Status.toClass]
    | some f => simp [run, RedisString.Del, hio, h.alike_unchanged, Command.Conceals]
  | Delvx value ret =>
    cases hio : e.io 0 with
    | none => simp [run, Delvx, hio, hread, hstale, h.alike_unchanged, Command.Conceals, Status.toClass]
    | some f => simp [run, Delvx, hio, h.alike_unchanged, Command.Conceals]
  | Strlen len =>
    cases hio : e.io 0 with
    | none =>
      simp [run, Strlen, RedisString.Get, hio, hread, hstale, h.alike_unchanged, Command.Conceals, Status.toClass]
    | some f => simp [run, Strlen, RedisString.Get, hio, h.alike_unchanged, Command.Conceals]
  | GetBit offset ret => exact getBit_alike_iff e h offset ret
  | MSet kvs => simpa [run, MSet, Command.Conceals] using mset_alike e h kvs (s := .OK) (o := .nothing)
  | MGet keys vss => exact mGet_alike_iff e h keys vss
  | MSetnx kvs ret =>
    simp only [run, MSetnx, anyExists_delete h, Command.Conceals, iff_true]
    split
    · simp [h.alike_unchanged]
    · exact mset_alike e h kvs
  | Setrange startoffset value beyond ret =>
    have hlen : ¬v.length < ParsedStringsMetaValue.kStringsValueSuffixLength := by
      intro hshort
      simp [ParsedStringsMetaValue.new, Nat.not_le.2 hshort, ParsedStringsMetaValue.IsStale] at hstale
    by_cases hoffset : startoffset < 0
    · simp [run, Setrange, hoffset, h.alike_unchanged, Command.Conceals]
    cases hio : e.io 0 with
    | none => simp [run, Setrange, hoffset, hio, hread, hstale, hlen, alike_put, Command.Conceals]
    | some f => simp [run, Setrange, hoffset, hio, h.alike_unchanged, Command.Conceals]
  | Getrange startoffset endoffset ret =>
    cases hio : e.io 0 with
    | none => simp [run, Getrange, hio, hread, hstale, h.alike_unchanged, Command.Conceals, Status.toClass]
    | some f => simp [run, Getrange, hio, h.alike_unchanged, Command.Conceals]
  | Expire ttl =>
    cases hio : e.io 0 with
    | none => simp [run, RedisString.Expire, hio, hread, hstale, h.alike_unchanged, Command.Conceals, Status.toClass]
    | some f => simp [run, RedisString.Expire, hio, h.alike_unchanged, Command.Conceals]
  | Scan startkey pattern keys count nextkey =>
    rw [run, run, h.alike_scan e fun _ _ heq => Output.scan.inj heq, scan_eq_iff h]
    rfl
  | Expireat timestamp =>
    cases hio : e.io 0 with
    | none => simp [run, Expireat, hio, hread, hstale, h.alike_unchanged, Command.Conceals, Status.toClass]
    | some f => simp [run, Expireat, hio, h.alike_unchanged, Command.Conceals]
  | Persist =>
    cases hio : e.io 0 with
    | none => simp [run, Persist, hio, hread, hstale, h.alike_unchanged, Command.Conceals, Status.toClass]
    | some f => simp [run, Persist, hio, h.alike_unchanged, Command.Conceals]
  | TTL timestamp =>
    cases hio : e.io 0 with
    | none => simp [run, TTL, hio, hread, hstale, h.alike_unchanged, Command.Conceals, Status.toClass]
    | some f => simp [run, TTL, hio, h.alike_unchanged, Command.Conceals]
  | Incrby value ret => exact combineNumber_alike_iff e h value value _ ret
  | Incrbyfloat value beyond ret => exact iff_of_true (incrbyfloat_alike e h value beyond ret) trivial
  | Decrby value ret => exact combineNumber_alike_iff e h value (-value) _ ret
  | Append value ret =>
    cases hio : e.io 0 with
    | none => simp [run, Append, hio, hread, hstale, alike_put, Command.Conceals]
    | some f => simp [run, Append, hio, h.alike_unchanged, Command.Conceals]
  | BitCount startoffset endoffset ret haverange =>
    cases hio : e.io 0 with
    | none => simp [run, BitCount, hio, hread, hstale, h.alike_unchanged, Command.Conceals, Status.toClass]
    | some f => simp [run, BitCount, hio, h.alike_unchanged, Command.Conceals]
  | ScanKeyNum keyinfo =>
    rw [run, run, h.alike_scan e fun _ _ heq => Output.keyinfo.inj heq]
    exact iff_of_false (scanKeyNum_delete_ne h) id
  | ScanKeys pattern keys =>
    rw [run, run, h.alike_scan e fun _ _ heq => Output.keys.inj heq, scanKeys_delete h]
    exact iff_of_true rfl trivial
end RedisString

end RedisDb
