import Mathlib.Data.List.TakeWhile
import SwissArmyKnife.Lib.Footprint
import SwissArmyKnife.RedisDb.RedisHash
import SwissArmyKnife.RedisDb.RedisSet

/-!
# Two keys in one store

Each call on a key of a hash or a set reads and writes entries of the key only: its meta value and its data entries.
So calls on keys without common entries do not notice each other.  A key can be a data key of another one, and
then they do.
-/

namespace RedisDb

open Footprint
open FirstOf (firstOf)

/-- The store keys that are used for a key: the key itself and its data keys. -/
def Entries (key : Slice) : Set Slice := {x | x = key ∨ ∃ version data, x = BaseDataKey key version data}

/-- The keys have no store key in common. -/
def Apart (key₁ key₂ : Slice) : Prop := Disjoint (Entries key₁) (Entries key₂)

section Entries

variable {key : Slice} {version : Int32} {db db' : Db}

theorem key_mem_entries (key : Slice) : key ∈ Entries key := Or.inl rfl

theorem data_mem_entries (key : Slice) (version : Int32) (data : Slice) :
    BaseDataKey key version data ∈ Entries key :=
  Or.inr ⟨version, data, rfl⟩

theorem get_congr (h : AgreeOn (Entries key) db db') (io : Option Failure) : Get io db' key = Get io db key := by
  simp only [Get, h key (key_mem_entries key)]

theorem get_data_congr (h : AgreeOn (Entries key) db db') (io : Option Failure) (version : Int32) (data : Slice) :
    Get io db' (BaseDataKey key version data) = Get io db (BaseDataKey key version data) := by
  simp only [Get, h _ (data_mem_entries key version data)]

theorem readAll_congr (h : AgreeOn (Entries key) db db') (io : Nat → Option Failure) (i : Nat) {keys : List Slice}
    (hkeys : ∀ k ∈ keys, k ∈ Entries key) : RedisHash.readAll io db' i keys = RedisHash.readAll io db i keys := by
  induction keys generalizing i with
  | nil => rfl
  | cons k keys ih =>
    have hget : Get (io i) db' k = Get (io i) db k := by
      simp only [Get, h k (hkeys k (List.mem_cons_self ..))]
    simp only [RedisHash.readAll, hget, ih (i + 1) fun k hk => hkeys k (List.mem_cons_of_mem _ hk)]

theorem scanPrefix_congr (h : AgreeOn (Entries key) db db') (version : Int32) :
    scanPrefix db' (BaseDataKey key version []) = scanPrefix db (BaseDataKey key version []) := by
  refine scan_congr (p := fun k => StartsWith k (BaseDataKey key version [])) (fun k hk => le_of_startsWith hk)
    (fun a b ha hab hb => startsWith_of_le ha hab hb) (fun k hk => ?_) h.symm
  obtain ⟨data, rfl⟩ := startsWith_iff.1 hk
  rw [← baseDataKey_eq_append]
  exact data_mem_entries key version data

theorem mem_entries_of_scan {e : Slice × Slice} (he : e ∈ scanPrefix db (BaseDataKey key version [])) :
    e.1 ∈ Entries key := by
  have hstarts : StartsWith e.1 (BaseDataKey key version []) = true :=
    List.mem_takeWhile_imp (p := fun e : Slice × Slice => StartsWith e.1 (BaseDataKey key version [])) he
  obtain ⟨data, hdata⟩ := startsWith_iff.1 hstarts
  rw [hdata, ← baseDataKey_eq_append]
  exact data_mem_entries key version data

end Entries

/-! ### Hashes -/

namespace RedisHash

/-- A call on a key, as a function of the store. -/
def LocalResult {α : Type} (key : Slice) (call : Db → Result α) : Prop :=
  ∀ db, ∃ (batch : List (SortedMap.Op Slice Slice)) (status : Status) (value : Option α) (failed : Option Failure),
    (∀ o ∈ batch, o.key ∈ Entries key) ∧
      ∀ db', AgreeOn (Entries key) db db' → call db' = ⟨db'.write batch, status, value, failed⟩

variable {key : Slice}

private theorem mem_puts {fvs : List FieldValue} {version : Int32} {o : SortedMap.Op Slice Slice}
    (ho : o ∈ fvs.map fun fv => SortedMap.Op.Put (BaseDataKey key version fv.field) fv.value) :
    o.key ∈ Entries key := by
  obtain ⟨fv, -, rfl⟩ := List.mem_map.1 ho
  exact data_mem_entries key version fv.field

private theorem mem_data {version : Int32} {fields : List Slice} {k : Slice}
    (hk : k ∈ fields.map fun field => BaseDataKey key version field) : k ∈ Entries key := by
  obtain ⟨field, -, rfl⟩ := List.mem_map.1 hk
  exact data_mem_entries key version field

theorem local_hSet (key : Slice) (io : Nat → Option Failure) (memory : UInt32)
    (time later : Int) (field value : Slice) :
    LocalResult key fun db => HSet io memory db key time later field value := by
  intro db
  cases hget : Get (io 0) db key with
  | error e =>
    refine ⟨[], e.status, none, some e, by simp, fun db' h => ?_⟩
    simp only [HSet, get_congr h, hget, Result.fail, SortedMap.write_nil]
  | notFound =>
    refine ⟨[.Put key (newMetaValue memory later).Encode,
      .Put (BaseDataKey key (newMetaValue memory later).version field) value], .OK, some 1, none, ?_, fun db' h => ?_⟩
    · simp [SortedMap.Op.key, key_mem_entries, data_mem_entries]
    · simp only [HSet, get_congr h, hget]
  | ok metavalue =>
    cases hdead : (ParsedBaseMetaValue.new metavalue).IsStale time ||
      (ParsedBaseMetaValue.new metavalue).count == 0 with
    | true =>
      let p := ((ParsedBaseMetaValue.new metavalue).InitialMetaValue later).SetCount 1
      refine ⟨[.Put key p.value, .Put (BaseDataKey key p.version field) value], .OK, some 1,
        none, ?_, fun db' h => ?_⟩
      · simp [SortedMap.Op.key, key_mem_entries, data_mem_entries]
      · simp only [HSet, get_congr h, hget, hdead, if_true, p]
    | false =>
      let k := BaseDataKey key (ParsedBaseMetaValue.new metavalue).version field
      have hk : k ∈ Entries key := data_mem_entries ..
      cases hdata : Get (io 1) db k with
      | error e =>
        refine ⟨[], e.status, none, some e, by simp, fun db' h => ?_⟩
        simp only [k] at hdata
        simp only [HSet, get_congr h, hget, hdead, get_data_congr h, hdata, Result.fail, SortedMap.write_nil,
          Bool.false_eq_true, if_false]
      | notFound =>
        refine ⟨[.Put key ((ParsedBaseMetaValue.new metavalue).ModifyCount 1).value, .Put k value], .OK, some 1, none,
          ?_,
          fun db' h => ?_⟩
        · simp [SortedMap.Op.key, key_mem_entries, hk]
        · simp only [k] at hdata
          simp only [HSet, get_congr h, hget, hdead, get_data_congr h, hdata, Bool.false_eq_true, if_false, k]
      | ok dataValue =>
        simp only [k] at hdata
        by_cases hv : dataValue = value
        · refine ⟨[], .OK, some 0, none, by simp, fun db' h => ?_⟩
          simp only [HSet, get_congr h, hget, hdead, get_data_congr h, hdata, hv, beq_self_eq_true, if_true,
            Bool.false_eq_true, if_false, SortedMap.write_nil]
        · refine ⟨[.Put k value], .OK, some 0, none, by simpa [SortedMap.Op.key] using hk, fun db' h => ?_⟩
          simp only [HSet, get_congr h, hget, hdead, get_data_congr h, hdata, beq_iff_eq, hv, Bool.false_eq_true,
            if_false, k]

theorem local_hGet (key : Slice) (io : Nat → Option Failure) (time : Int) (field : Slice) :
    LocalResult key fun db => HGet io db key time field := by
  intro db
  refine ⟨[], (HGet io db key time field).status, (HGet io db key time field).value,
    (HGet io db key time field).failed, by simp, fun db' h => ?_⟩
  simp only [HGet, get_congr h, get_data_congr h, SortedMap.write_nil]
  cases Get (io 0) db key with
  | error e => rfl
  | notFound => rfl
  | ok metavalue =>
    dsimp only
    split
    · rfl
    · split
      · rfl
      · split <;> rfl

theorem local_hMGet (key : Slice) (io : Nat → Option Failure) (time : Int) (fields : List Slice) :
    LocalResult key fun db => HMGet io db key time fields := by
  intro db
  refine ⟨[], (HMGet io db key time fields).status, (HMGet io db key time fields).value,
    (HMGet io db key time fields).failed, by simp, fun db' h => ?_⟩
  simp only [HMGet, get_congr h, SortedMap.write_nil]
  cases Get (io 0) db key with
  | error e => rfl
  | notFound => rfl
  | ok metavalue =>
    dsimp only
    rw [readAll_congr h io 1 fun k => mem_data]
    split
    · rfl
    · split <;> rfl

theorem local_hGetall (key : Slice) (io : Nat → Option Failure) (time : Int) :
    LocalResult key fun db => HGetall io db key time := by
  intro db
  refine ⟨[], (HGetall io db key time).status, (HGetall io db key time).value,
    (HGetall io db key time).failed, by simp, fun db' h => ?_⟩
  simp only [HGetall, get_congr h, scanPrefix_congr h, SortedMap.write_nil]
  cases Get (io 0) db key with
  | error e => rfl
  | notFound => rfl
  | ok metavalue =>
    dsimp only
    split
    · rfl
    · split <;> rfl

theorem local_hMSet (key : Slice) (io : Nat → Option Failure) (memory : UInt32) (time later : Int)
    (fvs : List FieldValue) :
    LocalResult key fun db => HMSet io memory db key time later fvs := by
  intro db
  let puts (version : Int32) : List (SortedMap.Op Slice Slice) :=
    (lastOf fvs).map fun fv => .Put (BaseDataKey key version fv.field) fv.value
  have hputs : ∀ version, ∀ o ∈ puts version, o.key ∈ Entries key := fun version o ho => mem_puts ho
  cases hget : Get (io 0) db key with
  | error e =>
    refine ⟨[], .OK, none, some e, by simp, fun db' h => ?_⟩
    simp only [HMSet, get_congr h, hget]
  | notFound =>
    refine ⟨.Put key (newMetaValue memory later).Encode :: puts (newMetaValue memory later).version, .OK, none, none,
      ?_,
      fun db' h => ?_⟩
    · exact List.forall_mem_cons.2 ⟨key_mem_entries key, hputs _⟩
    · simp only [HMSet, get_congr h, hget, puts]
  | ok metavalue =>
    cases hdead : (ParsedBaseMetaValue.new metavalue).IsStale time ||
      (ParsedBaseMetaValue.new metavalue).count == 0 with
    | true =>
      let p := ((ParsedBaseMetaValue.new metavalue).InitialMetaValue later).SetCount (Int32.ofNat (lastOf fvs).length)
      refine ⟨.Put key p.value :: puts p.version, .OK, none, none, ?_, fun db' h => ?_⟩
      · exact List.forall_mem_cons.2 ⟨key_mem_entries key, hputs _⟩
      · simp only [HMSet, get_congr h, hget, hdead, if_true, p, puts]
    | false =>
      let version := (ParsedBaseMetaValue.new metavalue).version
      have hkeys : ∀ k ∈ (lastOf fvs).map fun fv => BaseDataKey key version fv.field, k ∈ Entries key := by
        intro k hk
        obtain ⟨fv, -, rfl⟩ := List.mem_map.1 hk
        exact data_mem_entries key version fv.field
      cases hread : readAll io db 1 ((lastOf fvs).map fun fv => BaseDataKey key version fv.field) with
      | error e =>
        refine ⟨[], e.status, none, some e, by simp, fun db' h => ?_⟩
        simp only [version] at hread hkeys
        simp only [HMSet, get_congr h, hget, hdead, readAll_congr h io 1 hkeys, hread,
          Result.fail, SortedMap.write_nil,
          Bool.false_eq_true, if_false]
      | ok values =>
        let count := Int32.ofNat (values.filter Option.isNone).length
        refine ⟨puts version ++ [.Put key ((ParsedBaseMetaValue.new metavalue).ModifyCount count).value], .OK, none,
          none,
          ?_, fun db' h => ?_⟩
        · intro o ho
          rcases List.mem_append.1 ho with ho | ho
          · exact hputs _ o ho
          · rw [List.mem_singleton.1 ho]
            exact key_mem_entries key
        · simp only [version] at hread hkeys
          simp only [HMSet, get_congr h, hget, hdead, readAll_congr h io 1 hkeys, hread, Bool.false_eq_true, if_false,
            puts, version, count]

theorem local_hDel (key : Slice) (io : Nat → Option Failure) (time : Int) (fields : List Slice) :
    LocalResult key fun db => HDel io db key time fields := by
  intro db
  cases hget : Get (io 0) db key with
  | error e =>
    refine ⟨[], e.status, none, some e, by simp, fun db' h => ?_⟩
    simp only [HDel, get_congr h, hget, Result.fail, SortedMap.write_nil]
  | notFound =>
    refine ⟨[], .OK, some 0, none, by simp, fun db' h => ?_⟩
    simp only [HDel, get_congr h, hget, SortedMap.write_nil]
  | ok metavalue =>
    cases hdead : (ParsedBaseMetaValue.new metavalue).IsStale time ||
      (ParsedBaseMetaValue.new metavalue).count == 0 with
    | true =>
      refine ⟨[], .OK, some 0, none, by simp, fun db' h => ?_⟩
      simp only [HDel, get_congr h, hget, hdead, if_true, SortedMap.write_nil]
    | false =>
      let keys := (FirstOf.firstOf id fields).map fun field =>
        BaseDataKey key (ParsedBaseMetaValue.new metavalue).version field
      have hkeys : ∀ k ∈ keys, k ∈ Entries key := fun k => mem_data
      cases hread : readAll io db 1 keys with
      | error e =>
        refine ⟨[], e.status, none, some e, by simp, fun db' h => ?_⟩
        simp only [keys] at hread hkeys
        simp only [HDel, get_congr h, hget, hdead, readAll_congr h io 1 hkeys, hread,
          Result.fail, SortedMap.write_nil,
          Bool.false_eq_true, if_false]
      | ok values =>
        let deleted := ((keys.zip values).filter fun kv => kv.2.isSome).map Prod.fst
        have hdeleted : ∀ k ∈ deleted, k ∈ Entries key := by
          intro k hk
          obtain ⟨kv, hkv, rfl⟩ := List.mem_map.1 hk
          exact hkeys _ (List.of_mem_zip (List.mem_filter.1 hkv).1).1
        refine ⟨deleted.map .Delete ++ [.Put key ((ParsedBaseMetaValue.new metavalue).ModifyCount
          (-Int32.ofNat deleted.length)).value], .OK, some (Int32.ofNat deleted.length), none, ?_, fun db' h => ?_⟩
        · intro o ho
          rcases List.mem_append.1 ho with ho | ho
          · obtain ⟨k, hk, rfl⟩ := List.mem_map.1 ho
            exact hdeleted k hk
          · rw [List.mem_singleton.1 ho]
            exact key_mem_entries key
        · simp only [keys] at hread hkeys
          simp only [HDel, get_congr h, hget, hdead, readAll_congr h io 1 hkeys, hread, Bool.false_eq_true, if_false,
            deleted, keys]

theorem local_del (key : Slice) (io : Nat → Option Failure) (time : Int) :
    LocalResult key fun db => Del io db key time := by
  intro db
  cases hget : Get (io 0) db key with
  | error e =>
    refine ⟨[], .OK, none, some e, by simp, fun db' h => ?_⟩
    simp only [Del, get_congr h, hget]
  | notFound =>
    refine ⟨[], .OK, none, none, by simp, fun db' h => ?_⟩
    simp only [Del, get_congr h, hget]
  | ok metavalue =>
    by_cases hstale : (ParsedBaseMetaValue.new metavalue).IsStale time = true
    · refine ⟨[], .NotFound "Stale", none, none, by simp, fun db' h => ?_⟩
      simp only [Del, get_congr h, hget, hstale, if_true, SortedMap.write_nil]
    · by_cases hzero : ((ParsedBaseMetaValue.new metavalue).count == 0) = true
      · refine ⟨[], .NotFound "", none, none, by simp, fun db' h => ?_⟩
        simp only [Del, get_congr h, hget, hstale, hzero, if_true, if_false, SortedMap.write_nil, Bool.false_eq_true]
      · let found := scanPrefix db (BaseDataKey key (ParsedBaseMetaValue.new metavalue).version [])
        refine ⟨.Delete key :: found.map fun e => .Delete e.1, .OK, none, none, ?_, fun db' h => ?_⟩
        · refine List.forall_mem_cons.2 ⟨key_mem_entries key, fun o ho => ?_⟩
          obtain ⟨e, he, rfl⟩ := List.mem_map.1 ho
          exact mem_entries_of_scan he
        · simp only [Del, get_congr h, hget, hstale, hzero, if_false, scanPrefix_congr h, Bool.false_eq_true, found]

/-- What an action does to the store, and what it returns. -/
def keyOp (key : Slice) (clock : Int) (a : Action) (db : Db) : Db × Status × Reply × Option Failure :=
  let o := outcome key ⟨clock, db⟩ a
  (o.db, o.status, o.reply, o.failed)

def tick (clock : Int) (a : Action) : Int := clock + a.wait + a.lag

private theorem LocalResult.op {α : Type} {call : Db → Result α} (h : LocalResult key call)
    (reply : Status → Option α → Reply) :
    Local (Entries key) fun db =>
      ((call db).db, (call db).status, reply (call db).status (call db).value, (call db).failed) := by
  intro db
  obtain ⟨batch, status, value, failed, hmem, hcall⟩ := h db
  exact ⟨batch, (status, reply status value, failed), hmem, fun db' hagree => by simp only [hcall db' hagree]⟩

theorem local_keyOp (key : Slice) (clock : Int) (a : Action) : Local (Entries key) (keyOp key clock a) := by
  obtain ⟨call, wait, lag, io, memory⟩ := a
  let time : Int := clock + wait
  let later : Int := time + lag
  cases call with
  | HSet field value =>
    exact (local_hSet key io memory time later field value).op fun s v => .set s.ok (v.map Int32.toInt)
  | HMSet fvs => exact (local_hMSet key io memory time later fvs).op fun s _ => .stored s.ok
  | HDel fields => exact (local_hDel key io time fields).op fun s v => .deleted s.ok (v.map Int32.toInt)
  | Del => exact (local_del key io time).op fun _ _ => .removed
  | HGet field => exact (local_hGet key io time field).op fun s v => .value s.ok v
  | HMGet fields => exact (local_hMGet key io time fields).op fun _ v => .values v
  | HExists field => exact (local_hGet key io time field).op fun s _ => .present s.ok
  | HGetall => exact (local_hGetall key io time).op fun _ v => .all v

/-- The results of the calls on `key₂` in an interleaving with calls on `key₁`, which are issued or left out. -/
def resultsOf (key₁ key₂ : Slice) (issue : Bool) (clock : Int) (db : Db) (as : List (Action ⊕ Action)) :
    List (Status × Reply × Option Failure) :=
  second tick tick (keyOp key₁) (keyOp key₂) issue clock db as

end RedisHash

/-! ### Sets -/

namespace RedisSet

/-- What an action does to the store, and what it returns. -/
def keyOp (key : Slice) (clock : Int) (a : Action) (db : Db) : Db × Status × Int32 × List Slice :=
  match a with
  | .SAdd members =>
    let r := SAdd db key clock members
    (r.1, r.2.1, r.2.2, [])
  | .SCard => (db, (SCard db key clock).1, (SCard db key clock).2, [])
  | .SMembers => (db, (SMembers db key clock).1, 0, (SMembers db key clock).2)
  | .Del lag => ((Del db key clock (clock + lag)).1, (Del db key clock (clock + lag)).2, 0, [])
  | .setExpiry timestamp => (setExpiry db key clock timestamp, .OK, 0, [])
  | .wait _ => (db, .OK, 0, [])

def tick (clock : Int) : Action → Int
  | .Del lag => clock + lag
  | .wait duration => clock + duration
  | _ => clock

variable {key : Slice} {db db' : Db}

private theorem newMembers_congr (h : AgreeOn (Entries key) db db') (version : Int32) (members : List Slice) :
    newMembers db' key version members = newMembers db key version members := by
  apply List.filter_congr
  intro m _
  rw [h _ (data_mem_entries key version m)]

private theorem mem_entries_of_puts {version : Int32} {members : List Slice} {o : SortedMap.Op Slice Slice}
    (ho : o ∈ members.map fun member => SortedMap.Op.Put (BaseDataKey key version member) []) :
    o.key ∈ Entries key := by
  obtain ⟨member, -, rfl⟩ := List.mem_map.1 ho
  exact data_mem_entries key version member

private theorem local_sAdd (time : Int) (members : List Slice) :
    Local (Entries key) fun db => SAdd db key time members := by
  intro db
  let size := Int32.ofNat (firstOf id members).length
  cases hget : db.get key with
  | none =>
    let m := (BaseMetaValue.new (EncodeFixed32 size.toUInt32)).UpdateVersion time
    refine ⟨.Put key m.Encode :: (firstOf id members).map fun member => .Put (BaseDataKey key m.version member) [],
      (.OK, size), ?_, fun db' h => ?_⟩
    · exact List.forall_mem_cons.2 ⟨key_mem_entries key, fun o ho => mem_entries_of_puts ho⟩
    · simp only [SAdd, ← h key (key_mem_entries key), hget, m, size]
  | some metavalue =>
    cases hdead : (ParsedBaseMetaValue.new metavalue).IsStale time ||
      (ParsedBaseMetaValue.new metavalue).count == 0 with
    | true =>
      refine ⟨.Put key ((ParsedBaseMetaValue.new metavalue).SetCount size).value ::
        (firstOf id members).map fun member => .Put (BaseDataKey key 0 member) [], (.OK, size), ?_, fun db' h => ?_⟩
      · exact List.forall_mem_cons.2 ⟨key_mem_entries key, fun o ho => mem_entries_of_puts ho⟩
      · simp only [SAdd, ← h key (key_mem_entries key), hget, hdead, if_true, size]
    | false =>
      let added := newMembers db key (ParsedBaseMetaValue.new metavalue).version members
      let cnt := Int32.ofNat added.length
      by_cases hcnt : (cnt == 0) = true
      · refine ⟨[], (.OK, cnt), by simp, fun db' h => ?_⟩
        simp only [cnt, added] at hcnt
        simp only [SAdd, ← h key (key_mem_entries key), hget, hdead, newMembers_congr h, hcnt, if_true,
          Bool.false_eq_true, if_false, SortedMap.write_nil, cnt, added]
      · refine ⟨(added.map fun member =>
          .Put (BaseDataKey key (ParsedBaseMetaValue.new metavalue).version member) []) ++
          [.Put key ((ParsedBaseMetaValue.new metavalue).ModifyCount cnt).value], (.OK, cnt), ?_, fun db' h => ?_⟩
        · intro o ho
          rcases List.mem_append.1 ho with ho | ho
          · exact mem_entries_of_puts ho
          · rw [List.mem_singleton.1 ho]
            exact key_mem_entries key
        · simp only [cnt, added] at hcnt
          simp only [SAdd, ← h key (key_mem_entries key), hget, hdead, newMembers_congr h, hcnt, Bool.false_eq_true,
            if_false, cnt, added]

private theorem local_del (time later : Int) : Local (Entries key) fun db => Del db key time later := by
  intro db
  cases hget : db.get key with
  | none =>
    refine ⟨[], .NotFound "", by simp, fun db' h => ?_⟩
    simp only [Del, ← h key (key_mem_entries key), hget, SortedMap.write_nil]
  | some metavalue =>
    by_cases hstale : (ParsedBaseMetaValue.new metavalue).IsStale time = true
    · refine ⟨[], .NotFound "Stale", by simp, fun db' h => ?_⟩
      simp only [Del, ← h key (key_mem_entries key), hget, hstale, if_true, SortedMap.write_nil]
    · by_cases hzero : ((ParsedBaseMetaValue.new metavalue).count == 0) = true
      · refine ⟨[], .NotFound "", by simp, fun db' h => ?_⟩
        simp only [Del, ← h key (key_mem_entries key), hget, hstale, hzero, if_true, if_false, SortedMap.write_nil,
          Bool.false_eq_true]
      · refine ⟨[.Put key ((ParsedBaseMetaValue.new metavalue).InitialMetaValue later).value], .OK,
          by simpa [SortedMap.Op.key] using key_mem_entries key, fun db' h => ?_⟩
        simp only [Del, ← h key (key_mem_entries key), hget, hstale, hzero, if_false, Bool.false_eq_true]
        rfl

private theorem local_setExpiry (time : Int) (timestamp : Int32) :
    Local (Entries key) fun db => (setExpiry db key time timestamp, ()) := by
  intro db
  cases hget : db.get key with
  | none =>
    refine ⟨[], (), by simp, fun db' h => ?_⟩
    simp only [setExpiry, ← h key (key_mem_entries key), hget, SortedMap.write_nil]
  | some metavalue =>
    cases hdead : (ParsedBaseMetaValue.new metavalue).IsStale time ||
      (ParsedBaseMetaValue.new metavalue).count == 0 with
    | true =>
      refine ⟨[], (), by simp, fun db' h => ?_⟩
      simp only [setExpiry, ← h key (key_mem_entries key), hget, hdead, if_true, SortedMap.write_nil]
    | false =>
      refine ⟨[.Put key ((ParsedBaseMetaValue.new metavalue).SetTimestamp timestamp).value], (),
        by simpa [SortedMap.Op.key] using key_mem_entries key, fun db' h => ?_⟩
      simp only [setExpiry, ← h key (key_mem_entries key), hget, hdead, Bool.false_eq_true, if_false]
      rfl

private theorem sCard_congr (h : AgreeOn (Entries key) db db') (time : Int) :
    SCard db' key time = SCard db key time := by
  simp only [SCard, h key (key_mem_entries key)]

private theorem sMembers_congr (h : AgreeOn (Entries key) db db') (time : Int) :
    SMembers db' key time = SMembers db key time := by
  simp only [SMembers, h key (key_mem_entries key), scanPrefix_congr h]

/-- A local operation followed by a function of what it returns. -/
private theorem local_map {F : Set Slice} {ρ ρ' : Type} {op : Db → Db × ρ} (h : Local F op) (f : ρ → ρ') :
    Local F fun db => ((op db).1, f (op db).2) := by
  intro db
  obtain ⟨batch, r, hmem, hop⟩ := h db
  exact ⟨batch, f r, hmem, fun db' hagree => by simp only [hop db' hagree]⟩

theorem local_keyOp (key : Slice) (clock : Int) (a : Action) : Local (Entries key) (keyOp key clock a) := by
  cases a with
  | SAdd members => exact local_map (local_sAdd clock members) fun r => (r.1, r.2, [])
  | SCard =>
    intro db
    refine ⟨[], ((SCard db key clock).1, (SCard db key clock).2, []), by simp, fun db' h => ?_⟩
    simp only [keyOp, sCard_congr h, SortedMap.write_nil]
  | SMembers =>
    intro db
    refine ⟨[], ((SMembers db key clock).1, 0, (SMembers db key clock).2), by simp, fun db' h => ?_⟩
    simp only [keyOp, sMembers_congr h, SortedMap.write_nil]
  | Del lag => exact local_map (local_del clock (clock + lag)) fun s => (s, 0, [])
  | setExpiry timestamp => exact local_map (local_setExpiry clock timestamp) fun _ =>
      (Status.OK, (0 : Int32), ([] : List Slice))
  | wait duration => exact fun db => ⟨[], (.OK, 0, []), by simp, fun db' _ => rfl⟩

/-- The results of the calls on `key₂` in an interleaving with calls on `key₁`, which are issued or left out. -/
def resultsOf (key₁ key₂ : Slice) (issue : Bool) (clock : Int) (db : Db) (as : List (Action ⊕ Action)) :
    List (Status × Int32 × List Slice) :=
  second tick tick (keyOp key₁) (keyOp key₂) issue clock db as

end RedisSet

/-! ### Keys with common entries -/

/-- A clock at which a key that has no meta value gets the version. -/
theorem nextVersion_of_clock (version : Int32) {n : Int} (hn : 0 < n) :
    nextVersion 0 (version.toInt + 2 ^ 32 * n) = version := by
  have hmin : -2 ^ 31 ≤ version.toInt := version.le_toInt
  rw [nextVersion, if_neg (by rw [Int32.toInt_zero]; omega), ← Int32.toInt_inj, Int32.toInt_ofInt]
  have hsize : (2 : Int) ^ 32 = (Int32.size : Nat) := rfl
  rw [hsize, Int.add_mul_bmod_self_left]
  exact version.toInt_bmod

/-- A clock at which such a key gets a version, and a later one at which it gets another version. -/
theorem exists_clock (version version' : Int32) :
    ∃ (clock : Int) (wait : ℕ), nextVersion 0 clock = version ∧ nextVersion 0 (clock + wait) = version' := by
  have hlt := version.toInt_lt
  have hle := version'.le_toInt
  refine ⟨version.toInt + 2 ^ 32 * 1, (version'.toInt + 2 ^ 32 * 2 - (version.toInt + 2 ^ 32 * 1)).toNat,
    nextVersion_of_clock version (by omega), ?_⟩
  have hwait : version.toInt + 2 ^ 32 * 1 +
      ((version'.toInt + 2 ^ 32 * 2 - (version.toInt + 2 ^ 32 * 1)).toNat : Int) =
      version'.toInt + 2 ^ 32 * 2 := by omega
  rw [hwait, nextVersion_of_clock version' (by omega)]

theorem length_lt_baseDataKey (key : Slice) (version : Int32) (data : Slice) :
    key.length < (BaseDataKey key version data).length := by
  simp [BaseDataKey]
  omega

/-- An element under a version, other than a given one, whose data key is not a given key. -/
theorem exists_data_ne (key₁ key₂ : Slice) (version : Int32) (data : Slice) :
    ∃ other, other ≠ data ∧ BaseDataKey key₂ version other ≠ key₁ := by
  by_cases h : BaseDataKey key₂ version (0 :: data) = key₁
  · refine ⟨1 :: data, List.cons_ne_self 1 data, fun h' => ?_⟩
    have := (baseDataKey_injective (h.trans h'.symm)).2
    simp at this
  · exact ⟨0 :: data, List.cons_ne_self 0 data, h⟩

theorem ne_data_of_mem {key₁ key₂ : Slice} {version : Int32} {data : Slice}
    (h : BaseDataKey key₂ version data ∈ Entries key₁) :
    ∃ version' data', BaseDataKey key₁ version' data' ≠ key₂ ∧
      (BaseDataKey key₂ version data = key₁ ∨ BaseDataKey key₂ version data = BaseDataKey key₁ version' data') := by
  rcases h with h | ⟨version', data', h⟩
  · refine ⟨0, [], fun h' => ?_, .inl h⟩
    have hlen₁ := length_lt_baseDataKey key₁ 0 []
    have hlen₂ := length_lt_baseDataKey key₂ version data
    rw [h'] at hlen₁
    rw [h] at hlen₂
    omega
  · exact ⟨version', data', fun h' => baseDataKey_ne key₂ version data (h.trans h'), .inr h⟩

/-- What a key and one of its elements are stored as, in a store with nothing under the key. -/
def storeOne (db : Db) (key metavalue : Slice) (version : Int32) (data value : Slice) : Db :=
  db.write [.Put key metavalue, .Put (BaseDataKey key version data) value]

theorem get_storeOne (db : Db) (key metavalue : Slice) (version : Int32) (data value k : Slice) :
    (storeOne db key metavalue version data value).get k =
      if k = BaseDataKey key version data then some value else if k = key then some metavalue else db.get k := by
  rw [storeOne, SortedMap.write_cons, SortedMap.write_cons, SortedMap.write_nil, SortedMap.apply, SortedMap.apply,
    SortedMap.get_put, SortedMap.get_put]
  split_ifs <;> rfl

/-- A key with one element without a value. -/
abbrev storeElement (db : Db) (key : Slice) (version : Int32) (data : Slice) : Db :=
  storeOne db key (⟨1, version, 0⟩ : MetaFields).encode version data []

/-- An element of `key₂` is not stored before, but after an element of `key₁` is, and the meta value of `key₂`
stays. -/
theorem exists_shared {key₁ key₂ : Slice} (hne : key₁ ≠ key₂) {version : Int32} {data : Slice}
    (hmem : BaseDataKey key₂ version data ∈ Entries key₁) :
    ∃ other version₁ data₁, (storeElement .empty key₂ version other).get key₁ = none ∧
      (storeElement .empty key₂ version other).get key₂ = some (⟨1, version, 0⟩ : MetaFields).encode ∧
      (storeElement (storeElement .empty key₂ version other) key₁ version₁ data₁).get key₂ =
        some (⟨1, version, 0⟩ : MetaFields).encode ∧
      (storeElement .empty key₂ version other).get (BaseDataKey key₂ version data) = none ∧
      ((storeElement (storeElement .empty key₂ version other) key₁ version₁ data₁).get
        (BaseDataKey key₂ version data)).isSome = true := by
  obtain ⟨other, hother, hkey⟩ := exists_data_ne key₁ key₂ version data
  obtain ⟨version₁, data₁, hne₁, hdata⟩ := ne_data_of_mem hmem
  have hmeta : (storeElement .empty key₂ version other).get key₂ = some (⟨1, version, 0⟩ : MetaFields).encode := by
    rw [get_storeOne, if_neg (baseDataKey_ne key₂ version other).symm, if_pos rfl]
  refine ⟨other, version₁, data₁, ?_, hmeta, ?_, ?_, ?_⟩
  · rw [get_storeOne, if_neg hkey.symm, if_neg hne]
    rfl
  · rw [get_storeOne, if_neg hne₁.symm, if_neg hne.symm, hmeta]
  · rw [get_storeOne, if_neg fun h => hother (baseDataKey_injective_data key₂ version h).symm,
      if_neg (baseDataKey_ne key₂ version data)]
    rfl
  · rw [get_storeOne]
    split
    · rfl
    · rw [if_pos (hdata.resolve_right ‹_›)]
      rfl

namespace RedisHash

variable {key key₁ key₂ : Slice} {db : Db}

/-- The calls on `key₂` return the same whether the calls on `key₁` are issued or not. -/
def Independent (key₁ key₂ : Slice) : Prop :=
  ∀ clock db as, resultsOf key₁ key₂ true clock db as = resultsOf key₁ key₂ false clock db as

theorem independent_of_apart (h : Apart key₁ key₂) : Independent key₁ key₂ := fun clock db as =>
  second_eq (local_keyOp key₁) (local_keyOp key₂) h clock as (.refl _ db)

private theorem keyOp_hSet_absent (hget : db.get key = none) {clock : Int} {version : Int32} {wait : ℕ}
    (hclock : nextVersion 0 (clock + wait) = version) (field value : Slice) :
    (keyOp key clock { call := .HSet field value, wait := wait, memory := 1 } db).1 =
      storeOne db key (⟨1, version, 0⟩ : MetaFields).encode version field value := by
  have hlater : clock + wait + ((0 : ℕ) : Int) = clock + wait := by omega
  simp only [keyOp, outcome, HSet, Get, hget, hlater, newMetaValue, storeOne]
  rw [← hclock]
  rfl

private theorem keyOp_hGet (clock : Int) {version : Int32}
    (hget : db.get key = some (⟨1, version, 0⟩ : MetaFields).encode) (field : Slice) :
    (keyOp key clock { call := .HGet field } db).2.1 =
      if (db.get (BaseDataKey key version field)).isSome then .OK else .NotFound "" := by
  simp only [keyOp, outcome, HGet, Get, hget, MetaFields.new_encode, MetaFields.parsed_version]
  cases db.get (BaseDataKey key version field) <;> rfl

/-- A set field is found when a call on another key has stored it. -/
private theorem not_independent_of_data (hne : key₁ ≠ key₂) {version : Int32} {field : Slice}
    (hmem : BaseDataKey key₂ version field ∈ Entries key₁) : ¬ Independent key₁ key₂ := by
  intro h
  obtain ⟨other, version₁, field₁, hkey₁, hmeta₁, hmeta₂, hfield₁, hfield₂⟩ := exists_shared hne hmem
  obtain ⟨clock, wait, hclock, hclock₁⟩ := exists_clock version version₁
  have hrun := h clock .empty [.inr { call := .HSet other [], memory := 1 },
    .inl { call := .HSet field₁ [], wait := wait, memory := 1 }, .inr { call := .HGet field }]
  have hset₁ : (keyOp key₂ clock { call := .HSet other [], memory := 1 } .empty).1 =
      storeElement .empty key₂ version other :=
    keyOp_hSet_absent rfl (by rwa [Int.natCast_zero, Int.add_zero]) other []
  have htick : tick clock { call := .HSet other [], memory := 1 } = clock := by simp [tick]
  have hset₂ : (keyOp key₁ clock { call := .HSet field₁ [], wait := wait, memory := 1 }
      (storeElement .empty key₂ version other)).1 = storeElement (storeElement .empty key₂ version
        other) key₁ version₁ field₁ :=
    keyOp_hSet_absent hkey₁ hclock₁ field₁ []
  simp only [resultsOf, second, if_true, Bool.false_eq_true, if_false, hset₁, htick, hset₂, List.cons.injEq,
    true_and, and_true] at hrun
  have hstatus := congrArg Prod.fst hrun
  rw [keyOp_hGet _ hmeta₂, keyOp_hGet _ hmeta₁, hfield₁, hfield₂] at hstatus
  cases hstatus

/-- A key that is a data key of another one has a meta value when the field is set to one. -/
private theorem not_independent_of_key (hne : key₁ ≠ key₂) (hmem : key₂ ∈ Entries key₁) :
    ¬ Independent key₁ key₂ := by
  intro h
  obtain ⟨version, field, hkey⟩ := hmem.resolve_left hne.symm
  let metavalue := (⟨1, 1, 0⟩ : MetaFields).encode
  let db := storeOne .empty key₁ (⟨1, version, 0⟩ : MetaFields).encode version field metavalue
  have hclock : nextVersion 0 (version.toInt + 2 ^ 32 * 1) = version := nextVersion_of_clock version (by omega)
  have hset : (keyOp key₁ (version.toInt + 2 ^ 32 * 1) { call := .HSet field metavalue, memory := 1 } .empty).1 =
      db :=
    keyOp_hSet_absent rfl (by rwa [Int.natCast_zero, Int.add_zero]) field metavalue
  have hget : db.get key₂ = some metavalue := by rw [get_storeOne, if_pos hkey]
  have hrun := h (version.toInt + 2 ^ 32 * 1) .empty [.inl { call := .HSet field metavalue, memory := 1 },
    .inr { call := .HGetall }]
  simp only [resultsOf, second, if_true, Bool.false_eq_true, if_false, hset, List.cons.injEq, and_true] at hrun
  have hstatus := congrArg Prod.fst hrun
  simp only [keyOp, outcome, HGetall, Get, hget, metavalue, MetaFields.new_encode, SortedMap.get_empty] at hstatus
  cases hstatus

theorem independent_iff (hne : key₁ ≠ key₂) : Independent key₁ key₂ ↔ Apart key₁ key₂ := by
  constructor
  · intro h
    refine Set.disjoint_left.2 fun k hk₁ hk₂ => ?_
    rcases hk₂ with rfl | ⟨version, field, rfl⟩
    · exact not_independent_of_key hne hk₁ h
    · exact not_independent_of_data hne hk₁ h
  · exact independent_of_apart

end RedisHash

namespace RedisSet

variable {key key₁ key₂ : Slice} {db : Db}

/-- The calls on `key₂` return the same whether the calls on `key₁` are issued or not. -/
def Independent (key₁ key₂ : Slice) : Prop :=
  ∀ clock db as, resultsOf key₁ key₂ true clock db as = resultsOf key₁ key₂ false clock db as

theorem independent_of_apart (h : Apart key₁ key₂) : Independent key₁ key₂ := fun clock db as =>
  second_eq (local_keyOp key₁) (local_keyOp key₂) h clock as (.refl _ db)

end RedisSet

/-! ### When keys are independent -/

variable {key₁ key₂ : Slice}

/-- Calls on the first key are not noticed by calls on the second one, and neither key is a data key of the other. -/
structure KeysIndependent (key₁ key₂ : Slice) : Prop where
  hash : RedisHash.Independent key₁ key₂
  set : RedisSet.Independent key₁ key₂
  apart : ∀ version data, key₁ ≠ BaseDataKey key₂ version data ∧ key₂ ≠ BaseDataKey key₁ version data

/-- A data key determines its key, unless the length of the key does not fit the four bytes before it. -/
theorem baseDataKey_injective_key (h₁ : key₁.length < 2 ^ 32) (h₂ : key₂.length < 2 ^ 32) {version version' : Int32}
    {data data' : Slice} (h : BaseDataKey key₁ version data = BaseDataKey key₂ version' data') : key₁ = key₂ := by
  have hlength := congrArg DecodeFixed32 h
  rw [BaseDataKey, BaseDataKey, decodeFixed32_append, decodeFixed32_append] at hlength
  have hnat := congrArg UInt32.toNat hlength
  rw [UInt32.toNat_ofNat_of_lt' h₁, UInt32.toNat_ofNat_of_lt' h₂] at hnat
  rw [BaseDataKey, BaseDataKey, hlength] at h
  exact (List.append_inj (List.append_cancel_left h) hnat).1

theorem apart_iff_of_length (hne : key₁ ≠ key₂) (h₁ : key₁.length < 2 ^ 32) (h₂ : key₂.length < 2 ^ 32) :
    Apart key₁ key₂ ↔ ∀ version data, key₁ ≠ BaseDataKey key₂ version data ∧
    key₂ ≠ BaseDataKey key₁ version data := by
  constructor
  · intro h version data
    constructor
    · rintro rfl
      exact Set.disjoint_left.1 h (key_mem_entries _) (data_mem_entries key₂ version data)
    · rintro rfl
      exact Set.disjoint_left.1 h (data_mem_entries key₁ version data) (key_mem_entries _)
  · intro h
    refine Set.disjoint_left.2 ?_
    rintro k (rfl | ⟨version, data, rfl⟩) (heq | ⟨version', data', heq⟩)
    · exact hne heq
    · exact (h version' data').1 heq
    · exact (h version data).2 heq.symm
    · exact hne (baseDataKey_injective_key h₁ h₂ heq)

theorem keysIndependent_iff (hne : key₁ ≠ key₂) : KeysIndependent key₁ key₂ ↔ Apart key₁ key₂ := by
  constructor
  · intro h
    exact (RedisHash.independent_iff hne).1 h.hash
  · intro h
    refine ⟨RedisHash.independent_of_apart h, RedisSet.independent_of_apart h, fun version data => ⟨?_, ?_⟩⟩
    · rintro rfl
      exact Set.disjoint_left.1 h (key_mem_entries _) (data_mem_entries key₂ version data)
    · rintro rfl
      exact Set.disjoint_left.1 h (data_mem_entries key₁ version data) (key_mem_entries _)

theorem keysIndependent_short : KeysIndependent [1] [2] := by
  refine (keysIndependent_iff (by decide)).2 ((apart_iff_of_length (by decide) (by decide) (by decide)).2 ?_)
  intro version data
  constructor
  · intro h
    simpa [BaseDataKey, EncodeFixed32] using congrArg List.length h
  · intro h
    simpa [BaseDataKey, EncodeFixed32] using congrArg List.length h

/-- Two calls on the key 1 with a call in between on the key that is the data key of its field 2 under version 7: the
field is found, with the meta value of the other key as its value, though it was never set. -/
theorem not_independent_dataKey :
    BaseDataKey [1] 7 [2] ≠ [1] ∧ ¬ RedisHash.Independent (BaseDataKey [1] 7 [2]) [1] := by
  refine ⟨by decide, fun h => ?_⟩
  let as : List (RedisHash.Action ⊕ RedisHash.Action) := [.inr { call := .HSet [3] [], memory := 1 },
    .inl { call := .HSet [4] [], memory := 1 }, .inr { call := .HGet [2] }]
  have hissued : RedisHash.resultsOf (BaseDataKey [1] 7 [2]) [1] true 7 .empty as =
      [(.OK, .set true (some 1), none), (.OK, .value true (some [1, 0, 0, 0, 7, 0, 0, 0, 0, 0, 0, 0]), none)] := by
    decide +kernel
  have hleftOut : RedisHash.resultsOf (BaseDataKey [1] 7 [2]) [1] false 7 .empty as =
      [(.OK, .set true (some 1), none), (.NotFound "", .value false none, none)] := by
    decide +kernel
  have hsame := hissued.symm.trans ((h 7 .empty as).trans hleftOut)
  simp at hsame

end RedisDb
