import SwissArmyKnife.Lib.Visits
import SwissArmyKnife.RedisDb.DeadStores

/-!
# Deletion and expiry of keys

The `Del` of a hash answers `OK` for a missing one, and the `Del` of a set, a list or a sorted set leaves an empty
meta value, which later calls notice.  So `Del` does what it should only for keys that have a live hash, maybe a live
string, and nothing else (`delOk_iff`).  `Expire` takes effect in strings and sorted sets, but counts the other types,
too, and never does what it should (`not_expireOk`).
-/

namespace RedisDb

open Visits

namespace RedisDB

variable {L S : Type*} [LinearOrder S]

/-! ### What is meant -/

section Meant

variable (doubles : LongDoubles L) (scores : Scores S)

/-- Every call answers at the time as if the key had no meta value of the type. -/
def Absent (s : Stores S) (key : Slice) (time : Int) (t : DataType) : Prop :=
  ∀ e : Setting L, e.doubles = doubles → e.time = time → ∀ c : Command S, c.type = t →
    Alike (contents scores key) e.later (run e scores s key c) (run e scores (without scores s key t) key c)

/-- The calls that read the key return at the time in the second stores what they return now in the first ones. -/
def SameReads (s : Stores S) (now : Int) (s' : Stores S) (time : Int) (key : Slice) : DataType → Prop
  | .kStrings => RedisString.Get none s'.strings key time = RedisString.Get none s.strings key now
  | .kHashes =>
    (∀ field, (RedisHash.HGet noErrors s'.hashes key time field).status =
        (RedisHash.HGet noErrors s.hashes key now field).status ∧
      (RedisHash.HGet noErrors s'.hashes key time field).value =
        (RedisHash.HGet noErrors s.hashes key now field).value) ∧
    (∀ fields, (RedisHash.HMGet noErrors s'.hashes key time fields).value =
      (RedisHash.HMGet noErrors s.hashes key now fields).value) ∧
    (RedisHash.HGetall noErrors s'.hashes key time).value = (RedisHash.HGetall noErrors s.hashes key now).value
  | .kLists => RedisList.LLen s'.lists key time = RedisList.LLen s.lists key now ∧
    ∀ start stop, RedisList.LRange s'.lists key time start stop = RedisList.LRange s.lists key now start stop
  | .kZSets => RedisZset.ZCard scores s'.zsets key time = RedisZset.ZCard scores s.zsets key now ∧
    (∀ start stop, RedisZset.ZRange scores s'.zsets key time start stop =
      RedisZset.ZRange scores s.zsets key now start stop) ∧
    ∀ member, RedisZset.ZRank scores s'.zsets key time member = RedisZset.ZRank scores s.zsets key now member
  | .kSets => RedisSet.SCard s'.sets key time = RedisSet.SCard s.sets key now ∧
    RedisSet.SMembers s'.sets key time = RedisSet.SMembers s.sets key now

/-- `Del` returns the number of live pairs of a key and a type, and no key is left in any type. -/
structure DelOk (now : Int) (s : Stores S) (keys : List Slice) : Prop where
  count : (Del scores now s keys).2.result =
    (types.map fun t => (keys.toFinset.filter fun key => live scores s now key t = true).card).sum
  absent : ∀ key ∈ keys, ∀ t time, now ≤ time → Absent doubles scores (Del scores now s keys).1 key time t

/-- `Expire` returns the number of types in which the key is live, and the key expires in each of them. -/
structure ExpireOk (now : Int) (s : Stores S) (key : Slice) (ttl : Int32) : Prop where
  count : (Expire scores now s key ttl).2.result = (types.countP (live scores s now key) : ℕ)
  absent : ∀ t, live scores s now key t = true → ∀ time, now ≤ time → (0 < ttl → now + ttl.toInt < time) →
    Absent doubles scores (Expire scores now s key ttl).1 key time t
  unaffected : 0 < ttl → ∀ t, live scores s now key t = true → ∀ time, now ≤ time → time ≤ now + ttl.toInt →
    SameReads scores s now (Expire scores now s key ttl).1 time key t

/-- The key has a meta value of the type, live or not. -/
def present (s : Stores S) (key : Slice) : DataType → Bool
  | .kStrings => (s.strings.get key).isSome
  | .kHashes => (s.hashes.get key).isSome
  | .kLists => (s.lists.get (RedisList.metaKey key)).isSome
  | .kZSets => (s.zsets.get (RedisZset.metaKey scores key)).isSome
  | .kSets => (s.sets.get key).isSome

/-- The key has a live hash, maybe a live string, and no other meta value. -/
structure Deletable (now : Int) (s : Stores S) (key : Slice) : Prop where
  hash : live scores s now key .kHashes = true
  others : ∀ t, present scores s key t = true → (t = .kStrings ∨ t = .kHashes) ∧ live scores s now key t = true

/-- The meta values under the key are as the calls write them.  The version of a set is a time when it was written, or
a greater number. -/
structure WellFormed (s : Stores S) (key : Slice) : Prop where
  hashes : ∀ v, s.hashes.get key = some v → ∃ f : MetaFields, v = f.encode
  sets : ∀ v, s.sets.get key = some v → ∃ f : MetaFields, v = f.encode ∧ f.version ≠ 0
  lists : ∀ v, s.lists.get (RedisList.metaKey key) = some v → ∃ f : ListsFields, v = f.encode
  zsets : ∀ v, s.zsets.get (RedisZset.metaKey scores key) = some v → ∃ f : MetaFields, v = .bytes f.encode

end Meant

variable {doubles : LongDoubles L} {scores : Scores S} {now : Int} {keys : List Slice}

/-! ### The types -/

def delStrings (now : Int) (db : Db) (key : Slice) : Db × Bool :=
  let r := RedisString.Del none db key now
  (r.1, r.2.ok)

def delHashes (now : Int) (db : Db) (key : Slice) : Db × Bool :=
  let r := RedisHash.Del noErrors db key now
  (r.db, r.status.ok)

def delSets (now : Int) (db : Db) (key : Slice) : Db × Bool :=
  let r := RedisSet.Del db key now now
  (r.1, r.2.ok)

def delLists (now : Int) (db : ListDb) (key : Slice) : ListDb × Bool :=
  let r := RedisList.Del db key now now
  (r.1, r.2.ok)

def delZSets (scores : Scores S) (now : Int) (db : ZsetDb S) (key : Slice) : ZsetDb S × Bool :=
  let r := RedisZset.Del scores db key now now
  (r.1, r.2.ok)

theorem delStrings_eq (now : Int) (db : Db) (key : Slice) :
    delStrings now db key = if RedisString.live now (db.get key) then (db.delete key, true) else (db, false) := by
  cases hget : SortedMap.get db key with
  | none => simp [delStrings, RedisString.Del, Get, hget, RedisString.live, Status.ok]
  | some v =>
    cases hstale : (ParsedStringsMetaValue.new v).IsStale now <;>
      simp [delStrings, RedisString.Del, Get, hget, RedisString.live, hstale, Status.ok]

theorem delSets_eq (now : Int) (db : Db) (key : Slice) :
    delSets now db key = if ParsedBaseMetaValue.live now (db.get key) then
      (db.put key ((ParsedBaseMetaValue.new ((db.get key).getD [])).InitialMetaValue now).value, true)
      else (db, false) := by
  cases hget : SortedMap.get db key with
  | none => simp [delSets, RedisSet.Del, hget, ParsedBaseMetaValue.live, Status.ok]
  | some v =>
    cases hstale : (ParsedBaseMetaValue.new v).IsStale now <;>
      cases hzero : (ParsedBaseMetaValue.new v).count == 0 <;>
        simp [delSets, RedisSet.Del, hget, ParsedBaseMetaValue.live, hstale, hzero, Status.ok]

theorem delLists_eq (now : Int) (db : ListDb) (key : Slice) :
    delLists now db key = if ParsedListsMetaValue.live now (db.get (RedisList.metaKey key)) then
      (db.put (RedisList.metaKey key)
        ((ParsedListsMetaValue.new ((db.get (RedisList.metaKey key)).getD [])).InitialMetaValue now).value, true)
      else (db, false) := by
  cases hget : SortedMap.get db (RedisList.metaKey key) with
  | none => simp [delLists, RedisList.Del, hget, ParsedListsMetaValue.live, Status.ok]
  | some v =>
    cases hstale : (ParsedListsMetaValue.new v).IsStale now <;>
      cases hzero : (ParsedListsMetaValue.new v).count == 0 <;>
        simp [delLists, RedisList.Del, hget, ParsedListsMetaValue.live, hstale, hzero, Status.ok]

theorem delZSets_eq (now : Int) (db : ZsetDb S) (key : Slice) :
    delZSets scores now db key =
      if ParsedBaseMetaValue.live now ((db.get (RedisZset.metaKey scores key)).map (ZSetsValue.data scores)) then
        (db.put (RedisZset.metaKey scores key) (.bytes ((ParsedBaseMetaValue.new
          (((db.get (RedisZset.metaKey scores key)).map (ZSetsValue.data scores)).getD
            [])).InitialMetaValue now).value),
          true)
      else (db, false) := by
  cases hget : SortedMap.get db (RedisZset.metaKey scores key) with
  | none => simp [delZSets, RedisZset.Del, hget, ParsedBaseMetaValue.live, Status.ok]
  | some v =>
    cases hstale : (RedisZset.parsedMeta scores v).IsStale now <;>
      cases hzero : (RedisZset.parsedMeta scores v).count == 0 <;>
        simp [delZSets, RedisZset.Del, hget, ParsedBaseMetaValue.live, RedisZset.parsedMeta, Status.ok] <;>
        simp_all [RedisZset.parsedMeta]

theorem delHashes_eq (now : Int) (db : Db) (key : Slice) :
    delHashes now db key = if ParsedBaseMetaValue.live now (db.get key) then
      (db.write (.Delete key :: (scanPrefix db (BaseDataKey key
        (ParsedBaseMetaValue.new ((db.get key).getD [])).version [])).map fun e => .Delete e.1), true)
      else (db, (db.get key).isNone) := by
  cases hget : SortedMap.get db key with
  | none => simp [delHashes, RedisHash.Del, Get, noErrors, hget, ParsedBaseMetaValue.live, Status.ok]
  | some v =>
    cases hstale : (ParsedBaseMetaValue.new v).IsStale now <;>
      cases hzero : (ParsedBaseMetaValue.new v).count == 0 <;>
        simp [delHashes, RedisHash.Del, Get, noErrors, hget, ParsedBaseMetaValue.live, hstale, hzero, Status.ok]

/-! ### What a visit clears -/

private theorem clears_strings (now : Int) (keys : List Slice) :
    Clears (delStrings now) SortedMap.get (RedisString.live now) (fun _ => none) keys := by
  refine clears_of_ite (f := fun db key => db.delete key) (fun db k => ?_) (fun db k _ => ?_) fun db k _ k' _ hne =>
    ?_
  · rw [delStrings_eq]
    split <;> rfl
  · exact SortedMap.get_delete_self db k
  · rw [SortedMap.get_delete, if_neg hne]

private theorem clears_sets (now : Int) (keys : List Slice) :
    Clears (delSets now) SortedMap.get (ParsedBaseMetaValue.live now)
      (fun o => some ((ParsedBaseMetaValue.new (o.getD [])).InitialMetaValue now).value) keys := by
  refine clears_of_ite (f := fun db key =>
    db.put key ((ParsedBaseMetaValue.new ((db.get key).getD [])).InitialMetaValue now).value)
    (fun db k => ?_) (fun db k _ => ?_) fun db k _ k' _ hne => ?_
  · rw [delSets_eq]
    split <;> rfl
  · exact SortedMap.get_put_self db k _
  · rw [SortedMap.get_put, if_neg hne]

private theorem clears_lists (now : Int) (keys : List Slice) :
    Clears (delLists now) (fun db key => db.get (RedisList.metaKey key)) (ParsedListsMetaValue.live now)
      (fun o => some ((ParsedListsMetaValue.new (o.getD [])).InitialMetaValue now).value) keys := by
  refine clears_of_ite (f := fun db key => db.put (RedisList.metaKey key)
    ((ParsedListsMetaValue.new ((db.get (RedisList.metaKey key)).getD [])).InitialMetaValue now).value)
    (fun db k => ?_) (fun db k _ => ?_) fun db k _ k' _ hne => ?_
  · rw [delLists_eq]
    split <;> rfl
  · exact SortedMap.get_put_self db _ _
  · rw [SortedMap.get_put, if_neg]
    simpa [RedisList.metaKey] using hne

private theorem clears_zsets (now : Int) (keys : List Slice) :
    Clears (delZSets scores now) (fun db key => db.get (RedisZset.metaKey scores key))
      (fun o => ParsedBaseMetaValue.live now (o.map (ZSetsValue.data scores)))
      (fun o => some (.bytes
        ((ParsedBaseMetaValue.new ((o.map (ZSetsValue.data scores)).getD [])).InitialMetaValue now).value)) keys := by
  refine clears_of_ite (f := fun db key => db.put (RedisZset.metaKey scores key) (.bytes ((ParsedBaseMetaValue.new
    (((db.get (RedisZset.metaKey scores key)).map (ZSetsValue.data scores)).getD [])).InitialMetaValue now).value))
    (fun db k => ?_) (fun db k _ => ?_) fun db k _ k' _ hne => ?_
  · rw [delZSets_eq]
    split <;> rfl
  · exact SortedMap.get_put_self db _ _
  · rw [SortedMap.get_put, if_neg]
    simpa [RedisZset.metaKey] using hne

/-- The `Del` of a hash does not touch the meta values of keys that are not its data keys. -/
private theorem clears_hashes (now : Int) (hapart : ∀ k ∈ keys, ∀ k' ∈ keys, k' ≠ k → k' ∉ Entries k) :
    Clears (delHashes now) SortedMap.get (ParsedBaseMetaValue.live now) (fun _ => none) keys := by
  refine clears_of_ite (f := fun db key => db.write (.Delete key :: (scanPrefix db (BaseDataKey key
    (ParsedBaseMetaValue.new ((db.get key).getD [])).version [])).map fun e => .Delete e.1))
    (fun db k => ?_) (fun db k _ => ?_) fun db k hk k' hk' hne => ?_
  · rw [delHashes_eq]
    split <;> rfl
  · rw [SortedMap.write_cons, SortedMap.apply, SortedMap.get_deletes]
    split
    · rfl
    · exact SortedMap.get_delete_self db k
  · refine SortedMap.get_write_of_forall_ne (List.forall_mem_cons.2 ⟨hne.symm, fun o ho heq => ?_⟩)
    obtain ⟨e, he, rfl⟩ := List.mem_map.1 ho
    exact hapart k hk k' hk' hne (heq ▸ mem_entries_of_scan he)

/-! ### The tally -/

/-- A status that is no error. -/
def Answers (s : Status) : Prop := s.ok = true ∨ s.IsNotFound = true

/-- The statuses that are `OK` are counted. -/
theorem foldl_account (r : Tally) (l : List (DataType × Status)) (h : ∀ p ∈ l, Answers p.2) :
    (l.foldl (fun r p => r.account p.1 p.2) r).count = r.count + ((l.map fun p => p.2.ok.toNat).sum : ℕ) ∧
      (l.foldl (fun r p => r.account p.1 p.2) r).iscorruption = r.iscorruption := by
  induction l generalizing r with
  | nil => simp
  | cons p l ih =>
    obtain ⟨hcount, hcorruption⟩ := ih (r.account p.1 p.2) fun q hq => h q (List.mem_cons_of_mem _ hq)
    rw [List.foldl_cons, hcount, hcorruption, List.map_cons, List.sum_cons, Tally.account]
    cases hok : p.2.ok with
    | true =>
      refine ⟨?_, rfl⟩
      simp only [if_true, Bool.toNat_true]
      omega
    | false =>
      have hfound : p.2.IsNotFound = true := (h p (List.mem_cons_self ..)).resolve_left (by simp [hok])
      simp [hfound]

theorem answers_delStrings (db : Db) (key : Slice) : Answers (RedisString.Del none db key now).2 := by
  unfold RedisString.Del
  simp only [Get]
  cases db.get key with
  | none => exact .inr rfl
  | some v =>
    dsimp only
    split
    · exact .inr rfl
    · exact .inl rfl

theorem answers_delHashes (db : Db) (key : Slice) : Answers (RedisHash.Del noErrors db key now).status := by
  unfold RedisHash.Del
  simp only [Get, noErrors]
  cases db.get key with
  | none => exact .inl rfl
  | some v =>
    dsimp only
    split
    · exact .inr rfl
    · split
      · exact .inr rfl
      · exact .inl rfl

theorem answers_delSets (db : Db) (key : Slice) : Answers (RedisSet.Del db key now now).2 := by
  unfold RedisSet.Del
  cases db.get key with
  | none => exact .inr rfl
  | some v =>
    dsimp only
    split
    · exact .inr rfl
    · split
      · exact .inr rfl
      · exact .inl rfl

theorem answers_delLists (db : ListDb) (key : Slice) : Answers (RedisList.Del db key now now).2 := by
  unfold RedisList.Del
  cases db.get (RedisList.metaKey key) with
  | none => exact .inr rfl
  | some v =>
    dsimp only
    split
    · exact .inr rfl
    · split
      · exact .inr rfl
      · exact .inl rfl

theorem answers_delZSets (db : ZsetDb S) (key : Slice) : Answers (RedisZset.Del scores db key now now).2 := by
  unfold RedisZset.Del
  cases db.get (RedisZset.metaKey scores key) with
  | none => exact .inr rfl
  | some v =>
    dsimp only
    split
    · exact .inr rfl
    · split
      · exact .inr rfl
      · exact .inl rfl

/-- `Del` visits the keys in each type, and counts the visits that succeed. -/
theorem del_eq (now : Int) (s : Stores S) (keys : List Slice) :
    (Del scores now s keys).1 = ⟨visit (delStrings now) s.strings keys, visit (delHashes now) s.hashes keys,
      visit (delSets now) s.sets keys, visit (delLists now) s.lists keys, visit (delZSets scores now) s.zsets keys⟩ ∧
    (Del scores now s keys).2.result = (count (delStrings now) s.strings keys + count (delHashes now) s.hashes keys +
      count (delSets now) s.sets keys + count (delLists now) s.lists keys +
      count (delZSets scores now) s.zsets keys : ℕ) := by
  suffices h : ∀ (r : Tally), r.iscorruption = false →
      (keys.foldl (delKey scores now) (s, r)).1 =
        ⟨visit (delStrings now) s.strings keys, visit (delHashes now) s.hashes keys, visit (delSets now) s.sets keys,
          visit (delLists now) s.lists keys, visit (delZSets scores now) s.zsets keys⟩ ∧
      (keys.foldl (delKey scores now) (s, r)).2.iscorruption = false ∧
      (keys.foldl (delKey scores now) (s, r)).2.count = r.count +
        (count (delStrings now) s.strings keys + count (delHashes now) s.hashes keys +
          count (delSets now) s.sets keys + count (delLists now) s.lists keys +
          count (delZSets scores now) s.zsets keys : ℕ) by
    obtain ⟨hstores, hcorruption, hcount⟩ := h Tally.init rfl
    refine ⟨hstores, ?_⟩
    rw [Tally.result, Del, hcorruption, hcount]
    simp [Tally.init]
  induction keys generalizing s with
  | nil => simp [visit, count]
  | cons key keys ih =>
    intro r hr
    obtain ⟨hcount, hcorruption⟩ := foldl_account r [(.kStrings, (RedisString.Del none s.strings key now).2),
      (.kHashes, (RedisHash.Del noErrors s.hashes key now).status), (.kSets, (RedisSet.Del s.sets key now now).2),
      (.kLists, (RedisList.Del s.lists key now now).2), (.kZSets, (RedisZset.Del scores s.zsets key now now).2)]
      (by simp [answers_delStrings, answers_delHashes, answers_delSets, answers_delLists, answers_delZSets])
    obtain ⟨hstores, hcorruption', hcount'⟩ := ih (delKey scores now (s, r) key).1 (delKey scores now (s, r) key).2
      (hcorruption.trans hr)
    refine ⟨hstores, hcorruption', hcount'.trans ?_⟩
    have hfirst : (delKey scores now (s, r) key).2.count = r.count + ((delStrings now s.strings key).2.toNat +
        (delHashes now s.hashes key).2.toNat + (delSets now s.sets key).2.toNat +
        (delLists now s.lists key).2.toNat + (delZSets scores now s.zsets key).2.toNat : ℕ) := by
      refine hcount.trans ?_
      simp only [List.map_cons, List.map_nil, List.sum_cons, List.sum_nil, delStrings, delHashes, delSets, delLists,
        delZSets]
      omega
    rw [hfirst]
    simp only [count]
    change _ + ((count (delStrings now) (delStrings now s.strings key).1 keys +
      count (delHashes now) (delHashes now s.hashes key).1 keys +
        count (delSets now) (delSets now s.sets key).1 keys +
      count (delLists now) (delLists now s.lists key).1 keys +
      count (delZSets scores now) (delZSets scores now s.zsets key).1 keys : ℕ) : Int) = _
    omega

/-! ### Deletion -/

/-- A meta value without elements is dead at any time. -/
theorem dead_initial (f : MetaFields) (time now : Int) :
    ParsedBaseMetaValue.live time (some ((ParsedBaseMetaValue.new f.encode).InitialMetaValue now).value) = false := by
  rw [MetaFields.new_encode, MetaFields.initialMetaValue_parsed, MetaFields.parsed_value,
    ParsedBaseMetaValue.live_some, MetaFields.new_encode]
  exact .inr rfl

theorem dead_initial_list (f : ListsFields) (time now : Int) :
    ParsedListsMetaValue.live time (some ((ParsedListsMetaValue.new f.encode).InitialMetaValue now).value) =
      false := by
  rw [ListsFields.new_encode, ListsFields.initialMetaValue_parsed, ListsFields.parsed_value,
    ParsedListsMetaValue.live_some, ListsFields.new_encode]
  exact .inr rfl

variable {s : Stores S}

private theorem clear_sets {key : Slice} (h : WellFormed scores s key)
    (hlive : ParsedBaseMetaValue.live now (s.sets.get key) = true) : ParsedBaseMetaValue.live now
      (some ((ParsedBaseMetaValue.new ((s.sets.get key).getD [])).InitialMetaValue now).value) = false := by
  cases hget : s.sets.get key with
  | none =>
    rw [hget] at hlive
    cases hlive
  | some v =>
    obtain ⟨f, rfl, -⟩ := h.sets v hget
    exact dead_initial f now now

private theorem clear_lists {key : Slice} (h : WellFormed scores s key)
    (hlive : ParsedListsMetaValue.live now (s.lists.get (RedisList.metaKey key)) = true) :
    ParsedListsMetaValue.live now (some ((ParsedListsMetaValue.new
      ((s.lists.get (RedisList.metaKey key)).getD [])).InitialMetaValue now).value) = false := by
  cases hget : s.lists.get (RedisList.metaKey key) with
  | none =>
    rw [hget] at hlive
    cases hlive
  | some v =>
    obtain ⟨f, rfl⟩ := h.lists v hget
    exact dead_initial_list f now now

private theorem clear_zsets {key : Slice} (h : WellFormed scores s key)
    (hlive : ParsedBaseMetaValue.live now
      ((s.zsets.get (RedisZset.metaKey scores key)).map (ZSetsValue.data scores)) = true) :
    ParsedBaseMetaValue.live now (some ((ParsedBaseMetaValue.new (((s.zsets.get (RedisZset.metaKey scores key)).map
      (ZSetsValue.data scores)).getD [])).InitialMetaValue now).value) = false := by
  cases hget : s.zsets.get (RedisZset.metaKey scores key) with
  | none =>
    rw [hget] at hlive
    cases hlive
  | some v =>
    obtain ⟨f, rfl⟩ := h.zsets v hget
    exact dead_initial f now now

/-- The keys that are live in a type. -/
def liveIn (scores : Scores S) (now : Int) (s : Stores S) (keys : List Slice) (t : DataType) : Finset Slice :=
  keys.toFinset.filter fun key => live scores s now key t = true

private theorem count_strings (scores : Scores S) (s : Stores S) :
    count (delStrings now) s.strings keys = (liveIn scores now s keys .kStrings).card := by
  refine (clears_strings now keys).count_eq_card s.strings (fun _ _ _ => rfl) fun db k => ?_
  rw [delStrings_eq]
  cases RedisString.live now (db.get k) <;> rfl

private theorem count_sets (h : ∀ key ∈ keys, WellFormed scores s key) :
    count (delSets now) s.sets keys = (liveIn scores now s keys .kSets).card := by
  refine (clears_sets now keys).count_eq_card s.sets (fun k hk => clear_sets (h k hk)) fun db k => ?_
  rw [delSets_eq]
  cases ParsedBaseMetaValue.live now (db.get k) <;> rfl

private theorem count_lists (h : ∀ key ∈ keys, WellFormed scores s key) :
    count (delLists now) s.lists keys = (liveIn scores now s keys .kLists).card := by
  refine (clears_lists now keys).count_eq_card s.lists (fun k hk => clear_lists (h k hk)) fun db k => ?_
  rw [delLists_eq]
  cases ParsedListsMetaValue.live now (db.get (RedisList.metaKey k)) <;> rfl

private theorem count_zsets (h : ∀ key ∈ keys, WellFormed scores s key) :
    count (delZSets scores now) s.zsets keys = (liveIn scores now s keys .kZSets).card := by
  refine (clears_zsets now keys).count_eq_card s.zsets (fun k hk => clear_zsets (h k hk)) fun db k => ?_
  rw [delZSets_eq]
  cases ParsedBaseMetaValue.live now ((db.get (RedisZset.metaKey scores k)).map (ZSetsValue.data scores)) <;> rfl

/-- The visits of missing hashes are counted, too. -/
private theorem count_hashes (scores : Scores S) (s : Stores S)
    (hapart : ∀ k ∈ keys, ∀ k' ∈ keys, k' ≠ k → k' ∉ Entries k) :
    count (delHashes now) s.hashes keys = (liveIn scores now s keys .kHashes).card +
      misses (delHashes now) SortedMap.get Option.isNone s.hashes keys := by
  refine (clears_hashes now hapart).count_eq Option.isNone s.hashes (fun _ _ _ => rfl) fun db k _ => ?_
  rw [delHashes_eq]
  cases hget : SortedMap.get db k with
  | none => simp [ParsedBaseMetaValue.live]
  | some v => cases hlive : ParsedBaseMetaValue.live now (some v) <;> simp

/-- `Del` counts the live pairs, and the visits that find no hash. -/
theorem result_del (now : Int) (h : ∀ key ∈ keys, WellFormed scores s key)
    (hapart : ∀ k ∈ keys, ∀ k' ∈ keys, k' ≠ k → k' ∉ Entries k) :
    (Del scores now s keys).2.result = ((types.map fun t => (liveIn scores now s keys t).card).sum +
      misses (delHashes now) SortedMap.get Option.isNone s.hashes keys : ℕ) := by
  rw [(del_eq now s keys).2, count_strings scores, count_hashes scores s hapart, count_sets h, count_lists h,
    count_zsets h]
  simp only [types, List.map_cons, List.map_nil, List.sum_cons, List.sum_nil]
  omega

theorem misses_hashes (hapart : ∀ k ∈ keys, ∀ k' ∈ keys, k' ≠ k → k' ∉ Entries k) (now : Int) (db : Db) :
    misses (delHashes now) SortedMap.get Option.isNone db keys = 0 ↔ (∀ key ∈ keys, (db.get key).isSome) ∧
      (keys.filter fun key => ParsedBaseMetaValue.live now (db.get key)).Nodup := by
  rw [(clears_hashes now hapart).misses_eq_zero_iff db fun _ => rfl]
  simp only [Option.isNone_eq_false_iff]

/-! ### Keys that are absent -/

variable {key : Slice} {time : Int} {t : DataType}

theorem absent_of_not_present (h : present scores s key t = false) : Absent doubles scores s key time t := by
  have hwithout : without scores s key t = s := by
    cases t <;> simp only [present, Option.isSome_eq_false_iff, Option.isNone_iff_eq_none] at h <;>
      simp only [without, SortedMap.delete_of_get_none h]
  intro e _ _ c _
  rw [hwithout]
  exact .refl _

/-- The time stands still, and nothing fails. -/
def Setting.still (doubles : LongDoubles L) (hpos : 0 < time) (hlt : time < 2 ^ 31) : Setting L where
  io := noErrors
  time := time
  later := time
  memory := 0
  freed := fun _ _ => 0
  beyond := fun _ _ => 0
  doubles := doubles
  time_pos := hpos
  time_le_later := le_rfl
  later_lt := hlt

theorem deadIn_of_present (hwf : WellFormed scores s key) (hpresent : present scores s key t = true)
    (hdead : live scores s time key t = false) : DeadIn scores s key time t := by
  cases t <;> obtain ⟨v, hv⟩ := Option.isSome_iff_exists.1 hpresent
  case kStrings => exact ⟨v, hv, hv ▸ hdead⟩
  case kHashes =>
    obtain ⟨f, rfl⟩ := hwf.hashes v hv
    exact ⟨f, hv, hv ▸ hdead⟩
  case kLists =>
    obtain ⟨f, rfl⟩ := hwf.lists v hv
    exact ⟨f, hv, hv ▸ hdead⟩
  case kZSets =>
    obtain ⟨f, rfl⟩ := hwf.zsets v hv
    rw [live, hv] at hdead
    exact ⟨f, hv, hdead⟩
  case kSets =>
    obtain ⟨f, rfl, -⟩ := hwf.sets v hv
    exact ⟨f, hv, hv ▸ hdead⟩

/-- A member that is not stored under the version of a dead set tells it from a missing one. -/
theorem exists_not_conceals_sAdd (e : Setting L) {db : Db} {f : MetaFields} (hget : db.get key = some f.encode)
    (hversion : f.version ≠ 0) : ∃ member, ¬ (RedisSet.Command.SAdd [member] 0).Conceals e db key := by
  obtain ⟨member, hmember⟩ := db.exists_get_eq_none (f := BaseDataKey key f.version)
    (baseDataKey_injective_data key f.version)
  refine ⟨member, ?_⟩
  simp only [RedisSet.Command.Conceals, storedMeta_eq hget, MetaFields.parsed_version]
  rintro (hzero | ⟨-, hsame⟩)
  · have hone : (FirstOf.firstOf id [member]).length = 1 := by simp [FirstOf.firstOf, FirstOf.loop]
    rw [hone] at hzero
    cases hzero
  · rcases (hsame member).2 (.inl (List.mem_singleton.2 rfl)) with ⟨hzero, -⟩ | hstored
    · exact hversion hzero
    · rw [RedisSet.Stored, hmember] at hstored
      cases hstored

theorem exists_not_conceals (e : Setting L) (hio : e.io 0 = none) (hwf : WellFormed scores s key)
    (hpresent : present scores s key t = true) :
    ∃ c : Command S, c.type = t ∧ ¬ c.Conceals e scores s key := by
  cases t with
  | kStrings => exact ⟨.strings (.Setxx [] 0 0), rfl, not_not.2 hio⟩
  | kHashes => exact ⟨.hashes .Del, rfl, not_not.2 hio⟩
  | kLists =>
    refine ⟨.lists (.LPush [[]] 0), rfl, ?_⟩
    simp only [Command.Conceals, RedisList.Command.Conceals]
    decide
  | kZSets =>
    obtain ⟨member, hmember⟩ := s.zsets.exists_get_eq_none (f := RedisZset.memberKey scores key
        (nextVersion (RedisZset.storedMeta scores s.zsets key).version e.later))
      fun _ _ heq => (RedisZset.memberKey_inj.1 heq).2
    refine ⟨.zsets (.ZIncrby member (scores.ofInt32 0) (scores.ofInt32 0)), rfl, ?_⟩
    rintro ⟨-, oldscore, hscore, -⟩
    simp [RedisZset.rankingOf, hmember] at hscore
  | kSets =>
    obtain ⟨v, hv⟩ := Option.isSome_iff_exists.1 hpresent
    obtain ⟨f, rfl, hversion⟩ := hwf.sets v hv
    obtain ⟨member, hmember⟩ := exists_not_conceals_sAdd e hv hversion
    exact ⟨.sets (.SAdd [member] 0), rfl, hmember⟩

theorem not_absent_of_dead (hwf : WellFormed scores s key) (hpos : 0 < time) (hlt : time < 2 ^ 31)
    (hpresent : present scores s key t = true) (hdead : live scores s time key t = false) :
    ¬ Absent doubles scores s key time t := by
  intro habsent
  obtain ⟨c, rfl, hnot⟩ := exists_not_conceals (Setting.still doubles hpos hlt) rfl hwf hpresent
  have halike := habsent (Setting.still doubles hpos hlt) rfl rfl c rfl
  exact hnot ((alike_iff_conceals _ scores s key c (deadIn_of_present hwf hpresent hdead)).1 halike)

theorem ok_sCard (db : Db) (key : Slice) (time : Int) :
    (RedisSet.SCard db key time).1.ok = ParsedBaseMetaValue.live time (db.get key) := by
  cases hget : SortedMap.get db key with
  | none => simp [RedisSet.SCard, hget, ParsedBaseMetaValue.live, Status.ok]
  | some v =>
    cases hstale : (ParsedBaseMetaValue.new v).IsStale time <;>
      cases hzero : (ParsedBaseMetaValue.new v).count == 0 <;>
        simp [RedisSet.SCard, hget, ParsedBaseMetaValue.live, hstale, hzero, Status.ok]

/-- A set is noticed whether it is live or not. -/
theorem not_absent_set {f : MetaFields} (hget : s.sets.get key = some f.encode) (hversion : f.version ≠ 0)
    (hpos : 0 < time) (hlt : time < 2 ^ 31) : ¬ Absent doubles scores s key time .kSets := by
  intro habsent
  have halike := habsent (Setting.still doubles hpos hlt) rfl rfl
  cases hlive : ParsedBaseMetaValue.live time (some f.encode) with
  | true =>
    have hok := Status.ok_congr (halike (.sets (.SCard 0)) rfl).1
    change (RedisSet.SCard s.sets key time).1.ok = (RedisSet.SCard (s.sets.delete key) key time).1.ok at hok
    rw [ok_sCard, ok_sCard, SortedMap.get_delete_self, hget, hlive] at hok
    cases hok
  | false =>
    obtain ⟨member, hmember⟩ := exists_not_conceals_sAdd (Setting.still doubles hpos hlt) hget hversion
    have hdead : DeadIn scores s key time .kSets := ⟨f, hget, hlive⟩
    exact hmember ((alike_iff_conceals _ scores s key (.sets (.SAdd [member] 0)) hdead).1 (halike _ rfl))

/-! ### What is left after a deletion -/

theorem live_del (h : ∀ key ∈ keys, WellFormed scores s key)
    (hapart : ∀ k ∈ keys, ∀ k' ∈ keys, k' ≠ k → k' ∉ Entries k) (hkey : key ∈ keys) (t : DataType) :
    live scores (Del scores now s keys).1 now key t = false := by
  rw [(del_eq now s keys).1]
  cases t with
  | kStrings => exact (clears_strings now keys).dead_visit hkey fun _ => rfl
  | kHashes => exact (clears_hashes now hapart).dead_visit hkey fun _ => rfl
  | kLists => exact (clears_lists now keys).dead_visit hkey (clear_lists (h key hkey))
  | kZSets => exact (clears_zsets now keys).dead_visit hkey (clear_zsets (h key hkey))
  | kSets => exact (clears_sets now keys).dead_visit hkey (clear_sets (h key hkey))

/-- Live strings and hashes are gone, and the other meta values are still there. -/
theorem present_del (h : ∀ key ∈ keys, WellFormed scores s key)
    (hapart : ∀ k ∈ keys, ∀ k' ∈ keys, k' ≠ k → k' ∉ Entries k) (hkey : key ∈ keys) (t : DataType) :
    present scores (Del scores now s keys).1 key t = true ↔
      present scores s key t = true ∧ ¬ ((t = .kStrings ∨ t = .kHashes) ∧ live scores s now key t = true) := by
  rw [(del_eq now s keys).1]
  cases t with
  | kStrings =>
    simp only [present, live, (clears_strings now keys).look_visit hkey fun _ => rfl]
    split <;> simp_all
  | kHashes =>
    simp only [present, live, (clears_hashes now hapart).look_visit hkey fun _ => rfl]
    split <;> simp_all
  | kLists =>
    simp only [present, (clears_lists now keys).look_visit hkey (clear_lists (h key hkey))]
    split
    · rename_i hlive
      cases hget : s.lists.get (RedisList.metaKey key) <;> simp_all [ParsedListsMetaValue.live]
    · simp
  | kZSets =>
    simp only [present, (clears_zsets now keys).look_visit hkey (clear_zsets (h key hkey))]
    split
    · rename_i hlive
      cases hget : s.zsets.get (RedisZset.metaKey scores key) <;> simp_all [ParsedBaseMetaValue.live]
    · simp
  | kSets =>
    simp only [present, (clears_sets now keys).look_visit hkey (clear_sets (h key hkey))]
    split
    · rename_i hlive
      cases hget : s.sets.get key <;> simp_all [ParsedBaseMetaValue.live]
    · simp

theorem wellFormed_del (h : ∀ key ∈ keys, WellFormed scores s key)
    (hapart : ∀ k ∈ keys, ∀ k' ∈ keys, k' ≠ k → k' ∉ Entries k) (hpos : 0 < now) (hlt : now < 2 ^ 31)
    (hkey : key ∈ keys) : WellFormed scores (Del scores now s keys).1 key := by
  rw [(del_eq now s keys).1]
  constructor
  · intro v hv
    rw [(clears_hashes now hapart).look_visit hkey fun _ => rfl] at hv
    split at hv
    · cases hv
    · exact (h key hkey).hashes v hv
  · intro v hv
    rw [(clears_sets now keys).look_visit hkey (clear_sets (h key hkey))] at hv
    split at hv
    · rename_i hlive
      cases hget : s.sets.get key with
      | none => simp [hget, ParsedBaseMetaValue.live] at hlive
      | some w =>
        obtain ⟨f, rfl, -⟩ := (h key hkey).sets w hget
        rw [hget, Option.getD_some, MetaFields.new_encode, MetaFields.initialMetaValue_parsed,
          MetaFields.parsed_value,
          Option.some.injEq] at hv
        exact ⟨_, hv.symm, nextVersion_ne_zero f.version hpos hlt⟩
    · exact (h key hkey).sets v hv
  · intro v hv
    rw [(clears_lists now keys).look_visit hkey (clear_lists (h key hkey))] at hv
    split at hv
    · rename_i hlive
      cases hget : s.lists.get (RedisList.metaKey key) with
      | none => simp [hget, ParsedListsMetaValue.live] at hlive
      | some w =>
        obtain ⟨f, rfl⟩ := (h key hkey).lists w hget
        rw [hget, Option.getD_some, ListsFields.new_encode, ListsFields.initialMetaValue_parsed,
          ListsFields.parsed_value, Option.some.injEq] at hv
        exact ⟨_, hv.symm⟩
    · exact (h key hkey).lists v hv
  · intro v hv
    rw [(clears_zsets now keys).look_visit hkey (clear_zsets (h key hkey))] at hv
    split at hv
    · rename_i hlive
      cases hget : s.zsets.get (RedisZset.metaKey scores key) with
      | none => simp [hget, ParsedBaseMetaValue.live] at hlive
      | some w =>
        obtain ⟨f, rfl⟩ := (h key hkey).zsets w hget
        rw [hget, Option.map_some, Option.getD_some, ZSetsValue.data, MetaFields.new_encode,
          MetaFields.initialMetaValue_parsed, MetaFields.parsed_value, Option.some.injEq] at hv
        exact ⟨_, hv.symm⟩
    · exact (h key hkey).zsets v hv

/-- `Del` deletes and counts rightly when no key is repeated and each has a live hash, and nothing else but a live
string. -/
theorem delOk_iff (h : ∀ key ∈ keys, WellFormed scores s key)
    (hapart : ∀ k ∈ keys, ∀ k' ∈ keys, k' ≠ k → k' ∉ Entries k) (hpos : 0 < now) (hlt : now < 2 ^ 31) :
    DelOk doubles scores now s keys ↔ keys.Nodup ∧ ∀ key ∈ keys, Deletable scores now s key := by
  have hresult := result_del now h hapart
  constructor
  · intro hok
    have hzero : misses (delHashes now) SortedMap.get Option.isNone s.hashes keys = 0 := by
      have hcount := hok.count
      rw [hresult] at hcount
      exact Nat.add_eq_left.1 (by exact_mod_cast hcount)
    obtain ⟨hsome, hnodup⟩ := (misses_hashes hapart now s.hashes).1 hzero
    have hothers : ∀ key ∈ keys, ∀ t, present scores s key t = true →
        (t = .kStrings ∨ t = .kHashes) ∧ live scores s now key t = true := by
      intro key hkey t hpresent
      by_contra hnot
      have hleft : present scores (Del scores now s keys).1 key t = true :=
        (present_del h hapart hkey t).2 ⟨hpresent, hnot⟩
      exact not_absent_of_dead (wellFormed_del h hapart hpos hlt hkey) hpos hlt hleft (live_del h hapart hkey t)
        (hok.absent key hkey t now le_rfl)
    have hhash : ∀ key ∈ keys, live scores s now key .kHashes = true :=
      fun key hkey => (hothers key hkey .kHashes (hsome key hkey)).2
    have hall : (keys.filter fun key => ParsedBaseMetaValue.live now (s.hashes.get key)) = keys :=
      List.filter_eq_self.2 hhash
    rw [hall] at hnodup
    exact ⟨hnodup, fun key hkey => ⟨hhash key hkey, hothers key hkey⟩⟩
  · rintro ⟨hnodup, hdeletable⟩
    have hsome : ∀ key ∈ keys, (s.hashes.get key).isSome = true := by
      intro key hkey
      have hlive : ParsedBaseMetaValue.live now (s.hashes.get key) = true := (hdeletable key hkey).hash
      cases hget : s.hashes.get key with
      | none => simp [hget, ParsedBaseMetaValue.live] at hlive
      | some v => rfl
    have hzero := (misses_hashes hapart now s.hashes).2 ⟨hsome, hnodup.filter _⟩
    refine ⟨?_, fun key hkey t time _ => absent_of_not_present ?_⟩
    · rw [hresult, hzero]
      rfl
    · rw [Bool.eq_false_iff]
      intro hleft
      obtain ⟨hpresent, hnot⟩ := (present_del h hapart hkey t).1 hleft
      exact hnot ((hdeletable key hkey).others t hpresent)

/-! ### Expiry -/

theorem expireStrings_eq (now : Int) (db : Db) (key : Slice) (ttl : Int32) :
    RedisString.Expire none db key now now ttl =
      if RedisString.live now (db.get key) then
        (if 0 < ttl then db.put key
          ((ParsedStringsMetaValue.new ((db.get key).getD [])).SetRelativeTimestamp ttl now).value
          else db.delete key, .OK)
      else (db, .NotFound (if (db.get key).isSome then "Stale" else "")) := by
  cases hget : SortedMap.get db key with
  | none => simp [RedisString.Expire, Get, hget, RedisString.live]
  | some v =>
    cases hstale : (ParsedStringsMetaValue.new v).IsStale now with
    | true => simp [RedisString.Expire, Get, hget, RedisString.live, hstale]
    | false =>
      by_cases httl : 0 < ttl
      · simp [RedisString.Expire, Get, hget, RedisString.live, hstale, httl]
      · simp [RedisString.Expire, Get, hget, RedisString.live, hstale, httl]

theorem ok_expireZSets (scores : Scores S) (now : Int) (db : ZsetDb S) (key : Slice) (ttl : Int32) :
    (RedisZset.Expire scores db key now now ttl).2.ok =
        ParsedBaseMetaValue.live now ((db.get (RedisZset.metaKey scores key)).map (ZSetsValue.data scores)) ∧
      Answers (RedisZset.Expire scores db key now now ttl).2 := by
  cases hget : SortedMap.get db (RedisZset.metaKey scores key) with
  | none => simp [RedisZset.Expire, hget, ParsedBaseMetaValue.live, Status.ok, Answers, Status.IsNotFound]
  | some v =>
    cases hstale : (RedisZset.parsedMeta scores v).IsStale now with
    | true =>
      have hstale' : (ParsedBaseMetaValue.new (v.data scores)).IsStale now = true := hstale
      simp [RedisZset.Expire, hget, ParsedBaseMetaValue.live, hstale, hstale', Status.ok, Answers, Status.IsNotFound]
    | false =>
      have hstale' : (ParsedBaseMetaValue.new (v.data scores)).IsStale now = false := hstale
      cases hzero : (RedisZset.parsedMeta scores v).count == 0 with
      | true =>
        have hzero' : ((ParsedBaseMetaValue.new (v.data scores)).count == 0) = true := hzero
        simp [RedisZset.Expire, hget, ParsedBaseMetaValue.live, hstale, hstale', hzero, hzero', Status.ok, Answers,
          Status.IsNotFound]
      | false =>
        have hzero' : ((ParsedBaseMetaValue.new (v.data scores)).count == 0) = false := hzero
        simp [RedisZset.Expire, hget, ParsedBaseMetaValue.live, hstale, hstale', hzero, hzero', Status.ok, Answers]

theorem result_expire (now : Int) (s : Stores S) (key : Slice) (ttl : Int32) :
    (Expire scores now s key ttl).2.result =
      ((live scores s now key .kStrings).toNat + 3 + (live scores s now key .kZSets).toNat : ℕ) := by
  have hstrings : (RedisString.Expire none s.strings key now now ttl).2.ok = live scores s now key .kStrings ∧
      Answers (RedisString.Expire none s.strings key now now ttl).2 := by
    rw [expireStrings_eq]
    cases hlive : RedisString.live now (s.strings.get key) with
    | true => exact ⟨hlive.symm, .inl rfl⟩
    | false => exact ⟨hlive.symm, .inr rfl⟩
  obtain ⟨hzsets, hzsets'⟩ := ok_expireZSets scores now s.zsets key ttl
  obtain ⟨hcount, hcorruption⟩ := foldl_account Tally.init
    [(.kStrings, (RedisString.Expire none s.strings key now now ttl).2), (.kHashes, .OK),
      (.kSets, .OK), (.kLists, .OK),
      (.kZSets, (RedisZset.Expire scores s.zsets key now now ttl).2)] (by
        simp only [List.mem_cons, List.not_mem_nil, or_false, forall_eq_or_imp, forall_eq]
        exact ⟨hstrings.2, .inl rfl, .inl rfl, .inl rfl, hzsets'⟩)
  simp only [List.map_cons, List.map_nil, List.sum_cons, List.sum_nil, hstrings.1, hzsets] at hcount
  have htally : (Expire scores now s key ttl).2 = List.foldl (fun r p => r.account p.1 p.2) Tally.init
    [(.kStrings, (RedisString.Expire none s.strings key now now ttl).2), (.kHashes, .OK),
      (.kSets, .OK), (.kLists, .OK),
      (.kZSets, (RedisZset.Expire scores s.zsets key now now ttl).2)] := rfl
  rw [Tally.result, htally, hcorruption, hcount]
  simp only [Tally.init, Bool.false_eq_true, if_false, Status.ok_OK, Bool.toNat_true, live]
  omega

theorem countP_types (p : DataType → Bool) : types.countP p = (p .kStrings).toNat + (p .kHashes).toNat +
    (p .kLists).toNat + (p .kZSets).toNat + (p .kSets).toNat := by
  simp only [types, List.countP_cons, List.countP_nil, Bool.toNat, Bool.cond_eq_ite]
  omega

/-- The count of `Expire` is right when the key is live in the types without an `Expire`. -/
theorem result_expire_eq_iff (now : Int) (s : Stores S) (key : Slice) (ttl : Int32) :
    (Expire scores now s key ttl).2.result = (types.countP (live scores s now key) : ℕ) ↔
      live scores s now key .kHashes = true ∧ live scores s now key .kLists = true ∧
        live scores s now key .kSets = true := by
  rw [result_expire, countP_types, Int.natCast_inj]
  generalize live scores s now key .kStrings = strings
  generalize live scores s now key .kZSets = zsets
  cases live scores s now key .kHashes <;> cases live scores s now key .kLists <;>
    cases live scores s now key .kSets <;> simp <;> omega

/-- `Expire` never does what it should, when the clock reaches the end of the time: it counts the set, and leaves it
there. -/
theorem not_expireOk (hwf : WellFormed scores s key) {ttl : Int32} (hpos : 0 < now) (hlt : now < 2 ^ 31)
    (hend : 0 < ttl → now + ttl.toInt + 1 < 2 ^ 31) : ¬ ExpireOk doubles scores now s key ttl := by
  intro hok
  have hlive := ((result_expire_eq_iff now s key ttl).1 hok.count).2.2
  obtain ⟨time, hle, hafter, htime⟩ : ∃ time, now ≤ time ∧ (0 < ttl → now + ttl.toInt < time) ∧ time < 2 ^ 31 := by
    by_cases httl : 0 < ttl
    · have httl' : 0 < ttl.toInt := Int32.lt_iff_toInt_lt.1 httl
      exact ⟨now + ttl.toInt + 1, by omega, fun _ => by omega, hend httl⟩
    · exact ⟨now, le_rfl, fun h => absurd h httl, hlt⟩
  cases hget : s.sets.get key with
  | none =>
    rw [live, hget] at hlive
    cases hlive
  | some v =>
    obtain ⟨f, rfl, hversion⟩ := hwf.sets v hget
    exact not_absent_set (s := (Expire scores now s key ttl).1) hget hversion (hpos.trans_le hle) htime
      (hok.absent .kSets hlive time hle hafter)

/-! ### Both calls -/

/-- `Del` does what it should under exactly this condition, and `Expire` never. -/
theorem del_expire_ok_iff (doubles : LongDoubles L) (scores : Scores S) (now : Int) (hpos : 0 < now)
    (hlt : now < 2 ^ 31) (s : Stores S) (keys : List Slice) (hwf : ∀ key ∈ keys, WellFormed scores s key)
    (hapart : ∀ k ∈ keys, ∀ k' ∈ keys, k' ≠ k → k' ∉ Entries k) :
    (DelOk doubles scores now s keys ↔ keys.Nodup ∧ ∀ key ∈ keys, Deletable scores now s key) ∧
    ∀ key ∈ keys, ∀ ttl : Int32, (0 < ttl → now + ttl.toInt + 1 < 2 ^ 31) →
      ¬ ExpireOk doubles scores now s key ttl :=
  ⟨delOk_iff hwf hapart hpos hlt, fun key hkey _ hend => not_expireOk (hwf key hkey) hpos hlt hend⟩

/-- A string, and a hash that has one field. -/
def exampleStores : Stores (WithBot ℤ) where
  strings := SortedMap.empty.put [1] (StringsMetaValue.new [7]).Encode
  hashes := storeElement .empty [1] 5 [3]
  sets := .empty
  lists := .empty
  zsets := .empty

theorem wellFormed_example : WellFormed RedisZset.integerScores exampleStores [1] where
  hashes v hv := ⟨⟨1, 5, 0⟩, (Option.some.inj hv).symm⟩
  sets v hv := by cases hv
  lists v hv := by cases hv
  zsets v hv := by cases hv

/-- Any arithmetic of `long double` will do. -/
def exampleDoubles : LongDoubles ℤ := ⟨(· + ·), fun _ => false, fun _ => false, fun _ => (0, 0), fun _ => []⟩

theorem deletable_example : Deletable RedisZset.integerScores 10 exampleStores [1] where
  hash := by decide +kernel
  others t := by cases t <;> decide +kernel

theorem del_expire_ok_example : DelOk exampleDoubles RedisZset.integerScores 10 exampleStores [[1]] ∧
    ¬ ExpireOk exampleDoubles RedisZset.integerScores 10 exampleStores [1] 100 := by
  have hiff := del_expire_ok_iff exampleDoubles RedisZset.integerScores 10 (by decide) (by decide) exampleStores [[1]]
    (fun key hkey => (List.mem_singleton.1 hkey).symm ▸ wellFormed_example)
    (fun k hk k' hk' hne => absurd ((List.mem_singleton.1 hk').trans (List.mem_singleton.1 hk).symm) hne)
  refine ⟨hiff.1.2 ⟨List.nodup_singleton _, fun key hkey => ?_⟩, hiff.2 [1] (List.mem_singleton.2 rfl) 100 ?_⟩
  · exact (List.mem_singleton.1 hkey).symm ▸ deletable_example
  · decide

/-- A missing key is counted by both calls. -/
theorem not_del_expire_ok :
    ¬ DelOk exampleDoubles RedisZset.integerScores 10 (⟨.empty, .empty, .empty, .empty, .empty⟩ : Stores (WithBot ℤ))
        [[1]] ∧
    ¬ ExpireOk exampleDoubles RedisZset.integerScores 10
        (⟨.empty, .empty, .empty, .empty, .empty⟩ : Stores (WithBot ℤ)) [1] 100 := by
  constructor
  · intro h
    have := h.count
    revert this
    decide +kernel
  · intro h
    have := h.count
    revert this
    decide +kernel

end RedisDB

end RedisDb
