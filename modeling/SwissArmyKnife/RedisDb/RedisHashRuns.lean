import SwissArmyKnife.RedisDb.RedisHash

/-!
# Runs on a hash

In a run of calls on one key, a call whose reads meet no error replies what the map replies and leaves the count of
the meta value equal to the number of data entries, and a call that meets an error returns it and writes nothing: as
long as the error is not the one of the first read of an `HMSet` or a `Del`, which go on with an empty batch.
-/

namespace RedisDb

open FirstOf (firstOf nodup_firstOf nodup_firstOf_id find?_firstOf)
open Replies (Meets)

namespace RedisHash

/-- The count of the meta value is the number of data entries of its version. -/
def CountOk (key : Slice) (db : Db) : Prop :=
  ∀ metavalue, db.get key = some metavalue →
    let p := ParsedBaseMetaValue.new metavalue
    p.count.toInt = (scanPrefix db (BaseDataKey key p.version [])).length

/-- An action in a store that stands for a map gives what it gives in the map, and a failed one changes nothing. -/
structure ActionOk (key : Slice) (s : State) (m : SortedMap Slice Slice) (a : Action) : Prop where
  error : ∀ e, (outcome key s a).failed = some e → (outcome key s a).status = e.status ∧ (outcome key s a).db = s.db
  reply : (outcome key s a).failed = none → (outcome key s a).reply = (mapCall m a.call).2
  count : CountOk key (outcome key s a).db

/-- The store and the map together; the map stays as it is when a read fails. -/
def stepBoth (key : Slice) (sm : State × SortedMap Slice Slice) (a : Action) :
    (State × SortedMap Slice Slice) × Outcome :=
  let r := step key sm.1 a
  ((r.1, if r.2.failed.isSome then sm.2 else (mapCall sm.2 a.call).1), r.2)

/-! ### The condition -/

/-- The number of fields that are not stored under the version. -/
def newFields (db : Db) (key : Slice) (version : Int32) (fields : List Slice) : Nat :=
  ((firstOf id fields).filter fun field => (db.get (BaseDataKey key version field)).isNone).length

/-- The fields may be added: the count stays in the range of its type, and the memory of the temporary, where one is
used, still holds the count. -/
def MayAdd (db : Db) (key : Slice) (memory : UInt32) (fields : List Slice) : Option Slice → Prop
  | some metavalue =>
    let p := ParsedBaseMetaValue.new metavalue
    p.count.toInt + newFields db key p.version fields < 2 ^ 31
  | none => (firstOf id fields).length < 2 ^ 31 ∧ memory = UInt32.ofNat (firstOf id fields).length

/-- The version is not taken for a missing one, and the key that is parsed has a length in the range of its type. -/
def MayScan (key : Slice) : Option Slice → Prop
  | some metavalue =>
    let p := ParsedBaseMetaValue.new metavalue
    p.count ≠ 0 → p.version ≠ 0 ∧ key.length < 2 ^ 31
  | none => True

/-- The first read of an `HMSet` or a `Del` does not fail. -/
def FirstReadOk (key : Slice) (s : State) (a : Action) : Prop :=
  match a.call with
  | .HSet field _ => a.io 0 = none → MayAdd s.db key a.memory [field] (s.db.get key)
  | .HMSet fvs => a.io 0 = none ∧ MayAdd s.db key a.memory (fvs.map FieldValue.field) (s.db.get key)
  | .Del => a.io 0 = none
  | .HGetall => a.io 0 = none → MayScan key (s.db.get key)
  | _ => True

instance (db : Db) (key : Slice) (memory : UInt32) (fields : List Slice) :
    ∀ o, Decidable (MayAdd db key memory fields o)
  | some _ => inferInstanceAs (Decidable (_ < _))
  | none => inferInstanceAs (Decidable (_ ∧ _))

instance (key : Slice) : ∀ o, Decidable (MayScan key o)
  | some metavalue =>
    inferInstanceAs (Decidable ((ParsedBaseMetaValue.new metavalue).count ≠ 0 →
      (ParsedBaseMetaValue.new metavalue).version ≠ 0 ∧ key.length < 2 ^ 31))
  | none => isTrue trivial

instance (key : Slice) (s : State) : ∀ a, Decidable (FirstReadOk key s a)
  | ⟨.HSet field _, _, _, io, memory⟩ =>
    inferInstanceAs (Decidable (io 0 = none → MayAdd s.db key memory [field] (s.db.get key)))
  | ⟨.HMSet fvs, _, _, io, memory⟩ =>
    inferInstanceAs (Decidable (io 0 = none ∧ MayAdd s.db key memory (fvs.map FieldValue.field) (s.db.get key)))
  | ⟨.Del, _, _, io, _⟩ => inferInstanceAs (Decidable (io 0 = none))
  | ⟨.HGetall, _, _, io, _⟩ => inferInstanceAs (Decidable (io 0 = none → MayScan key (s.db.get key)))
  | ⟨.HDel _, _, _, _, _⟩ => isTrue trivial
  | ⟨.HGet _, _, _, _, _⟩ => isTrue trivial
  | ⟨.HMGet _, _, _, _, _⟩ => isTrue trivial
  | ⟨.HExists _, _, _, _, _⟩ => isTrue trivial

/-! ### Representation -/

/-- The data entries are those of the map, all under one version. -/
def DataOf (key : Slice) (db : Db) (version : Int32) (m : SortedMap Slice Slice) : Prop :=
  ∀ version' field, db.get (BaseDataKey key version' field) = if version' = version then m.get field else none

def NoData (key : Slice) (db : Db) : Prop := ∀ version field, db.get (BaseDataKey key version field) = none

structure Represents (key : Slice) (db : Db) (m : SortedMap Slice Slice) : Prop where
  stored : (db.get key = none ∧ m = .empty ∧ NoData key db) ∨
    ∃ f : MetaFields, db.get key = some f.encode ∧ f.timestamp = 0 ∧ f.count.toInt = m.entries.length ∧
      DataOf key db f.version m

variable {key : Slice} {db : Db} {m : SortedMap Slice Slice} {version : Int32}

theorem DataOf.get (h : DataOf key db version m) (field : Slice) :
    db.get (BaseDataKey key version field) = m.get field := by
  rw [h, if_pos rfl]

theorem DataOf.scan (h : DataOf key db version m) :
    scanPrefix db (BaseDataKey key version []) = m.entries.map fun e => (BaseDataKey key version e.1, e.2) :=
  scanPrefix_eq (g := id) (by simp [h.get])

theorem NoData.dataOf (h : NoData key db) (version : Int32) : DataOf key db version .empty := by
  intro version' field
  simp [h version' field]

theorem DataOf.put_key (h : DataOf key db version m) (value : Slice) : DataOf key (db.put key value) version m := by
  intro version' field
  rw [get_data_put_key]
  exact h version' field

theorem DataOf.puts (h : DataOf key db version m) (fvs : List FieldValue) :
    DataOf key (db.write (fvs.map fun fv => .Put (BaseDataKey key version fv.field) fv.value)) version
      (m.write (fvs.map fun fv => .Put fv.field fv.value)) := by
  intro version' field
  by_cases hversion : version' = version
  · have hget : ∀ field, db.get (BaseDataKey key version field) = (m.get field).map id := by simp [h.get]
    have hputs := get_data_puts (f := FieldValue.field) (g := FieldValue.value) (l := fvs) hget field
    rw [if_pos hversion, hversion]
    simpa using hputs
  · rw [if_neg hversion, SortedMap.get_puts_of_forall_ne, h, if_neg hversion]
    exact fun fv _ hkey => hversion (baseDataKey_injective hkey).1.symm

theorem DataOf.deletes (h : DataOf key db version m) (fields : List Slice) :
    DataOf key (db.write (fields.map fun field => .Delete (BaseDataKey key version field))) version
      (m.write (fields.map .Delete)) := by
  intro version' field
  rw [SortedMap.get_deletes, SortedMap.get_deletes (f := fun field => field), h]
  by_cases hversion : version' = version
  · subst hversion
    have hiff : (∃ x ∈ fields, BaseDataKey key version' x = BaseDataKey key version' field) ↔
        ∃ x ∈ fields, x = field := by
      constructor
      · exact fun ⟨x, hx, hkey⟩ => ⟨x, hx, baseDataKey_injective_data key version' hkey⟩
      · exact fun ⟨x, hx, hkey⟩ => ⟨x, hx, by rw [hkey]⟩
    rw [if_pos rfl, if_pos rfl]
    by_cases hex : ∃ x ∈ fields, x = field
    · rw [if_pos (hiff.2 hex), if_pos hex]
    · rw [if_neg (mt hiff.1 hex), if_neg hex]
  · have hnot : ¬ ∃ x ∈ fields, BaseDataKey key version x = BaseDataKey key version' field :=
      fun ⟨x, _, hkey⟩ => hversion (baseDataKey_injective hkey).1.symm
    rw [if_neg hnot, if_neg hversion, if_neg hversion]

theorem Represents.countOk (h : Represents key db m) : CountOk key db := by
  intro metavalue hget
  rcases h.stored with ⟨hnone, -⟩ | ⟨f, hsome, -, hcount, hdata⟩
  · simp [hnone] at hget
  · rw [hsome, Option.some_inj] at hget
    subst hget
    simp only [MetaFields.new_encode, MetaFields.parsed_count, MetaFields.parsed_version, hdata.scan, List.length_map,
      hcount]

private theorem represents_of_stored (f : MetaFields) (hget : db.get key = some f.encode)
    (htimestamp : f.timestamp = 0)
    (hcount : f.count.toInt = m.entries.length) (hdata : DataOf key db f.version m) : Represents key db m :=
  ⟨Or.inr ⟨f, hget, htimestamp, hcount, hdata⟩⟩

/-- There is no meta value, or it has the count 0, or it is the meta value of a map with fields. -/
private inductive Cases (key : Slice) (db : Db) (m : SortedMap Slice Slice) : Prop where
  | missing (hget : db.get key = none) (hm : m = .empty) (hnone : NoData key db)
  | empty (f : MetaFields) (hget : db.get key = some f.encode) (htimestamp : f.timestamp = 0) (hcount : f.count = 0)
      (hm : m = .empty) (hnone : NoData key db)
  | live (f : MetaFields) (hget : db.get key = some f.encode) (htimestamp : f.timestamp = 0) (hzero : f.count ≠ 0)
      (hcount : f.count.toInt = m.entries.length) (hdata : DataOf key db f.version m)

private theorem Represents.cases (h : Represents key db m) : Cases key db m := by
  rcases h.stored with ⟨hget, hm, hnone⟩ | ⟨f, hget, htimestamp, hcount, hdata⟩
  · exact Cases.missing hget hm hnone
  · by_cases hzero : f.count = 0
    · have hlength : m.entries.length = 0 := by simpa [hzero] using hcount.symm
      have hm : m = .empty := SortedMap.ext_entries (List.eq_nil_of_length_eq_zero hlength)
      refine Cases.empty f hget htimestamp hzero hm ?_
      intro version field
      simp [hdata version field, hm]
    · exact Cases.live f hget htimestamp hzero hcount hdata

/-- A meta value without expiry time is never stale. -/
private theorem not_stale {f : MetaFields} (h : f.timestamp = 0) (time : Int) : f.parsed.IsStale time = false := by
  simp [ParsedBaseMetaValue.IsStale, h]

/-- A call fails with an error that it returns, or gives a status and a value like this and leaves a store that stands
for this map. -/
private def Gives {α : Type} (key : Slice) (db : Db) (r : Result α) (good : Status → Option α → Prop)
    (m : SortedMap Slice Slice) : Prop :=
  (∃ e, r = Result.fail db e) ∨ r.failed = none ∧ good r.status r.value ∧ Represents key r.db m

/-! ### Updates -/

private theorem stored_puts (h : DataOf key db version m) (fvs : List FieldValue) {f : MetaFields}
    (hversion : f.version = version) (htimestamp : f.timestamp = 0)
    (hcount : f.count.toInt = (m.write (fvs.map fun fv => .Put fv.field fv.value)).entries.length) :
    Represents key
      ((db.put key f.encode).write (fvs.map fun fv => .Put (BaseDataKey key version fv.field) fv.value))
      (m.write (fvs.map fun fv => .Put fv.field fv.value)) := by
  subst hversion
  refine represents_of_stored f ?_ htimestamp hcount ((h.put_key _).puts fvs)
  rw [get_key_puts, SortedMap.get_put_self]

private theorem newMetaValue_encode (n : Nat) (later : Int) : (newMetaValue (UInt32.ofNat n) later).Encode =
    (⟨Int32.ofNat n, nextVersion 0 later, 0⟩ : MetaFields).encode := by
  rw [← MetaFields.encode_new, newMetaValue]
  simp

private theorem newMetaValue_version (memory : UInt32) (later : Int) :
    (newMetaValue memory later).version = nextVersion 0 later := rfl

private theorem toInt_ofNat {n : Nat} (h : n < 2 ^ 31) : (Int32.ofNat n).toInt = n := Int32.toInt_ofNat_of_lt h

private theorem toInt_add_ofNat {c : Int32} {n : Nat} (hc : 0 ≤ c.toInt) (h : c.toInt + n < 2 ^ 31) :
    (c + Int32.ofNat n).toInt = c.toInt + n := by
  rw [Int32.toInt_add, toInt_ofNat (by omega), Int.bmod_eq_of_le (by omega) (by omega)]

private theorem newFields_eq (h : DataOf key db version m) (fields : List Slice) :
    newFields db key version fields = ((firstOf id fields).filter fun field => (m.get field).isNone).length := by
  simp only [newFields, h.get]

private theorem get_key_put_data (db : Db) (key : Slice) (version : Int32) (field value : Slice) :
    (db.put (BaseDataKey key version field) value).get key = db.get key := by
  rw [SortedMap.get_put, if_neg (baseDataKey_ne key version field).symm]

private theorem hSet_gives (h : Represents key db m) (io : Nat → Option Failure) {memory : UInt32} {time later : Int}
    {field value : Slice} (hcond : io 0 = none → MayAdd db key memory [field] (db.get key)) :
    Gives key db (HSet io memory db key time later field value)
      (fun s v => s = .OK ∧ v = some (if (m.get field).isSome then 0 else 1)) (m.put field value) := by
  unfold HSet
  cases hio : io 0 with
  | some e => exact Or.inl ⟨e, rfl⟩
  | none =>
    have hadd := hcond hio
    cases h.cases with
    | missing hget hm hnone =>
      subst hm
      rw [hget] at hadd
      have hmemory : memory = UInt32.ofNat 1 := by simpa [FirstOf.firstOf, FirstOf.loop] using hadd.2
      simp only [Get, hget, hmemory, newMetaValue_encode, newMetaValue_version]
      refine Or.inr ⟨rfl, ⟨rfl, rfl⟩, ?_⟩
      exact stored_puts (hnone.dataOf _) [⟨field, value⟩] (f := ⟨1, nextVersion 0 later, 0⟩) rfl rfl rfl
    | empty f hget htimestamp hcount hm hnone =>
      subst hm
      simp only [Get, hget, MetaFields.new_encode, not_stale htimestamp, MetaFields.parsed_count, hcount]
      refine Or.inr ⟨rfl, ⟨rfl, rfl⟩, ?_⟩
      exact stored_puts (hnone.dataOf _) [⟨field, value⟩] (f := ⟨1, nextVersion f.version later, 0⟩) rfl rfl rfl
    | live f hget htimestamp hzero hcount hdata =>
      have hcountne : (f.count == 0) = false := by simpa using hzero
      have hbound : f.count.toInt + newFields db key f.version [field] < 2 ^ 31 := by
        simpa [hget, MayAdd, MetaFields.new_encode] using hadd
      rw [newFields_eq hdata] at hbound
      simp only [Get, hget, MetaFields.new_encode, not_stale htimestamp, MetaFields.parsed_count, hcountne,
        MetaFields.parsed_version, Bool.or_self, Bool.false_eq_true, if_false, hdata.get]
      cases hio1 : io 1 with
      | some e => exact Or.inl ⟨e, rfl⟩
      | none =>
        cases hfield : m.get field with
        | some v =>
          by_cases hv : v = value
          · have hput : m.put field value = m := by
              apply SortedMap.ext_get
              intro k
              rw [SortedMap.get_put]
              split
              · rename_i hk
                rw [hk, hfield, hv]
              · rfl
            simp only [hv, beq_self_eq_true, if_true, hput]
            exact Or.inr ⟨rfl, ⟨rfl, rfl⟩, h⟩
          · simp only [beq_iff_eq, hv, if_false]
            refine Or.inr ⟨rfl, ⟨rfl, rfl⟩, represents_of_stored f ?_ htimestamp ?_ (hdata.puts [⟨field, value⟩])⟩
            · exact (get_key_put_data ..).trans hget
            · rw [hcount, ← SortedMap.length_put_of_some value hfield]
        | none =>
          refine Or.inr ⟨rfl, ⟨rfl, rfl⟩, ?_⟩
          refine stored_puts hdata [⟨field, value⟩] (f := { f with count := f.count + 1 }) rfl htimestamp ?_
          have hnew : ((firstOf id [field]).filter fun field => (m.get field).isNone).length = 1 := by
            simp [FirstOf.firstOf, FirstOf.loop, hfield]
          rw [hnew] at hbound
          have hadd := toInt_add_ofNat (c := f.count) (n := 1) (by omega) hbound
          have hlength := SortedMap.length_put_of_none value hfield
          exact hadd.trans (by rw [hcount]; exact congrArg Nat.cast hlength.symm)

/-- Reads that do not fail find what is stored. -/
private theorem readAll_ok {io : Nat → Option Failure} {i : Nat} {keys : List Slice} {values : List (Option Slice)}
    (h : readAll io db i keys = .ok values) : values = keys.map db.get := by
  induction keys generalizing i values with
  | nil =>
    cases h
    rfl
  | cons k keys ih =>
    rw [readAll] at h
    cases hio : io i with
    | some e => simp [Get, hio] at h
    | none =>
      cases hrest : readAll io db (i + 1) keys with
      | error e => cases hk : db.get k <;> simp [Get, hio, hk, hrest] at h
      | ok rest =>
        have := ih hrest
        subst this
        cases hk : db.get k with
        | none =>
          simp only [Get, hio, hk, hrest, Except.ok.injEq] at h
          rw [← h, List.map_cons, hk]
        | some v =>
          simp only [Get, hio, hk, hrest, Except.ok.injEq] at h
          rw [← h, List.map_cons, hk]

private theorem nodup_lastOf (fvs : List FieldValue) : ((lastOf fvs).map FieldValue.field).Nodup :=
  nodup_firstOf fvs.reverse

/-- Putting the last pair of each field is putting all pairs in order. -/
private theorem write_lastOf (m : SortedMap Slice Slice) (fvs : List FieldValue) :
    m.write ((lastOf fvs).map fun fv => .Put fv.field fv.value) =
      m.write (fvs.map fun fv => .Put fv.field fv.value) := by
  apply SortedMap.ext_get
  intro k
  rw [SortedMap.get_puts m fvs (p := fun fv => decide (fv.field = k)) (by simp),
    ← find?_firstOf FieldValue.field fvs.reverse k]
  cases hfind : (firstOf FieldValue.field fvs.reverse).find? fun fv => decide (fv.field = k) with
  | some fv =>
    have hkey : fv.field = k := by simpa using List.find?_some hfind
    have hmem : fv ∈ lastOf fvs := List.mem_of_find?_eq_some hfind
    subst hkey
    exact SortedMap.get_puts_of_mem (nodup_lastOf fvs) hmem
  | none =>
    rw [SortedMap.get_puts_of_forall_ne]
    · rfl
    · intro fv hfv
      simpa using List.find?_eq_none.1 hfind fv hfv

/-- The fields that are kept are the fields that are given, each once. -/
private theorem length_lastOf_filter (fvs : List FieldValue) (p : Slice → Bool) :
    ((lastOf fvs).filter fun fv => p fv.field).length =
      ((firstOf id (fvs.map FieldValue.field)).filter p).length := by
  have hmap : ((lastOf fvs).filter fun fv => p fv.field).length =
      (((lastOf fvs).map FieldValue.field).filter p).length := by
    rw [List.filter_map, List.length_map]
    rfl
  rw [hmap]
  apply List.Perm.length_eq
  apply List.Perm.filter
  apply (List.perm_ext_iff_of_nodup (nodup_lastOf fvs) (nodup_firstOf_id _)).2
  intro k
  rw [FirstOf.mem_firstOf_id, List.mem_map, List.mem_map]
  have h : (∃ fv ∈ firstOf FieldValue.field fvs.reverse, fv.field = k) ↔ ∃ fv ∈ fvs.reverse, fv.field = k :=
    FirstOf.exists_mem_firstOf_iff
  simpa [lastOf] using h

private theorem length_write_lastOf (m : SortedMap Slice Slice) (fvs : List FieldValue) :
    (m.write ((lastOf fvs).map fun fv => .Put fv.field fv.value)).entries.length = m.entries.length +
      ((firstOf id (fvs.map FieldValue.field)).filter fun field => (m.get field).isNone).length := by
  rw [SortedMap.length_puts (nodup_lastOf fvs), length_lastOf_filter fvs fun field => (m.get field).isNone]

private theorem length_lastOf (fvs : List FieldValue) :
    (lastOf fvs).length = (firstOf id (fvs.map FieldValue.field)).length := by
  simpa using length_lastOf_filter fvs fun _ => true

private theorem filter_isNone_empty (fields : List Slice) :
    fields.filter (fun field => ((.empty : SortedMap Slice Slice).get field).isNone) = fields := by
  simp

private theorem hMSet_gives (h : Represents key db m) {io : Nat → Option Failure} {memory : UInt32} {time later : Int}
    {fvs : List FieldValue} (hio : io 0 = none)
    (hadd : MayAdd db key memory (fvs.map FieldValue.field) (db.get key)) :
    Gives key db (HMSet io memory db key time later fvs) (fun s _ => s = .OK)
      (m.write (fvs.map fun fv => .Put fv.field fv.value)) := by
  unfold HMSet
  rw [← write_lastOf]
  have hlength := length_write_lastOf m fvs
  cases h.cases with
  | missing hget hm hnone =>
    subst hm
    rw [hget] at hadd
    obtain ⟨hbound, hmemory⟩ := hadd
    rw [filter_isNone_empty] at hlength
    simp only [Get, hio, hget, hmemory, newMetaValue_encode, newMetaValue_version]
    refine Or.inr ⟨rfl, rfl, ?_⟩
    refine stored_puts (hnone.dataOf _) (lastOf fvs) (f := ⟨Int32.ofNat _, nextVersion 0 later, 0⟩) rfl rfl ?_
    rw [hlength, toInt_ofNat hbound]
    simp [SortedMap.empty]
  | empty f hget htimestamp hcount hm hnone =>
    subst hm
    have hbound : (firstOf id (fvs.map FieldValue.field)).length < 2 ^ 31 := by
      have hdata := hnone.dataOf f.version
      have hcond : f.count.toInt + newFields db key f.version (fvs.map FieldValue.field) < 2 ^ 31 := by
        simpa [hget, MayAdd, MetaFields.new_encode] using hadd
      rw [newFields_eq hdata, filter_isNone_empty, hcount, Int32.toInt_zero] at hcond
      omega
    rw [filter_isNone_empty] at hlength
    simp only [Get, hio, hget, MetaFields.new_encode, not_stale htimestamp, MetaFields.parsed_count, hcount]
    refine Or.inr ⟨rfl, rfl, ?_⟩
    refine stored_puts (hnone.dataOf _) (lastOf fvs)
      (f := ⟨Int32.ofNat (lastOf fvs).length, nextVersion f.version later, 0⟩) rfl rfl ?_
    rw [hlength, length_lastOf, toInt_ofNat hbound]
    simp [SortedMap.empty]
  | live f hget htimestamp hzero hcount hdata =>
    have hcountne : (f.count == 0) = false := by simpa using hzero
    have hbound : f.count.toInt + newFields db key f.version (fvs.map FieldValue.field) < 2 ^ 31 := by
      simpa [hget, MayAdd, MetaFields.new_encode] using hadd
    rw [newFields_eq hdata] at hbound
    simp only [Get, hio, hget, MetaFields.new_encode, not_stale htimestamp, MetaFields.parsed_count, hcountne,
      MetaFields.parsed_version, Bool.or_self, Bool.false_eq_true, if_false]
    cases hread : readAll io db 1 ((lastOf fvs).map fun fv => BaseDataKey key f.version fv.field) with
    | error e => exact Or.inl ⟨e, rfl⟩
    | ok values =>
      have hvalues := readAll_ok hread
      have hnew : (values.filter Option.isNone).length =
          ((firstOf id (fvs.map FieldValue.field)).filter fun field => (m.get field).isNone).length := by
        rw [← length_lastOf_filter fvs fun field => (m.get field).isNone, hvalues, List.map_map, List.filter_map,
          List.length_map]
        simp only [Function.comp_def, hdata.get]
      refine Or.inr ⟨rfl, rfl, ?_⟩
      simp only [SortedMap.write_append, hnew, MetaFields.modifyCount_parsed, MetaFields.parsed_value]
      refine represents_of_stored (f := { f with count := f.count + Int32.ofNat _ }) (SortedMap.get_put_self ..)
        htimestamp ?_ ((hdata.puts (lastOf fvs)).put_key _)
      rw [hlength, toInt_add_ofNat (by omega) hbound, hcount]
      simp

/-! ### Deletions -/

private theorem write_deletes_empty (fields : List Slice) :
    (.empty : SortedMap Slice Slice).write (fields.map .Delete) = .empty := by
  apply SortedMap.ext_get
  intro k
  rw [SortedMap.get_deletes (f := fun field => field)]
  split <;> rfl

/-- Deleting the fields that are there is deleting all of them. -/
private theorem write_present (m : SortedMap Slice Slice) (fields : List Slice) :
    m.write (((firstOf id fields).filter fun field => (m.get field).isSome).map .Delete) =
      m.write (fields.map .Delete) := by
  apply SortedMap.ext_get
  intro k
  rw [SortedMap.get_deletes (f := fun field => field), SortedMap.get_deletes (f := fun field => field)]
  by_cases hk : k ∈ fields
  · rw [if_pos (⟨k, hk, rfl⟩ : ∃ x ∈ fields, x = k)]
    cases hget : m.get k with
    | none => split <;> rfl
    | some v =>
      rw [if_pos]
      exact ⟨k, List.mem_filter.2 ⟨FirstOf.mem_firstOf_id.2 hk, by simp [hget]⟩, rfl⟩
  · have hall : ¬ ∃ x ∈ fields, x = k := by simpa using hk
    rw [if_neg hall, if_neg]
    rintro ⟨x, hx, rfl⟩
    exact hk (FirstOf.mem_firstOf_id.1 (List.mem_filter.1 hx).1)

private theorem length_present (m : SortedMap Slice Slice) (fields : List Slice) :
    (m.write (fields.map .Delete)).entries.length +
      ((firstOf id fields).filter fun field => (m.get field).isSome).length = m.entries.length := by
  rw [← write_present, SortedMap.length_deletes (f := fun field => field)]
  · simpa using (nodup_firstOf_id fields).filter _
  · intro x hx
    simpa using (List.mem_filter.1 hx).2

private theorem toInt_sub_ofNat {c : Int32} {n : Nat} (h : (n : Int) ≤ c.toInt) :
    (c + -Int32.ofNat n).toInt = c.toInt - n := by
  have hmax := c.toInt_lt
  rw [Int32.toInt_add, Int32.toInt_neg, toInt_ofNat (by omega), Int.bmod_eq_of_le (n := -n) (by omega) (by omega),
    Int.bmod_eq_of_le (by omega) (by omega)]
  omega

private theorem zip_filter (keys : List Slice) (read : Slice → Option Slice) :
    ((keys.zip (keys.map read)).filter fun kv => kv.2.isSome).map Prod.fst =
      keys.filter fun k => (read k).isSome := by
  induction keys with
  | nil => rfl
  | cons k keys ih =>
    rw [List.map_cons, List.zip_cons_cons]
    cases hk : (read k).isSome with
    | true => simp [hk, ih]
    | false => simp [hk, ih]

private theorem hDel_gives (h : Represents key db m) (io : Nat → Option Failure) {time : Int} {fields : List Slice} :
    Gives key db (HDel io db key time fields)
      (fun s v => s = .OK ∧ v.map Int32.toInt =
        some (((firstOf id fields).filter fun field => (m.get field).isSome).length : Int))
      (m.write (fields.map .Delete)) := by
  have hlength := length_present m fields
  unfold HDel
  cases hio : io 0 with
  | some e => exact Or.inl ⟨e, rfl⟩
  | none =>
    cases h.cases with
    | missing hget hm hnone =>
      subst hm
      simp only [Get, hget, write_deletes_empty]
      exact Or.inr ⟨rfl, by simp, h⟩
    | empty f hget htimestamp hcount hm hnone =>
      subst hm
      simp only [Get, hget, MetaFields.new_encode, not_stale htimestamp, MetaFields.parsed_count, hcount,
        write_deletes_empty]
      exact Or.inr ⟨rfl, by simp, h⟩
    | live f hget htimestamp hzero hcount hdata =>
      have hcountne : (f.count == 0) = false := by simpa using hzero
      have hmax := f.count.toInt_lt
      simp only [Get, hget, MetaFields.new_encode, not_stale htimestamp, MetaFields.parsed_count, hcountne,
        MetaFields.parsed_version, Bool.or_self, Bool.false_eq_true, if_false]
      cases hread : readAll io db 1 ((firstOf id fields).map fun field => BaseDataKey key f.version field) with
      | error e => exact Or.inl ⟨e, rfl⟩
      | ok values =>
        have hdeleted : ((((firstOf id fields).map fun field => BaseDataKey key f.version field).zip values).filter
            fun kv => kv.2.isSome).map Prod.fst =
            ((firstOf id fields).filter fun field => (m.get field).isSome).map
              fun field => BaseDataKey key f.version field := by
          rw [readAll_ok hread, zip_filter, List.filter_map]
          simp only [Function.comp_def, hdata.get]
        simp only [hdeleted, List.length_map, SortedMap.write_append, List.map_map]
        refine Or.inr ⟨rfl, ⟨rfl, ?_⟩, ?_⟩
        · rw [Option.map_some, toInt_ofNat (by omega)]
        · rw [← write_present]
          refine represents_of_stored (f := { f with count := f.count + -Int32.ofNat _ })
            (SortedMap.get_put_self ..) htimestamp ?_ ((hdata.deletes _).put_key _)
          rw [write_present, toInt_sub_ofNat (by omega)]
          omega

private theorem del_gives (h : Represents key db m) {io : Nat → Option Failure} {time : Int} (hio : io 0 = none) :
    Gives key db (Del io db key time) (fun _ _ => True) .empty := by
  unfold Del
  cases h.cases with
  | missing hget hm hnone =>
    simp only [Get, hio, hget]
    exact Or.inr ⟨rfl, trivial, hm ▸ h⟩
  | empty f hget htimestamp hcount hm hnone =>
    simp only [Get, hio, hget, MetaFields.new_encode, not_stale htimestamp, MetaFields.parsed_count, hcount]
    exact Or.inr ⟨rfl, trivial, hm ▸ h⟩
  | live f hget htimestamp hzero hcount hdata =>
    have hcountne : (f.count == 0) = false := by simpa using hzero
    simp only [Get, hio, hget, MetaFields.new_encode, not_stale htimestamp, MetaFields.parsed_count, hcountne,
      MetaFields.parsed_version, Bool.false_eq_true, if_false, hdata.scan, List.map_map, SortedMap.write_cons]
    refine Or.inr ⟨rfl, trivial, ⟨Or.inl ⟨?_, rfl, ?_⟩⟩⟩
    · rw [SortedMap.get_write_of_forall_ne]
      · exact SortedMap.get_delete_self ..
      · intro op hop
        obtain ⟨e, -, rfl⟩ := List.mem_map.1 hop
        exact baseDataKey_ne key f.version e.1
    · intro version field
      have hdeletes := SortedMap.get_deletes (db.delete key) m.entries (f := fun e => BaseDataKey key f.version e.1)
        (BaseDataKey key version field)
      refine hdeletes.trans ?_
      split
      · rfl
      · rename_i hnot
        rw [SortedMap.get_delete, if_neg (baseDataKey_ne key version field), hdata]
        split
        · rename_i hversion
          rw [SortedMap.get_eq_none_iff]
          exact fun v hmem => hnot ⟨(field, v), hmem, by rw [hversion]⟩
        · rfl

/-! ### Reads -/

/-- A read leaves the store as it is. -/
private def Reads {α : Type} (db : Db) (r : Result α) (good : Status → Option α → Prop) : Prop :=
  (∃ e, r = Result.fail db e) ∨ r.failed = none ∧ good r.status r.value ∧ r.db = db

private theorem hGet_reads (h : Represents key db m) (io : Nat → Option Failure) {time : Int} {field : Slice} :
    Reads db (HGet io db key time field) fun s v => s.ok = (m.get field).isSome ∧ v = m.get field := by
  unfold HGet
  cases hio : io 0 with
  | some e => exact Or.inl ⟨e, rfl⟩
  | none =>
    cases h.cases with
    | missing hget hm hnone =>
      subst hm
      simp only [Get, hget]
      exact Or.inr ⟨rfl, ⟨rfl, rfl⟩, rfl⟩
    | empty f hget htimestamp hcount hm hnone =>
      subst hm
      simp only [Get, hget, MetaFields.new_encode, not_stale htimestamp, MetaFields.parsed_count, hcount]
      exact Or.inr ⟨rfl, ⟨rfl, rfl⟩, rfl⟩
    | live f hget htimestamp hzero hcount hdata =>
      have hcountne : (f.count == 0) = false := by simpa using hzero
      simp only [Get, hget, MetaFields.new_encode, not_stale htimestamp, MetaFields.parsed_count, hcountne,
        MetaFields.parsed_version, Bool.false_eq_true, if_false, hdata.get]
      cases hio1 : io 1 with
      | some e => exact Or.inl ⟨e, rfl⟩
      | none =>
        cases hfield : m.get field with
        | none => exact Or.inr ⟨rfl, ⟨rfl, rfl⟩, rfl⟩
        | some v => exact Or.inr ⟨rfl, ⟨rfl, rfl⟩, rfl⟩

private theorem hMGet_reads (h : Represents key db m) (io : Nat → Option Failure) {time : Int} {fields : List Slice} :
    Reads db (HMGet io db key time fields) fun _ v => v = some (fields.map m.get) := by
  unfold HMGet
  cases hio : io 0 with
  | some e => exact Or.inl ⟨e, rfl⟩
  | none =>
    cases h.cases with
    | missing hget hm hnone =>
      subst hm
      simp only [Get, hget]
      exact Or.inr ⟨rfl, rfl, rfl⟩
    | empty f hget htimestamp hcount hm hnone =>
      subst hm
      simp only [Get, hget, MetaFields.new_encode, not_stale htimestamp, MetaFields.parsed_count, hcount]
      exact Or.inr ⟨rfl, rfl, rfl⟩
    | live f hget htimestamp hzero hcount hdata =>
      have hcountne : (f.count == 0) = false := by simpa using hzero
      simp only [Get, hget, MetaFields.new_encode, not_stale htimestamp, MetaFields.parsed_count, hcountne,
        MetaFields.parsed_version, Bool.or_self, Bool.false_eq_true, if_false]
      cases hread : readAll io db 1 (fields.map fun field => BaseDataKey key f.version field) with
      | error e => exact Or.inl ⟨e, rfl⟩
      | ok values =>
        refine Or.inr ⟨rfl, ?_, rfl⟩
        rw [readAll_ok hread, List.map_map]
        simp only [Function.comp_def, hdata.get]

private theorem hGetall_reads (h : Represents key db m) (io : Nat → Option Failure) {time : Int}
    (hcond : io 0 = none → MayScan key (db.get key)) :
    Reads db (HGetall io db key time) fun _ v => v = some (m.entries.map fun e => ⟨e.1, e.2⟩) := by
  unfold HGetall
  cases hio : io 0 with
  | some e => exact Or.inl ⟨e, rfl⟩
  | none =>
    cases h.cases with
    | missing hget hm hnone =>
      subst hm
      simp only [Get, hget]
      exact Or.inr ⟨rfl, rfl, rfl⟩
    | empty f hget htimestamp hcount hm hnone =>
      subst hm
      simp only [Get, hget, MetaFields.new_encode, not_stale htimestamp, MetaFields.parsed_version,
        (hnone.dataOf f.version).scan]
      split
      · exact Or.inr ⟨rfl, rfl, rfl⟩
      · split
        · exact Or.inr ⟨rfl, rfl, rfl⟩
        · exact Or.inr ⟨rfl, rfl, rfl⟩
    | live f hget htimestamp hzero hcount hdata =>
      have hscan : f.version ≠ 0 ∧ key.length < 2 ^ 31 := by
        simpa [hget, MayScan, MetaFields.new_encode, hzero] using hcond hio
      have hversion : (f.version == 0) = false := by simpa using hscan.1
      simp only [Get, hget, MetaFields.new_encode, not_stale htimestamp, MetaFields.parsed_version, hversion,
        Bool.false_eq_true, if_false, hdata.scan, List.map_map]
      refine Or.inr ⟨rfl, ?_, rfl⟩
      simp only [Function.comp_def, getData_baseDataKey hscan.2]

/-! ### Runs -/

private theorem Reads.gives {α : Type} {r : Result α} {good : Status → Option α → Prop} (h : Represents key db m)
    (hreads : Reads db r good) : Gives key db r good m := by
  rcases hreads with hfail | ⟨hfailed, hgood, hdb⟩
  · exact Or.inl hfail
  · exact Or.inr ⟨hfailed, hgood, hdb ▸ h⟩

private theorem actionOk_of_gives {α : Type} {s : State} {a : Action} (r : Result α)
    (toReply : Status → Option α → Reply) {good : Status → Option α → Prop}
    (houtcome : outcome key s a = ⟨r.db, r.status, toReply r.status r.value, r.failed⟩) (h : Represents key s.db m)
    (hgives : Gives key s.db r good (mapCall m a.call).1)
    (hreply : ∀ status v, good status v → toReply status v = (mapCall m a.call).2) :
    ActionOk key s m a ∧ Represents key (stepBoth key (s, m) a).1.1.db (stepBoth key (s, m) a).1.2 := by
  rcases hgives with ⟨e, rfl⟩ | ⟨hfailed, hgood, hrep⟩
  · refine ⟨⟨?_, ?_, ?_⟩, ?_⟩
    · intro e' he'
      rw [houtcome] at he' ⊢
      cases he'
      exact ⟨rfl, rfl⟩
    · intro hnone
      rw [houtcome] at hnone
      simp [Result.fail] at hnone
    · rw [houtcome]
      exact h.countOk
    · simp only [stepBoth, step, houtcome]
      exact h
  · refine ⟨⟨?_, ?_, ?_⟩, ?_⟩
    · intro e he
      rw [houtcome] at he
      simp [hfailed] at he
    · intro _
      rw [houtcome]
      exact hreply _ _ hgood
    · rw [houtcome]
      exact hrep.countOk
    · simp only [stepBoth, step, houtcome, hfailed]
      exact hrep

/-- An action gives what it gives in the map, and the store goes on standing for the map. -/
theorem actionOk {s : State} {a : Action} (h : Represents key s.db m) (hcond : FirstReadOk key s a) :
    ActionOk key s m a ∧ Represents key (stepBoth key (s, m) a).1.1.db (stepBoth key (s, m) a).1.2 := by
  obtain ⟨call, wait, lag, io, memory⟩ := a
  cases call with
  | HSet field value =>
    refine actionOk_of_gives _ (fun st v => .set st.ok (v.map Int32.toInt)) rfl h (hSet_gives h io hcond) ?_
    rintro _ _ ⟨rfl, rfl⟩
    simp only [mapCall, Status.ok_OK, Option.map_some]
    split <;> rfl
  | HMSet fvs =>
    refine actionOk_of_gives _ (fun st _ => .stored st.ok) rfl h (hMSet_gives h hcond.1 hcond.2) ?_
    rintro _ _ rfl
    rfl
  | HDel fields =>
    refine actionOk_of_gives _ (fun st v => .deleted st.ok (v.map Int32.toInt)) rfl h (hDel_gives h io) ?_
    rintro _ _ ⟨rfl, hv⟩
    simp only [mapCall, hv, Status.ok_OK]
  | Del => exact actionOk_of_gives _ (fun _ _ => .removed) rfl h (del_gives h hcond) fun _ _ _ => rfl
  | HGet field =>
    refine actionOk_of_gives _ (fun st v => .value st.ok v) rfl h (Reads.gives h (hGet_reads h io)) ?_
    rintro status _ ⟨hok, rfl⟩
    simp only [mapCall, hok]
  | HMGet fields =>
    refine actionOk_of_gives _ (fun _ v => .values v) rfl h (Reads.gives h (hMGet_reads h io)) ?_
    rintro _ _ rfl
    rfl
  | HExists field =>
    refine actionOk_of_gives (HGet io s.db key (s.clock + wait) field) (fun st _ => .present st.ok) rfl h
      (Reads.gives h (hGet_reads h io)) ?_
    rintro status _ ⟨hok, -⟩
    simp only [mapCall, hok]
  | HGetall =>
    refine actionOk_of_gives _ (fun _ v => .all v) rfl h (Reads.gives h (hGetall_reads h io hcond)) ?_
    rintro _ _ rfl
    rfl

theorem represents_init (key : Slice) : Represents key .empty .empty :=
  ⟨Or.inl ⟨rfl, rfl, fun _ _ => rfl⟩⟩

/-- In a run in which the first read of no `HMSet` and no `Del` fails, every action replies what the map replies and
leaves the right count, or returns the error that it met and writes nothing. -/
theorem run_actionOk (key : Slice) (clock : Int) (actions : List Action)
    (hmeets : Meets (step key) (FirstReadOk key) ⟨clock, .empty⟩ actions) :
    Meets (stepBoth key) (fun sm a => ActionOk key sm.1 sm.2 a) (⟨clock, .empty⟩, .empty) actions := by
  refine Meets.of_related (R := fun s sm => sm.1 = s ∧ Represents key s.db sm.2) ?_ ⟨rfl, represents_init key⟩ hmeets
  rintro s ⟨_, m⟩ a ⟨rfl, hrep⟩ hcond
  obtain ⟨hok, hnext⟩ := actionOk hrep hcond
  exact ⟨hok, rfl, hnext⟩

/-- Fields that are set, set again, deleted one by one and set anew; one read of an `HMSet` fails. -/
theorem run_actionOk_example :
    Meets (stepBoth [1]) (fun sm a => ActionOk [1] sm.1 sm.2 a) (⟨100, .empty⟩, .empty)
      [{ call := .HSet [7] [8], memory := 1 }, { call := .HMSet [⟨[7], [9]⟩, ⟨[6], [5]⟩, ⟨[7], [4]⟩] },
        { call := .HMSet [⟨[3], [3]⟩], io := fun i => if i = 1 then some (.IOError "") else none },
        { call := .HDel [[7], [6], [7]] }, { call := .HSet [6] [1], wait := 5 },
          { call := .HGetall }, { call := .Del },
        { call := .HGetall }] :=
  run_actionOk [1] 100 _ (by decide +kernel)

/-- An `HMSet` whose first read fails returns OK. -/
theorem not_actionOk_hMSet :
    ¬ ∀ (key : Slice) (clock : Int) (actions : List Action),
      Meets (stepBoth key) (fun sm a => ActionOk key sm.1 sm.2 a) (⟨clock, .empty⟩, .empty) actions := by
  intro h
  have hrun := h [1] 100 [{ call := .HMSet [⟨[7], [8]⟩], io := fun _ => some (.IOError "") }]
  have herror := (hrun.1.error (.IOError "") rfl).1
  revert herror
  decide +kernel

end RedisHash

end RedisDb
