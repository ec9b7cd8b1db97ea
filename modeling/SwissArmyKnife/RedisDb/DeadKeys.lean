import SwissArmyKnife.RedisDb.DeadStrings

/-!
# Dead keys

A hash, a set, a sorted set or a list is dead when its expiry time has passed or its meta value counts no element.  As
for strings, every call is run in a store with the dead meta value and in the store without it.
-/

namespace RedisDb

open FirstOf (firstOf)

/-- The meta value that is stored under the key of a hash or a set. -/
def storedMeta (db : Db) (key : Slice) : ParsedBaseMetaValue := ParsedBaseMetaValue.new ((db.get key).getD [])

/-- The key of a hash or a set has a meta value, and it is dead. -/
def DeadMeta (db : Db) (key : Slice) (time : Int) : Prop :=
  ∃ f : MetaFields, db.get key = some f.encode ∧ ParsedBaseMetaValue.live time (some f.encode) = false

theorem storedMeta_eq {db : Db} {key : Slice} {f : MetaFields} (h : db.get key = some f.encode) :
    storedMeta db key = f.parsed := by
  rw [storedMeta, h, Option.getD_some, MetaFields.new_encode]

theorem MetaFields.live_encode_eq_false {f : MetaFields} {time : Int} :
    ParsedBaseMetaValue.live time (some f.encode) = false ↔ f.parsed.IsStale time = true ∨ f.count = 0 := by
  rw [ParsedBaseMetaValue.live_some, MetaFields.new_encode, MetaFields.parsed_count]

theorem MetaFields.dead_of_not_live {f : MetaFields} {time : Int}
    (h : ParsedBaseMetaValue.live time (some f.encode) = false) :
    (f.parsed.IsStale time || f.parsed.count == 0) = true := by
  rw [Bool.or_eq_true, beq_iff_eq]
  exact MetaFields.live_encode_eq_false.1 h

/-- A dead meta value is stale, or it is not and counts nothing. -/
theorem MetaFields.stale_or_empty {f : MetaFields} {time : Int}
    (h : ParsedBaseMetaValue.live time (some f.encode) = false) :
    f.parsed.IsStale time = true ∨ f.parsed.IsStale time = false ∧ f.count = 0 := by
  cases hstale : f.parsed.IsStale time with
  | true => exact Or.inl rfl
  | false =>
    have hzero := (MetaFields.live_encode_eq_false.1 h).resolve_left (by simp [hstale])
    exact Or.inr ⟨rfl, hzero⟩

theorem MetaFields.listed_of_not_live {f : MetaFields} {time : Int}
    (h : ParsedBaseMetaValue.live time (some f.encode) = false) :
    ParsedBaseMetaValue.listed time f.encode = some false := by
  have hnot := MetaFields.dead_of_not_live h
  rw [← Bool.not_eq_false', Bool.not_or] at hnot
  rw [ParsedBaseMetaValue.listed, MetaFields.new_encode]
  exact congrArg some hnot

theorem get_data_delete (db : Db) (key : Slice) (version : Int32) (data : Slice) :
    (db.delete key).get (BaseDataKey key version data) = db.get (BaseDataKey key version data) := by
  rw [SortedMap.get_delete, if_neg (baseDataKey_ne key version data)]

/-- A meta value without an expiry time is alive as long as it counts something. -/
theorem MetaFields.live_encode_of_zero (count version : Int32) (now : Int) :
    ParsedBaseMetaValue.live now (some (⟨count, version, 0⟩ : MetaFields).encode) = decide (count ≠ 0) := by
  simp [ParsedBaseMetaValue.live, MetaFields.new_encode, ParsedBaseMetaValue.IsStale, beq_eq_decide]

theorem DeadMeta.scanKeys_eq {db : Db} {key : Slice} {time : Int} (h : DeadMeta db key time)
    (isMatch : Slice → Option Bool) (keys : List Slice) :
    scanKeys (ParsedBaseMetaValue.listed time) isMatch (db.delete key).entries keys =
      scanKeys (ParsedBaseMetaValue.listed time) isMatch db.entries keys := by
  obtain ⟨f, hget, hdead⟩ := h
  obtain ⟨l, r, hentries, hdelete⟩ := SortedMap.entries_split hget
  rw [hentries, hdelete, scanKeys_skip (MetaFields.listed_of_not_live hdead)]

/-- A dead meta value is counted, unless it has no expiry time. -/
theorem DeadMeta.scanKeyNum_eq_iff {db : Db} {key : Slice} {time : Int} (h : DeadMeta db key time) :
    scanKeyNum (fun value => some (ParsedBaseMetaValue.new value).timestamp) time (db.entries.map Prod.snd) =
        scanKeyNum (fun value => some (ParsedBaseMetaValue.new value).timestamp) time
          ((db.delete key).entries.map Prod.snd) ↔
      (storedMeta db key).timestamp = 0 := by
  obtain ⟨f, hget, -⟩ := h
  obtain ⟨l, r, hentries, hdelete⟩ := SortedMap.entries_split hget
  rw [hentries, hdelete, List.map_append, List.map_cons, List.map_append, RedisDb.scanKeyNum_eq_iff rfl,
    MetaFields.new_encode, storedMeta_eq hget]
  simp

variable {L : Type*} (e : Setting L)

/-! ### Hashes -/

namespace RedisHash

/-- The calls on a key; an output parameter is given by what it holds before the call. -/
inductive Command where
  | HSet (field value : Slice) (res : Int32)
  | HGet (field value : Slice)
  | HMSet (fvs : List FieldValue)
  | HMGet (fields : List Slice) (vss : List (Option Slice))
  | HGetall (fvs : List FieldValue)
  | HDel (fields : List Slice) (ret : Int32)
  | Expire (ttl : Int32)
  | Del
  | ScanKeyNum (keyinfo : KeyInfo)
  | ScanKeys (pattern : Slice) (keys : List Slice)
  | HExists (field : Slice)

/-- What the output parameters hold after a call. -/
inductive Output where
  | nothing
  | number (n : Int)
  | text (bytes : Slice)
  | values (vss : List (Option Slice))
  | fields (fvs : List FieldValue)
  | keys (keys : List Slice)
  | keyinfo (keyinfo : KeyInfo)

def run (db : Db) (key : Slice) : Command → Option (Response Db Output)
  | .HSet field value res =>
    let r := HSet e.io e.memory db key e.time e.later field value
    some ⟨r.db, r.status, .number (r.value.getD res).toInt⟩
  | .HGet field value =>
    let r := HGet e.io db key e.time field
    some ⟨r.db, r.status, .text (r.value.getD value)⟩
  | .HMSet fvs =>
    let r := HMSet e.io e.memory db key e.time e.later fvs
    some ⟨r.db, r.status, .nothing⟩
  | .HMGet fields _ =>
    let r := HMGet e.io db key e.time fields
    some ⟨r.db, r.status, .values (r.value.getD [])⟩
  | .HGetall fvs =>
    let r := HGetall e.io db key e.time
    some ⟨r.db, r.status, .fields (fvs ++ r.value.getD [])⟩
  | .HDel fields ret =>
    let r := HDel e.io db key e.time fields
    some ⟨r.db, r.status, .number (r.value.getD ret).toInt⟩
  | .Expire ttl =>
    let r := RedisHash.Expire db key ttl
    some ⟨r.1, r.2, .nothing⟩
  | .Del =>
    let r := RedisHash.Del e.io db key e.time
    some ⟨r.db, r.status, .nothing⟩
  | .ScanKeyNum _ => (ScanKeyNum e.time db).map fun keyinfo => ⟨db, .OK, .keyinfo keyinfo⟩
  | .ScanKeys pattern keys => (ScanKeys e.beyond e.time db pattern keys).map fun keys => ⟨db, .OK, .keys keys⟩
  | .HExists field =>
    let r := HExists e.io db key e.time field
    some ⟨r.db, r.status, .nothing⟩

/-- The values of the fields, unless the key has no meta value or it is dead. -/
def contents (key : Slice) (db : Db) (now : Int) : Option (Slice → Option Slice) :=
  if ParsedBaseMetaValue.live now (db.get key) then
    some fun field => db.get (BaseDataKey key (storedMeta db key).version field)
  else none

variable {db : Db} {key : Slice} {time now : Int}

@[simp] theorem contents_delete : contents key (db.delete key) now = none := by
  simp [contents, ParsedBaseMetaValue.live]

theorem same_of_dead (h : DeadMeta db key e.time) (now : Int) (hle : e.later ≤ now) :
    contents key db now = contents key (db.delete key) now := by
  obtain ⟨f, hget, hdead⟩ := h
  rw [contents_delete, contents, hget, ParsedBaseMetaValue.dead_mono hdead (e.time_le_later.trans hle)]
  rfl

/-- The entries under two versions are the same, apart from some fields. -/
def SameLeft (db : Db) (key : Slice) (version version' : Int32) (fields : List Slice) : Prop :=
  ∀ field ∉ fields, db.get (BaseDataKey key version field) = db.get (BaseDataKey key version' field)

/-- When the answers to a call are alike, for a dead key and for one without a meta value. -/
def Command.Conceals (db : Db) (key : Slice) : Command → Prop
  | .HSet field _ _ => e.io 0 ≠ none ∨ e.memory ≠ 0 ∧
      SameLeft db key (nextVersion (storedMeta db key).version e.later) (nextVersion 0 e.later) [field]
  | .HMSet fvs =>
    let count := Int32.ofNat (lastOf fvs).length
    e.io 0 ≠ none ∨ count = 0 ∧ e.memory = 0 ∨ count ≠ 0 ∧ e.memory ≠ 0 ∧
      SameLeft db key (nextVersion (storedMeta db key).version e.later) (nextVersion 0 e.later)
        (fvs.map FieldValue.field)
  | .HGetall _ => e.io 0 ≠ none ∨ (storedMeta db key).IsStale e.time = true ∨ (storedMeta db key).version = 0
  | .Del => e.io 0 ≠ none
  | .ScanKeyNum _ => (storedMeta db key).timestamp = 0
  | _ => True

/-- What is written to create a hash: its meta value and its fields. -/
def created (key : Slice) (count version : Int32) (fvs : List FieldValue) : List (SortedMap.Op Slice Slice) :=
  .Put key (⟨count, version, 0⟩ : MetaFields).encode ::
    fvs.map fun fv => .Put (BaseDataKey key version fv.field) fv.value

theorem contents_created (db : Db) (count version : Int32) (fvs : List FieldValue) :
    contents key (db.write (created key count version fvs)) now =
      if count = 0 then none
      else some fun field => ((fvs.reverse.find? fun fv => fv.field = field).map FieldValue.value).or
        (db.get (BaseDataKey key version field)) := by
  have hkey : (db.write (created key count version fvs)).get key =
      some (⟨count, version, 0⟩ : MetaFields).encode := by
    rw [created, SortedMap.write_cons, get_key_puts]
    exact SortedMap.get_put_self ..
  have hfield (field : Slice) : (db.write (created key count version fvs)).get (BaseDataKey key version field) =
      ((fvs.reverse.find? fun fv => fv.field = field).map FieldValue.value).or
        (db.get (BaseDataKey key version field)) := by
    have hp (fv : FieldValue) : decide (fv.field = field) = true ↔
        BaseDataKey key version fv.field = BaseDataKey key version field := by
      rw [decide_eq_true_iff, (baseDataKey_injective_data key version).eq_iff]
    rw [created, SortedMap.write_cons, SortedMap.get_puts _ _ hp]
    exact congrArg _ get_data_put_key
  rw [contents, hkey, MetaFields.live_encode_of_zero, storedMeta_eq hkey]
  simp only [MetaFields.parsed_version, hfield, decide_eq_true_eq, ite_not]

theorem alike_created {count count' version version' : Int32} {fvs : List FieldValue} {s : Status} {o : Output} :
    Alike (contents key) e.later (some ⟨db.write (created key count version fvs), s, o⟩)
        (some ⟨(db.delete key).write (created key count' version' fvs), s, o⟩) ↔
      count = 0 ∧ count' = 0 ∨
        count ≠ 0 ∧ count' ≠ 0 ∧ SameLeft db key version version' (fvs.map FieldValue.field) := by
  simp only [Alike, true_and, contents_created, get_data_delete]
  have hnow : (∀ now, e.later ≤ now → (if count = 0 then none
      else some fun field => ((fvs.reverse.find? fun fv => fv.field = field).map FieldValue.value).or
        (db.get (BaseDataKey key version field))) = if count' = 0 then none
      else some fun field => ((fvs.reverse.find? fun fv => fv.field = field).map FieldValue.value).or
        (db.get (BaseDataKey key version' field))) ↔ _ := ⟨fun h => h e.later le_rfl, fun h _ _ => h⟩
  rw [hnow]
  by_cases hcount : count = 0
  · by_cases hcount' : count' = 0
    · simp [hcount, hcount']
    · simp [hcount, hcount']
  · by_cases hcount' : count' = 0
    · simp [hcount, hcount']
    · simp only [hcount, hcount', if_false, false_and, false_or, true_and, not_false_eq_true, Option.some.injEq,
        funext_iff, SameLeft, ne_eq]
      refine forall_congr' fun field => ?_
      cases hfind : fvs.reverse.find? fun fv => fv.field = field with
      | none =>
        have hnot : field ∉ fvs.map FieldValue.field := by
          intro hmem
          obtain ⟨fv, hfv, rfl⟩ := List.mem_map.1 hmem
          simpa using List.find?_eq_none.1 hfind fv (by simpa using hfv)
        simp [hnot]
      | some fv =>
        have hmem : field ∈ fvs.map FieldValue.field := by
          have hkey : fv.field = field := by simpa using List.find?_some hfind
          exact List.mem_map.2 ⟨fv, by simpa using List.mem_of_find?_eq_some hfind, hkey⟩
        simp [hmem]

theorem sameLeft_congr {version version' : Int32} {fields fields' : List Slice}
    (h : ∀ field, field ∈ fields ↔ field ∈ fields') :
    SameLeft db key version version' fields ↔ SameLeft db key version version' fields' := by
  simp only [SameLeft, h]

theorem mem_lastOf_iff {fvs : List FieldValue} {field : Slice} :
    field ∈ (lastOf fvs).map FieldValue.field ↔ field ∈ fvs.map FieldValue.field := by
  have h := @FirstOf.exists_mem_firstOf_iff _ _ _ FieldValue.field fvs.reverse field
  simpa [lastOf] using h

theorem toInt32_eq_zero_iff {memory : UInt32} : memory.toInt32 = 0 ↔ memory = 0 := by
  constructor
  · intro h
    have hmemory : memory = Int32.toUInt32 0 := by simpa using congrArg Int32.toUInt32 h
    exact hmemory
  · rintro rfl
    rfl

theorem hSet_alike_iff (h : DeadMeta db key e.time) (field value : Slice) (res : Int32) :
    Alike (contents key) e.later (run e db key (.HSet field value res))
      (run e (db.delete key) key (.HSet field value res))
      ↔ Command.Conceals e db key (.HSet field value res) := by
  obtain ⟨f, hget, hdead⟩ := id h
  cases hio : e.io 0 with
  | some failure =>
    simp [run, HSet, hio, Result.fail, alike_iff_of_same (same_of_dead e h), Command.Conceals]
  | none =>
    have hrun : run e db key (.HSet field value res) =
        some ⟨db.write (created key 1 (nextVersion f.version e.later) [⟨field, value⟩]), .OK, .number 1⟩ := by
      simp only [run, HSet, hio, Get_ok hget, MetaFields.new_encode, MetaFields.dead_of_not_live hdead, if_true]
      rfl
    have hrun' : run e (db.delete key) key (.HSet field value res) = some ⟨(db.delete key).write
        (created key e.memory.toInt32 (nextVersion 0 e.later) [⟨field, value⟩]), .OK, .number 1⟩ := by
      simp only [run, HSet, hio, Get_delete]
      rfl
    rw [hrun, hrun', alike_created]
    simp [Command.Conceals, hio, storedMeta_eq hget, toInt32_eq_zero_iff]

theorem hMSet_alike_iff (h : DeadMeta db key e.time) (fvs : List FieldValue) :
    Alike (contents key) e.later (run e db key (.HMSet fvs)) (run e (db.delete key) key (.HMSet fvs)) ↔
      Command.Conceals e db key (.HMSet fvs) := by
  obtain ⟨f, hget, hdead⟩ := id h
  cases hio : e.io 0 with
  | some failure => simp [run, HMSet, hio, alike_iff_of_same (same_of_dead e h), Command.Conceals]
  | none =>
    have hrun : run e db key (.HMSet fvs) = some ⟨db.write (created key (Int32.ofNat (lastOf fvs).length)
        (nextVersion f.version e.later) (lastOf fvs)), .OK, .nothing⟩ := by
      simp only [run, HMSet, hio, Get_ok hget, MetaFields.new_encode, MetaFields.dead_of_not_live hdead, if_true]
      rfl
    have hrun' : run e (db.delete key) key (.HMSet fvs) = some ⟨(db.delete key).write
        (created key e.memory.toInt32 (nextVersion 0 e.later) (lastOf fvs)), .OK, .nothing⟩ := by
      simp only [run, HMSet, hio, Get_delete]
      rfl
    rw [hrun, hrun', alike_created, sameLeft_congr fun field => mem_lastOf_iff]
    simp [Command.Conceals, hio, storedMeta_eq hget, toInt32_eq_zero_iff]

theorem hGetall_alike_iff (h : DeadMeta db key e.time) (fvs : List FieldValue) :
    Alike (contents key) e.later (run e db key (.HGetall fvs)) (run e (db.delete key) key (.HGetall fvs)) ↔
      Command.Conceals e db key (.HGetall fvs) := by
  obtain ⟨f, hget, -⟩ := id h
  cases hio : e.io 0 with
  | some failure =>
    simp [run, HGetall, hio, Result.fail, alike_iff_of_same (same_of_dead e h), Command.Conceals]
  | none =>
    simp only [run, HGetall, hio, Get_ok hget, Get_delete, MetaFields.new_encode, Command.Conceals, ne_eq,
      not_true_eq_false, false_or, storedMeta_eq hget]
    by_cases hstale : f.parsed.IsStale e.time = true
    · simp [hstale, alike_iff_of_same (same_of_dead e h), Status.toClass]
    · by_cases hversion : f.version = 0
      · simp [hstale, hversion, alike_iff_of_same (same_of_dead e h), Status.toClass]
      · simp [hstale, hversion, alike_iff_of_same (same_of_dead e h), Status.toClass]

theorem hGet_alike (h : DeadMeta db key e.time) (field : Slice) :
    (HGet e.io db key e.time field).status.toClass = (HGet e.io (db.delete key) key e.time field).status.toClass ∧
      (HGet e.io db key e.time field).value = (HGet e.io (db.delete key) key e.time field).value ∧
      (HGet e.io db key e.time field).db = db ∧ (HGet e.io (db.delete key) key e.time field).db = db.delete key := by
  obtain ⟨f, hget, hdead⟩ := h
  cases hio : e.io 0 with
  | some failure => simp [HGet, hio, Result.fail]
  | none =>
    simp only [HGet, hio, Get_ok hget, Get_delete, MetaFields.new_encode]
    by_cases hstale : f.parsed.IsStale e.time = true
    · simp [hstale, Status.toClass]
    · have hzero : f.count = 0 := (MetaFields.live_encode_eq_false.1 hdead).resolve_left hstale
      simp [hstale, hzero]

/-- A call on a dead hash answers as on one that is not there, under the condition of the call. -/
theorem alike_iff (h : DeadMeta db key e.time) (c : Command) :
    Alike (contents key) e.later (run e db key c) (run e (db.delete key) key c) ↔ c.Conceals e db key := by
  have hsame := same_of_dead e h
  obtain ⟨f, hget, hdead⟩ := id h
  have hnot := MetaFields.dead_of_not_live hdead
  cases c with
  | HSet field value res => exact hSet_alike_iff e h field value res
  | HMSet fvs => exact hMSet_alike_iff e h fvs
  | HGetall fvs => exact hGetall_alike_iff e h fvs
  | HGet field value =>
    obtain ⟨hstatus, hvalue, hdb, hdb'⟩ := hGet_alike e h field
    simp [run, hdb, hdb', hvalue, alike_iff_of_same hsame, hstatus, Command.Conceals]
  | HExists field =>
    obtain ⟨hstatus, -, hdb, hdb'⟩ := hGet_alike e h field
    simp [run, HExists, hdb, hdb', alike_iff_of_same hsame, hstatus, Command.Conceals]
  | HMGet fields vss =>
    cases hio : e.io 0 with
    | some failure => simp [run, HMGet, hio, Result.fail, alike_iff_of_same hsame, Command.Conceals]
    | none =>
      simp only [run, HMGet, hio, Get_ok hget, Get_delete, MetaFields.new_encode, hnot, if_true]
      simp [alike_iff_of_same hsame, Command.Conceals, Status.toClass]
  | HDel fields ret =>
    cases hio : e.io 0 with
    | some failure => simp [run, HDel, hio, Result.fail, alike_iff_of_same hsame, Command.Conceals]
    | none =>
      simp only [run, HDel, hio, Get_ok hget, Get_delete, MetaFields.new_encode, hnot, if_true]
      simp [alike_iff_of_same hsame, Command.Conceals]
  | Expire ttl => simp [run, RedisHash.Expire, alike_iff_of_same hsame, Command.Conceals]
  | Del =>
    cases hio : e.io 0 with
    | some failure => simp [run, RedisHash.Del, hio, alike_iff_of_same hsame, Command.Conceals]
    | none =>
      simp only [run, RedisHash.Del, hio, Get_ok hget, Get_delete, MetaFields.new_encode, Command.Conceals]
      by_cases hstale : f.parsed.IsStale e.time = true
      · simp [hstale, alike_iff_of_same hsame, Status.toClass]
      · have hzero : f.count = 0 := (MetaFields.live_encode_eq_false.1 hdead).resolve_left hstale
        simp [hstale, hzero, alike_iff_of_same hsame, Status.toClass]
  | ScanKeyNum keyinfo =>
    rw [run, run, alike_map_iff hsame fun _ _ heq => Output.keyinfo.inj heq, ScanKeyNum,
      ScanKeyNum, h.scanKeyNum_eq_iff]
    rfl
  | ScanKeys pattern keys =>
    rw [run, run, alike_map_iff hsame fun _ _ heq => Output.keys.inj heq, ScanKeys, ScanKeys, h.scanKeys_eq]
    exact iff_of_true rfl trivial

end RedisHash

/-! ### Sets -/

namespace RedisSet

/-- The calls on a key; an output parameter is given by what it holds before the call. -/
inductive Command where
  | SAdd (members : List Slice) (ret : Int32)
  | SCard (ret : Int32)
  | SMembers (members : List Slice)
  | ScanKeyNum (keyinfo : KeyInfo)
  | ScanKeys (pattern : Slice) (keys : List Slice)
  | Expire (ttl : Int32)
  | Del

/-- What the output parameters hold after a call. -/
inductive Output where
  | nothing
  | number (n : Int)
  | members (members : List Slice)
  | keys (keys : List Slice)
  | keyinfo (keyinfo : KeyInfo)

def run (db : Db) (key : Slice) : Command → Option (Response Db Output)
  | .SAdd members _ =>
    let r := SAdd db key e.time members
    some ⟨r.1, r.2.1, .number r.2.2.toInt⟩
  | .SCard _ =>
    let r := SCard db key e.time
    some ⟨db, r.1, .number r.2.toInt⟩
  | .SMembers members =>
    let r := SMembers db key e.time
    some ⟨db, r.1, .members (members ++ r.2)⟩
  | .ScanKeyNum _ => (ScanKeyNum e.time db).map fun keyinfo => ⟨db, .OK, .keyinfo keyinfo⟩
  | .ScanKeys pattern keys => (ScanKeys e.beyond e.time db pattern keys).map fun keys => ⟨db, .OK, .keys keys⟩
  | .Expire ttl =>
    let r := RedisSet.Expire db key ttl
    some ⟨r.1, r.2, .nothing⟩
  | .Del =>
    let r := RedisSet.Del db key e.time e.later
    some ⟨r.1, r.2, .nothing⟩

/-- The number of the members and the members, unless the key has no meta value or it is dead. -/
def contents (key : Slice) (db : Db) (now : Int) : Option (Int32 × (Slice → Bool)) :=
  if ParsedBaseMetaValue.live now (db.get key) then
    some ((storedMeta db key).count,
      fun member => (db.get (BaseDataKey key (storedMeta db key).version member)).isSome)
  else none

variable {db : Db} {key : Slice} {time now : Int}

@[simp] theorem contents_delete : contents key (db.delete key) now = none := by
  simp [contents, ParsedBaseMetaValue.live]

theorem same_of_dead (h : DeadMeta db key e.time) (now : Int) (hle : e.later ≤ now) :
    contents key db now = contents key (db.delete key) now := by
  obtain ⟨f, hget, hdead⟩ := h
  rw [contents_delete, contents, hget, ParsedBaseMetaValue.dead_mono hdead (e.time_le_later.trans hle)]
  rfl

/-- The member is stored under the version. -/
def Stored (db : Db) (key : Slice) (version : Int32) (member : Slice) : Prop :=
  (db.get (BaseDataKey key version member)).isSome = true

/-- When the answers to a call are alike, for a dead key and for one without a meta value.  `SAdd` adds the members
under version 0 and keeps the version and the expiry time of the dead meta value. -/
def Command.Conceals (db : Db) (key : Slice) : Command → Prop
  | .SAdd members _ =>
    let size := Int32.ofNat (firstOf id members).length
    size = 0 ∨ (storedMeta db key).timestamp = 0 ∧ ∀ member,
      ((storedMeta db key).version = 0 ∧ member ∈ members ∨ Stored db key (storedMeta db key).version member) ↔
        (member ∈ members ∨ Stored db key (nextVersion 0 e.time) member)
  | .ScanKeyNum _ => (storedMeta db key).timestamp = 0
  | _ => True

/-- What is written to create a set: its meta value, and its members under a version. -/
def created (key : Slice) (f : MetaFields) (version : Int32) (members : List Slice) :
    List (SortedMap.Op Slice Slice) :=
  .Put key f.encode :: members.map fun member => .Put (BaseDataKey key version member) []

theorem get_data_created (db : Db) (f : MetaFields) (version version' : Int32)
    (members : List Slice) (member : Slice) :
    ((db.write (created key f version' members)).get (BaseDataKey key version member)).isSome = true ↔
      version = version' ∧ member ∈ members ∨ Stored db key version member := by
  rw [created, SortedMap.write_cons, SortedMap.apply]
  by_cases hmem : version = version' ∧ member ∈ members
  · obtain ⟨rfl, hmem⟩ := id hmem
    have hp (m : Slice) :
        decide (m = member) = true ↔ BaseDataKey key version m = BaseDataKey key version member := by
      rw [decide_eq_true_iff, (baseDataKey_injective_data key version).eq_iff]
    rw [SortedMap.get_puts _ _ hp]
    have hfind : (members.reverse.find? fun m => m = member).isSome = true := by simpa using hmem
    obtain ⟨m, hm⟩ := Option.isSome_iff_exists.1 hfind
    simp [hm, hmem]
  · have hne (m : Slice) (hm : m ∈ members) : BaseDataKey key version' m ≠ BaseDataKey key version member := by
      intro heq
      obtain ⟨hversion, rfl⟩ := baseDataKey_injective heq
      exact hmem ⟨hversion.symm, hm⟩
    rw [SortedMap.get_puts_of_forall_ne hne, get_data_put_key]
    simp [hmem, Stored]

theorem contents_created (db : Db) (f : MetaFields) (version : Int32) (members : List Slice) :
    contents key (db.write (created key f version members)) now =
      if ParsedBaseMetaValue.live now (some f.encode) then
        some (f.count, fun member =>
          ((db.write (created key f version members)).get (BaseDataKey key f.version member)).isSome)
      else none := by
  have hkey : (db.write (created key f version members)).get key = some f.encode := by
    rw [created, SortedMap.write_cons, get_key_puts]
    exact SortedMap.get_put_self ..
  rw [contents, hkey, storedMeta_eq hkey]
  rfl

theorem stored_delete (version : Int32) (member : Slice) :
    Stored (db.delete key) key version member ↔ Stored db key version member := by
  rw [Stored, get_data_delete]
  rfl

/-- A set that is created over a dead meta value looks as one that is created without it. -/
theorem alike_created {f : MetaFields} {version : Int32} {members : List Slice} {later : Int}
    {s : Status} {o : Output} :
    Alike (contents key) later (some ⟨db.write (created key f 0 members), s, o⟩)
        (some ⟨(db.delete key).write (created key ⟨f.count, version, 0⟩ version members), s, o⟩) ↔
      f.count = 0 ∨ f.timestamp = 0 ∧ ∀ member,
        (f.version = 0 ∧ member ∈ members ∨ Stored db key f.version member) ↔
          (member ∈ members ∨ Stored db key version member) := by
  simp only [Alike, true_and, contents_created, MetaFields.live_encode_of_zero]
  by_cases hcount : f.count = 0
  · have hdead (now : Int) : ParsedBaseMetaValue.live now (some f.encode) = false := by
      rw [MetaFields.live_encode_eq_false]
      exact Or.inr hcount
    simp [hcount, hdead]
  · by_cases htime : f.timestamp = 0
    · have hlive (now : Int) : ParsedBaseMetaValue.live now (some f.encode) = true := by
        have hf : f = ⟨f.count, f.version, 0⟩ := by rw [← htime]
        rw [hf, MetaFields.live_encode_of_zero, decide_eq_true_iff]
        exact hcount
      have hmember (member : Slice) : ((db.write (created key f 0 members)).get
            (BaseDataKey key f.version member)).isSome = (((db.delete key).write
            (created key ⟨f.count, version, 0⟩ version members)).get (BaseDataKey key version member)).isSome ↔
          (f.version = 0 ∧ member ∈ members ∨ Stored db key f.version member ↔
            (member ∈ members ∨ Stored db key version member)) := by
        rw [Bool.eq_iff_iff, get_data_created, get_data_created, stored_delete]
        simp
      simp only [hlive, hcount, htime, if_true, decide_true, not_false_eq_true, ne_eq, false_or, true_and,
        Option.some.injEq, Prod.mk.injEq, funext_iff, hmember]
      exact ⟨fun h => h later le_rfl, fun h _ _ => h⟩
    · refine iff_of_false (fun h => ?_) (by simp [hcount, htime])
      -- The old expiry time comes, and the set is dead again.
      have hnow := h (max later (f.timestamp.toInt + 1)) (le_max_left ..)
      have hdead : ParsedBaseMetaValue.live (max later (f.timestamp.toInt + 1)) (some f.encode) = false := by
        rw [MetaFields.live_encode_eq_false]
        left
        simp [ParsedBaseMetaValue.IsStale, htime]
      simp [hdead, hcount] at hnow

/-- A call on a dead set answers as on one that is not there, under the condition of the call. -/
theorem alike_iff (h : DeadMeta db key e.time) (c : Command) :
    Alike (contents key) e.later (run e db key c) (run e (db.delete key) key c) ↔ c.Conceals e db key := by
  have hsame := same_of_dead e h
  obtain ⟨f, hget, hdead⟩ := id h
  have hnot := MetaFields.dead_of_not_live hdead
  cases c with
  | SAdd members ret =>
    have hrun : run e db key (.SAdd members ret) = some ⟨db.write (created key
        { f with count := Int32.ofNat (firstOf id members).length } 0 (firstOf id members)), .OK,
        .number (Int32.ofNat (firstOf id members).length).toInt⟩ := by
      simp only [run, SAdd, hget, MetaFields.new_encode, hnot, if_true]
      rfl
    have hrun' : run e (db.delete key) key (.SAdd members ret) = some ⟨(db.delete key).write (created key
        ⟨Int32.ofNat (firstOf id members).length, nextVersion 0 e.time, 0⟩ (nextVersion 0 e.time)
        (firstOf id members)), .OK, .number (Int32.ofNat (firstOf id members).length).toInt⟩ := by
      simp only [run, SAdd, SortedMap.get_delete_self]
      rfl
    rw [hrun, hrun', alike_created]
    simp only [FirstOf.mem_firstOf_id, Command.Conceals, storedMeta_eq hget, MetaFields.parsed_timestamp,
      MetaFields.parsed_version]
  | SCard ret =>
    by_cases hstale : f.parsed.IsStale e.time = true
    · simp [run, SCard, hget, MetaFields.new_encode, hstale, alike_iff_of_same hsame,
        Command.Conceals, Status.toClass]
    · have hzero : f.count = 0 := (MetaFields.live_encode_eq_false.1 hdead).resolve_left hstale
      simp [run, SCard, hget, MetaFields.new_encode, hstale, hzero, alike_iff_of_same hsame, Command.Conceals,
        Status.toClass]
  | SMembers members =>
    by_cases hstale : f.parsed.IsStale e.time = true
    · simp [run, SMembers, hget, MetaFields.new_encode, hstale, alike_iff_of_same hsame, Command.Conceals,
        Status.toClass]
    · have hzero : f.count = 0 := (MetaFields.live_encode_eq_false.1 hdead).resolve_left hstale
      simp [run, SMembers, hget, MetaFields.new_encode, hstale, hzero, alike_iff_of_same hsame, Command.Conceals]
  | ScanKeyNum keyinfo =>
    rw [run, run, alike_map_iff hsame fun _ _ heq => Output.keyinfo.inj heq, ScanKeyNum,
      ScanKeyNum, h.scanKeyNum_eq_iff]
    rfl
  | ScanKeys pattern keys =>
    rw [run, run, alike_map_iff hsame fun _ _ heq => Output.keys.inj heq, ScanKeys, ScanKeys, h.scanKeys_eq]
    exact iff_of_true rfl trivial
  | Expire ttl => simp [run, RedisSet.Expire, alike_iff_of_same hsame, Command.Conceals]
  | Del =>
    by_cases hstale : f.parsed.IsStale e.time = true
    · simp [run, RedisSet.Del, hget, MetaFields.new_encode, hstale, alike_iff_of_same hsame, Command.Conceals,
        Status.toClass]
    · have hzero : f.count = 0 := (MetaFields.live_encode_eq_false.1 hdead).resolve_left hstale
      simp [run, RedisSet.Del, hget, MetaFields.new_encode, hstale, hzero, alike_iff_of_same hsame, Command.Conceals]

end RedisSet

end RedisDb
