import SwissArmyKnife.RedisDb.RedisKeys
import SwissArmyKnife.RedisDb.StringScans

/-!
# Scans for the keys of a type

`ScanKeys` reads every entry of a store as a meta value, the data entries among them, and reports the stored key of
each one that looks alive, if it matches.  For hashes and sets the stored key of a meta value is the key itself, and
the scan is right as long as no data entry looks alive (`exact_plain_iff`).  For lists and sorted sets it is an
encoded key, and the scan is right when there is nothing to report (`exact_encoded_iff`).
-/

namespace RedisDb

open FirstOf (firstOf)
open Replies (final)

/-! ### What a scan reads and reports -/

section Loop

variable {listed isMatch : Slice → Option Bool}

theorem scanKeys_eq_some_iff {l : List (Slice × Slice)} {keys r : List Slice} :
    scanKeys listed isMatch l keys = some r ↔
      (∀ e ∈ l, listed e.2 ≠ none ∧ (listed e.2 = some true → isMatch e.1 ≠ none)) ∧
        r = keys ++ (l.filter fun e => listed e.2 = some true ∧ isMatch e.1 = some true).map Prod.fst := by
  induction l generalizing keys with
  | nil => simp [scanKeys, eq_comm]
  | cons e l ih =>
    rw [scanKeys, List.forall_mem_cons]
    cases hlisted : listed e.2 with
    | none => simp
    | some b =>
      cases b with
      | false => simp [hlisted, ih]
      | true =>
        cases hmatch : isMatch e.1 with
        | none => simp
        | some b =>
          cases b with
          | false => simp [hlisted, hmatch, ih]
          | true => simp [hlisted, hmatch, ih]

/-- A scan that has a result has the same one when the parser is told less. -/
theorem scanKeys_mono {listed' : Slice → Option Bool} (h : ∀ value b, listed value = some b → listed' value = some b)
    {l : List (Slice × Slice)} {keys r : List Slice} (hr : scanKeys listed isMatch l keys = some r) :
    scanKeys listed' isMatch l keys = some r := by
  induction l generalizing keys with
  | nil => exact hr
  | cons e l ih =>
    rw [scanKeys] at hr
    rw [scanKeys]
    cases hlisted : listed e.2 with
    | none => simp [hlisted] at hr
    | some b =>
      rw [hlisted] at hr
      rw [h _ _ hlisted]
      cases b with
      | false => exact ih hr
      | true =>
        cases hmatch : isMatch e.1 with
        | none => simp [hmatch] at hr
        | some b =>
          rw [hmatch] at hr
          cases b with
          | false => exact ih hr
          | true => exact ih hr

end Loop

/-- A scan of a store, where an iterator shows the entries under encoded keys, and what it is for. -/
structure KeyScan (κ : Type*) where
  entries : List (κ × Slice)
  Encode : κ → Slice
  listed : Slice → Option Bool
  /-- The pattern is matched against the encoded keys. -/
  isMatch : Slice → Option Bool
  /-- The keys that calls were made on. -/
  keys : Set Slice
  /-- Where the meta value of a key is stored. -/
  metaKey : Slice → κ
  /-- Whether the pattern matches a key. -/
  wanted : Slice → Option Bool

namespace KeyScan

variable {κ : Type*}

def result (s : KeyScan κ) : Option (List Slice) :=
  scanKeys s.listed s.isMatch (s.entries.map fun e => (s.Encode e.1, e.2)) []

/-- The key has a meta value, and it is alive. -/
def Live (s : KeyScan κ) (key : Slice) : Prop :=
  key ∈ s.keys ∧ ∃ value, (s.metaKey key, value) ∈ s.entries ∧ s.listed value = some true

def Reports (s : KeyScan κ) (e : κ × Slice) : Prop :=
  e ∈ s.entries ∧ s.listed e.2 = some true ∧ s.isMatch (s.Encode e.1) = some true

/-- The scan gives the live keys that the pattern matches, each once, and every key it gives is that of a meta value,
as the user wrote it. -/
structure Exact (s : KeyScan κ) : Prop where
  result : ∃ keys, s.result = some keys ∧ keys.Nodup ∧ ∀ key, key ∈ keys ↔ s.Live key ∧ s.wanted key = some true
  written : ∀ e, s.Reports e → ∃ key ∈ s.keys, e.1 = s.metaKey key ∧ s.Encode e.1 = key

/-- The entries up to where the scan ends or has no result. -/
def decoded (s : KeyScan κ) : List (κ × Slice) → List (κ × Slice)
  | [] => []
  | e :: iter =>
    e :: match s.listed e.2 with
      | none => []
      | some false => s.decoded iter
      | some true => if s.isMatch (s.Encode e.1) = none then [] else s.decoded iter

/-- No data entry is decoded as a meta value. -/
def OnlyMeta (s : KeyScan κ) : Prop := ∀ e ∈ s.decoded s.entries, ∃ key ∈ s.keys, e.1 = s.metaKey key

/-- Every value is long enough for the parser. -/
def Readable (s : KeyScan κ) : Prop := ∀ e ∈ s.entries, s.listed e.2 ≠ none

theorem result_eq_some_iff {s : KeyScan κ} {keys : List Slice} : s.result = some keys ↔
    s.Readable ∧ (∀ e ∈ s.entries, s.listed e.2 = some true → s.isMatch (s.Encode e.1) ≠ none) ∧
      keys = (s.entries.filter fun e => s.listed e.2 = some true ∧ s.isMatch (s.Encode e.1) = some true).map
        fun e => s.Encode e.1 := by
  rw [result, scanKeys_eq_some_iff, List.filter_map, List.map_map, List.nil_append, List.forall_mem_map,
    ← and_assoc]
  exact and_congr_left' forall₂_and

theorem mem_result_iff {s : KeyScan κ} {keys : List Slice} (h : s.result = some keys) {key : Slice} :
    key ∈ keys ↔ ∃ e, s.Reports e ∧ s.Encode e.1 = key := by
  rw [(result_eq_some_iff.1 h).2.2]
  simp [Reports, and_assoc]

theorem decoded_of_result {s : KeyScan κ} {keys : List Slice} (h : s.result = some keys) :
    s.decoded s.entries = s.entries := by
  obtain ⟨hread, hmatch, -⟩ := result_eq_some_iff.1 h
  have hall (l : List (κ × Slice)) (hl : ∀ e ∈ l, s.listed e.2 ≠ none ∧
      (s.listed e.2 = some true → s.isMatch (s.Encode e.1) ≠ none)) : s.decoded l = l := by
    induction l with
    | nil => rfl
    | cons e l ih =>
      obtain ⟨he, hl⟩ := List.forall_mem_cons.1 hl
      rw [decoded, ih hl]
      cases hlisted : s.listed e.2 with
      | none => exact absurd hlisted he.1
      | some b =>
        cases b with
        | false => rfl
        | true => simp [he.2 hlisted]
  exact hall s.entries fun e he => ⟨hread e he, hmatch e he⟩

/-- The scan is right when the reported entries are the meta values that are wanted. -/
theorem exact_iff {s : KeyScan κ} (hinj : Function.Injective s.metaKey) (hnodup : (s.entries.map Prod.fst).Nodup) :
    s.Exact ↔
    s.Readable ∧ (∀ e ∈ s.entries, s.listed e.2 = some true → s.isMatch (s.Encode e.1) ≠ none) ∧
      (∀ e, s.Reports e → ∃ key ∈ s.keys, e.1 = s.metaKey key ∧ s.Encode e.1 = key ∧ s.wanted key = some true) ∧
        ∀ key, s.Live key → s.wanted key = some true → s.isMatch (s.Encode (s.metaKey key)) = some true := by
  constructor
  · rintro ⟨⟨keys, hresult, -, hkeys⟩, hwritten⟩
    obtain ⟨hread, hmatch, -⟩ := result_eq_some_iff.1 hresult
    refine ⟨hread, hmatch, fun e he => ?_, fun key hlive hwanted => ?_⟩
    · obtain ⟨key, hkey, hmeta, hencode⟩ := hwritten e he
      have hmem : key ∈ keys := (mem_result_iff hresult).2 ⟨e, he, hencode⟩
      exact ⟨key, hkey, hmeta, hencode, ((hkeys key).1 hmem).2⟩
    · obtain ⟨e, he, hencode⟩ := (mem_result_iff hresult).1 ((hkeys key).2 ⟨hlive, hwanted⟩)
      obtain ⟨key', -, hmeta, hencode'⟩ := hwritten e he
      rw [← hencode, hencode', ← hmeta]
      exact he.2.2
  · rintro ⟨hread, hmatch, hreports, hlive⟩
    have hresult := result_eq_some_iff.2 ⟨hread, hmatch, rfl⟩
    refine ⟨⟨_, hresult, ?_, fun key => ?_⟩, fun e he => ?_⟩
    · -- a reported key determines where its meta value is stored
      refine List.Nodup.map_on (fun a ha b hb hencode => ?_) (List.Nodup.of_map _ hnodup |>.filter _)
      have hreported (e : κ × Slice) (he : e ∈ s.entries.filter fun e =>
          s.listed e.2 = some true ∧ s.isMatch (s.Encode e.1) = some true) : e ∈ s.entries ∧
            e.1 = s.metaKey (s.Encode e.1) := by
        obtain ⟨hmem, hp⟩ := List.mem_filter.1 he
        obtain ⟨key, -, hmeta, rfl, -⟩ := hreports e ⟨hmem, of_decide_eq_true hp⟩
        exact ⟨hmem, hmeta⟩
      obtain ⟨ha, hkeya⟩ := hreported a ha
      obtain ⟨hb, hkeyb⟩ := hreported b hb
      refine List.inj_on_of_nodup_map hnodup ha hb ?_
      rw [hkeya, hkeyb, hencode]
    · rw [mem_result_iff hresult]
      constructor
      · rintro ⟨e, he, hencode⟩
        obtain ⟨key', hkey, hmeta, hencode', hwanted⟩ := hreports e he
        obtain rfl : key' = key := hencode'.symm.trans hencode
        exact ⟨⟨hkey, e.2, hmeta ▸ he.1, he.2.1⟩, hwanted⟩
      · rintro ⟨hlive', hwanted⟩
        obtain ⟨-, value, hmem, hlisted⟩ := id hlive'
        have he : s.Reports (s.metaKey key, value) := ⟨hmem, hlisted, hlive key hlive' hwanted⟩
        obtain ⟨key', -, hmeta, hencode, -⟩ := hreports _ he
        exact ⟨_, he, hencode.trans (hinj hmeta).symm⟩
    · obtain ⟨key, hkey, hmeta, hencode, -⟩ := hreports e he
      exact ⟨key, hkey, hmeta, hencode⟩

/-- A scan that is right decodes every entry. -/
theorem exact_onlyMeta_iff {s : KeyScan κ} : s.Exact ∧ s.OnlyMeta ↔
    s.Exact ∧ ∀ e ∈ s.entries, ∃ key ∈ s.keys, e.1 = s.metaKey key := by
  refine and_congr_right fun h => ?_
  obtain ⟨keys, hresult, -⟩ := h.result
  rw [OnlyMeta, decoded_of_result hresult]

/-- A scan of a store where a meta value is stored under the key itself. -/
def plain (entries : List (Slice × Slice)) (keys : Set Slice) (listed isMatch : Slice → Option Bool) :
    KeyScan Slice :=
  ⟨entries, id, listed, isMatch, keys, id, isMatch⟩

theorem result_plain (entries : List (Slice × Slice)) (keys : Set Slice) (listed isMatch : Slice → Option Bool) :
    (plain entries keys listed isMatch).result = scanKeys listed isMatch entries [] := by
  have hmap : entries.map (fun e => (id e.1, e.2)) = entries := List.map_id _
  rw [result, plain, hmap]

theorem exact_plain_iff {entries : List (Slice × Slice)} (hnodup : (entries.map Prod.fst).Nodup) {keys : Set Slice}
    {listed isMatch : Slice → Option Bool} : (plain entries keys listed isMatch).Exact ↔
      (plain entries keys listed isMatch).Readable ∧
        (∀ e ∈ entries, listed e.2 = some true → isMatch e.1 ≠ none) ∧
          ∀ e ∈ entries, listed e.2 = some true → isMatch e.1 = some true → e.1 ∈ keys := by
  rw [exact_iff Function.injective_id hnodup]
  refine and_congr_right fun _ => and_congr_right fun _ => ?_
  constructor
  · rintro ⟨hreports, -⟩ e he hlisted hmatch
    obtain ⟨key, hkey, hmeta, -⟩ := hreports e ⟨he, hlisted, hmatch⟩
    exact hmeta ▸ hkey
  · intro h
    refine ⟨fun e he => ⟨e.1, h e he.1 he.2.1 he.2.2, rfl, rfl, he.2.2⟩, fun key _ hwanted => hwanted⟩

/-- Where an encoded key is never the key itself, the scan is right when it reports nothing and nothing is wanted. -/
theorem exact_encoded_iff {s : KeyScan κ} (hinj : Function.Injective s.metaKey)
    (hnodup : (s.entries.map Prod.fst).Nodup) (hencode : ∀ key, s.Encode (s.metaKey key) ≠ key)
    (hmatch : ∀ k, s.isMatch (s.Encode k) ≠ none) :
    s.Exact ↔ s.Readable ∧ (∀ e, ¬s.Reports e) ∧ ∀ key, s.Live key → s.wanted key ≠ some true := by
  rw [exact_iff hinj hnodup]
  refine and_congr_right fun _ => ?_
  constructor
  · rintro ⟨-, hreports, hlive⟩
    have hnone (e : κ × Slice) (he : s.Reports e) : False := by
      obtain ⟨key, -, hmeta, hkey, -⟩ := hreports e he
      exact hencode key (hmeta ▸ hkey)
    refine ⟨hnone, fun key hkey hwanted => ?_⟩
    obtain ⟨-, value, hmem, hlisted⟩ := id hkey
    exact hnone _ ⟨hmem, hlisted, hlive key hkey hwanted⟩
  · rintro ⟨hnone, hwanted⟩
    exact ⟨fun e _ _ => hmatch e.1, fun e he => absurd he (hnone e), fun key hkey h => absurd h (hwanted key hkey)⟩

end KeyScan

/-! ### What calls on hashes and sets write -/

/-- The count is read from the first four bytes; there is no result when a value is shorter than that. -/
def ParsedBaseMetaValue.listedChecked (time : Int) (value : Slice) : Option Bool :=
  if 4 ≤ value.length then ParsedBaseMetaValue.listed time value else none

theorem ParsedBaseMetaValue.listedChecked_ne_none_iff {time : Int} {value : Slice} :
    ParsedBaseMetaValue.listedChecked time value ≠ none ↔ 4 ≤ value.length := by
  rw [ParsedBaseMetaValue.listedChecked]
  split <;> simp_all [ParsedBaseMetaValue.listed]

/-- An entry as calls on some keys write it: a meta value under a key, or one of the values under a data key. -/
def WrittenEntry (keys values : Set Slice) (e : Slice × Slice) : Prop :=
  e.1 ∈ keys ∧ 4 ≤ e.2.length ∨ e.2 ∈ values ∧ ∃ key ∈ keys, ∃ version data, e.1 = BaseDataKey key version data

/-- A store with what a call on a key may have written. -/
def Grows (key : Slice) (values : Set Slice) (db db' : Db) : Prop :=
  ∀ e ∈ db'.entries, e ∈ db.entries ∨ WrittenEntry {key} values e

def Writes (key : Slice) (values : Set Slice) : SortedMap.Op Slice Slice → Prop
  | .Put k value => WrittenEntry {key} values (k, value)
  | .Delete _ => True

section Writes

variable {key : Slice} {values : Set Slice} {db : Db}

theorem grows_refl : Grows key values db db := fun _ he => Or.inl he

theorem grows_write {batch : List (SortedMap.Op Slice Slice)} (h : ∀ o ∈ batch, Writes key values o) :
    Grows key values db (db.write batch) := fun e he =>
  (SortedMap.mem_write he).imp_right fun he => h (.Put e.1 e.2) he

/-- Every meta value has a field written to it. -/
theorem writes_overwrite (str : Slice) (offset : Nat) (field : UInt32) :
    Writes key values (.Put key (overwrite str offset (EncodeFixed32 field))) := by
  refine Or.inl ⟨rfl, ?_⟩
  have hlength : (EncodeFixed32 field).length = 4 := length_encodeFixed32 field
  simp only [overwrite, List.length_append, hlength]
  omega

theorem writes_new (count : UInt32) (time : Int) :
    Writes key values (.Put key ((BaseMetaValue.new (EncodeFixed32 count)).UpdateVersion time).Encode) := by
  refine Or.inl ⟨rfl, ?_⟩
  simp [BaseMetaValue.new, BaseMetaValue.UpdateVersion, BaseMetaValue.Encode]

theorem writes_data {value : Slice} (hvalue : value ∈ values) (version : Int32) (data : Slice) :
    Writes key values (.Put (BaseDataKey key version data) value) := Or.inr ⟨hvalue, key, rfl, version, data, rfl⟩

end Writes

namespace RedisHash

/-- The values that a call puts under data keys. -/
def Call.values : Call → List Slice
  | .HSet _ value => [value]
  | .HMSet fvs => fvs.map FieldValue.value
  | _ => []

variable {key : Slice} {values : Set Slice} {db : Db}

theorem grows_hSet (io : Nat → Option Failure) (memory : UInt32) (time later : Int) (field : Slice) {value : Slice}
    (hvalue : value ∈ values) : Grows key values db (HSet io memory db key time later field value).db := by
  have hdata (version : Int32) : Writes key values (.Put (BaseDataKey key version field) value) :=
    writes_data hvalue version field
  rw [HSet]
  cases Get (io 0) db key with
  | error e => exact grows_refl
  | notFound => exact grows_write (List.forall_mem_cons.2 ⟨writes_new .., List.forall_mem_singleton.2 (hdata _)⟩)
  | ok metavalue =>
    dsimp only
    split
    · exact grows_write (List.forall_mem_cons.2 ⟨writes_overwrite .., List.forall_mem_singleton.2 (hdata _)⟩)
    · cases Get (io 1) db (BaseDataKey key (ParsedBaseMetaValue.new metavalue).version field) with
      | error e => exact grows_refl
      | notFound =>
        exact grows_write (List.forall_mem_cons.2 ⟨writes_overwrite .., List.forall_mem_singleton.2 (hdata _)⟩)
      | ok dataValue =>
        dsimp only
        split
        · exact grows_refl
        · exact grows_write (List.forall_mem_singleton.2 (hdata _))

theorem grows_hMSet (io : Nat → Option Failure) (memory : UInt32) (time later : Int) {fvs : List FieldValue}
    (hvalues : ∀ fv ∈ fvs, fv.value ∈ values) : Grows key values db (HMSet io memory db key time later fvs).db := by
  have hputs (version : Int32) : ∀ o ∈ (lastOf fvs).map fun fv => SortedMap.Op.Put (BaseDataKey key version fv.field)
      fv.value, Writes key values o := by
    rw [List.forall_mem_map]
    intro fv hfv
    have hmem : fv ∈ fvs := List.mem_reverse.1 (FirstOf.mem_of_mem_firstOf hfv)
    exact writes_data (hvalues fv hmem) version fv.field
  rw [HMSet]
  cases Get (io 0) db key with
  | error e => exact grows_refl
  | notFound => exact grows_write (List.forall_mem_cons.2 ⟨writes_new .., hputs _⟩)
  | ok metavalue =>
    dsimp only
    split
    · exact grows_write (List.forall_mem_cons.2 ⟨writes_overwrite .., hputs _⟩)
    · split
      · exact grows_refl
      · refine grows_write fun o ho => ?_
        rcases List.mem_append.1 ho with ho | ho
        · exact hputs _ o ho
        · rw [List.mem_singleton.1 ho]
          exact writes_overwrite ..

theorem grows_hDel (io : Nat → Option Failure) (time : Int) (fields : List Slice) :
    Grows key values db (HDel io db key time fields).db := by
  rw [HDel]
  cases Get (io 0) db key with
  | error e => exact grows_refl
  | notFound => exact grows_refl
  | ok metavalue =>
    dsimp only
    split
    · exact grows_refl
    · split
      · exact grows_refl
      · refine grows_write fun o ho => ?_
        rcases List.mem_append.1 ho with ho | ho
        · obtain ⟨k, -, rfl⟩ := List.mem_map.1 ho
          trivial
        · rw [List.mem_singleton.1 ho]
          exact writes_overwrite ..

theorem grows_del (io : Nat → Option Failure) (time : Int) : Grows key values db (Del io db key time).db := by
  rw [Del]
  cases Get (io 0) db key with
  | error e => exact grows_refl
  | notFound => exact grows_refl
  | ok metavalue =>
    dsimp only
    split
    · exact grows_refl
    · split
      · exact grows_refl
      · refine grows_write fun o ho => ?_
        rcases List.mem_cons.1 ho with rfl | ho
        · trivial
        · obtain ⟨e, -, rfl⟩ := List.mem_map.1 ho
          trivial

private theorem hGet_db (io : Nat → Option Failure) (time : Int) (field : Slice) :
    (HGet io db key time field).db = db := by
  rw [HGet]
  cases Get (io 0) db key with
  | error e => rfl
  | notFound => rfl
  | ok metavalue =>
    dsimp only
    split
    · rfl
    · split
      · rfl
      · split <;> rfl

private theorem hMGet_db (io : Nat → Option Failure) (time : Int) (fields : List Slice) :
    (HMGet io db key time fields).db = db := by
  rw [HMGet]
  cases Get (io 0) db key with
  | error e => rfl
  | notFound => rfl
  | ok metavalue =>
    dsimp only
    split
    · rfl
    · split <;> rfl

private theorem hGetall_db (io : Nat → Option Failure) (time : Int) : (HGetall io db key time).db = db := by
  rw [HGetall]
  cases Get (io 0) db key with
  | error e => rfl
  | notFound => rfl
  | ok metavalue =>
    dsimp only
    split
    · rfl
    · split <;> rfl

theorem grows_outcome (key : Slice) (s : State) (a : Action) :
    Grows key {value | value ∈ a.call.values} s.db (outcome key s a).db := by
  obtain ⟨call, wait, lag, io, memory⟩ := a
  cases call with
  | HSet field value => exact grows_hSet io memory _ _ field (List.mem_singleton_self value)
  | HMSet fvs => exact grows_hMSet io memory _ _ fun fv hfv => List.mem_map_of_mem hfv
  | HDel fields => exact grows_hDel io _ fields
  | Del => exact grows_del io _
  | HGet field =>
    have hdb : (outcome key s ⟨.HGet field, wait, lag, io, memory⟩).db = s.db := hGet_db io _ field
    exact hdb ▸ grows_refl
  | HMGet fields =>
    have hdb : (outcome key s ⟨.HMGet fields, wait, lag, io, memory⟩).db = s.db := hMGet_db io _ fields
    exact hdb ▸ grows_refl
  | HExists field =>
    have hdb : (outcome key s ⟨.HExists field, wait, lag, io, memory⟩).db = s.db := hGet_db io _ field
    exact hdb ▸ grows_refl
  | HGetall =>
    have hdb : (outcome key s ⟨.HGetall, wait, lag, io, memory⟩).db = s.db := hGetall_db io _
    exact hdb ▸ grows_refl

/-- The state after some calls, each on a key of its own. -/
def after (clock : Int) (as : List (Slice × Action)) : State :=
  final (fun s a => step a.1 s a.2) ⟨clock, .empty⟩ as

end RedisHash

namespace RedisSet

variable {key : Slice} {values : Set Slice} {db : Db}

theorem grows_sAdd (time : Int) (members : List Slice) : Grows key {[]} db (SAdd db key time members).1 := by
  have hputs (version : Int32) (l : List Slice) :
      ∀ o ∈ l.map fun member => SortedMap.Op.Put (BaseDataKey key version member) [], Writes key {[]} o := by
    rw [List.forall_mem_map]
    intro member _
    exact writes_data rfl version member
  rw [SAdd]
  cases db.get key with
  | none => exact grows_write (List.forall_mem_cons.2 ⟨writes_new .., hputs _ _⟩)
  | some metavalue =>
    dsimp only
    split
    · exact grows_write (List.forall_mem_cons.2 ⟨writes_overwrite .., hputs _ _⟩)
    · split
      · exact grows_refl
      · refine grows_write fun o ho => ?_
        rcases List.mem_append.1 ho with ho | ho
        · exact hputs _ _ o ho
        · rw [List.mem_singleton.1 ho]
          exact writes_overwrite ..

private theorem grows_put (str : Slice) (offset : Nat) (field : UInt32) :
    Grows key values db (db.put key (overwrite str offset (EncodeFixed32 field))) := by
  have hwrite : db.put key (overwrite str offset (EncodeFixed32 field)) =
      db.write [.Put key (overwrite str offset (EncodeFixed32 field))] := rfl
  rw [hwrite]
  exact grows_write (List.forall_mem_singleton.2 (writes_overwrite ..))

theorem grows_del (time later : Int) : Grows key values db (Del db key time later).1 := by
  rw [Del]
  cases db.get key with
  | none => exact grows_refl
  | some metavalue =>
    dsimp only
    split
    · exact grows_refl
    · split
      · exact grows_refl
      · exact grows_put _ _ _

theorem grows_setExpiry (time : Int) (timestamp : Int32) : Grows key values db (setExpiry db key time timestamp) := by
  rw [setExpiry]
  cases db.get key with
  | none => exact grows_refl
  | some metavalue =>
    dsimp only
    split
    · exact grows_refl
    · exact grows_put _ _ _

theorem grows_step (key : Slice) (s : State) (a : Action) :
    Grows key {[]} s.db (step key s a).1.db := by
  cases a with
  | SAdd members => exact grows_sAdd s.clock members
  | Del lag => exact grows_del s.clock (s.clock + lag)
  | setExpiry timestamp => exact grows_setExpiry s.clock timestamp
  | SCard => exact grows_refl
  | SMembers => exact grows_refl
  | wait duration => exact grows_refl

/-- The state after some calls, each on a key of its own. -/
def after (clock : Int) (as : List (Slice × Action)) : State :=
  final (fun s a => step a.1 s a.2) ⟨clock, .empty⟩ as

end RedisSet

/-- What a store holds after calls, each of which may have written to its key. -/
theorem written_of_final {σ α ρ : Type*} {step : σ → α → σ × ρ} (db : σ → Db) (key : α → Slice)
    (values : α → Set Slice) (hstep : ∀ s a, Grows (key a) (values a) (db s) (db (step s a).1)) {s : σ} {as : List α}
    {e : Slice × Slice} (he : e ∈ (db (final step s as)).entries) :
    e ∈ (db s).entries ∨ WrittenEntry {k | ∃ a ∈ as, key a = k} {value | ∃ a ∈ as, value ∈ values a} e := by
  induction as generalizing s with
  | nil => exact Or.inl he
  | cons a as ih =>
    rcases ih he with he | he
    · rcases hstep s a e he with he | ⟨hkey, hlength⟩ | ⟨hvalue, key', hkey, hdata⟩
      · exact Or.inl he
      · exact Or.inr (Or.inl ⟨⟨a, List.mem_cons_self .., hkey.symm⟩, hlength⟩)
      · exact Or.inr (Or.inr ⟨⟨a, List.mem_cons_self .., hvalue⟩, key', ⟨a, List.mem_cons_self .., hkey.symm⟩, hdata⟩)
    · rcases he with ⟨⟨b, hb, hkey⟩, hlength⟩ | ⟨⟨b, hb, hvalue⟩, key', ⟨c, hc, hkey⟩, hdata⟩
      · exact Or.inr (Or.inl ⟨⟨b, List.mem_cons_of_mem _ hb, hkey⟩, hlength⟩)
      · exact Or.inr (Or.inr ⟨⟨b, List.mem_cons_of_mem _ hb, hvalue⟩, key',
          ⟨c, List.mem_cons_of_mem _ hc, hkey⟩, hdata⟩)

/-! ### The scans of each type -/

section Scans

variable (beyond : Slice → Nat → UInt8) (time : Int) (pattern : Slice) (clock : Int)

/-- The scan for hashes after some calls. -/
def RedisHash.keyScan (as : List (Slice × RedisHash.Action)) : KeyScan Slice :=
  .plain (RedisHash.after clock as).db.entries {key | ∃ a ∈ as, a.1 = key} (ParsedBaseMetaValue.listedChecked time)
    fun key => StringMatchLen (beyond key) pattern key

/-- The scan for sets after some calls. -/
def RedisSet.keyScan (as : List (Slice × RedisSet.Action)) : KeyScan Slice :=
  .plain (RedisSet.after clock as).db.entries {key | ∃ a ∈ as, a.1 = key} (ParsedBaseMetaValue.listedChecked time)
    fun key => StringMatchLen (beyond key) pattern key

/-- The scan for lists after some calls. -/
def RedisList.keyScan (as : List RedisList.Action) : KeyScan ListsDataKey where
  entries := (final RedisList.step ⟨clock, .empty⟩ as).db.entries
  Encode := ListsDataKey.Encode
  listed := ParsedListsMetaValue.listed time
  isMatch := fun key => StringMatchLen (beyond key) pattern key
  keys := {key | ∃ a ∈ as, a.key = key}
  metaKey := RedisList.metaKey
  wanted := fun key => StringMatchLen (beyond key) pattern key

/-- The scan for sorted sets after some calls. -/
def RedisZset.keyScan {S : Type*} [LinearOrder S] (scores : Scores S) (as : List (RedisZset.Action S)) :
    KeyScan (ZSetsScoreKey S) where
  entries := (final (RedisZset.step scores) ⟨clock, .empty⟩ as).db.entries.map fun e => (e.1, e.2.data scores)
  Encode := ZSetsScoreKey.Encode scores
  listed := ParsedBaseMetaValue.listedChecked time
  isMatch := fun key => StringMatchLen (beyond key) ((RedisZset.metaKey scores pattern).Encode scores) key
  keys := {key | ∃ a ∈ as, a.key = key}
  metaKey := RedisZset.metaKey scores
  wanted := fun key => StringMatchLen (beyond key) pattern key

/-- The values under data keys can be read, and a data key is reported only if it is a key as well. -/
def KeyScan.DataSafe (s : KeyScan Slice) : Prop :=
  ∀ e ∈ s.entries, (∃ key ∈ s.keys, ∃ version data, e.1 = BaseDataKey key version data) →
    4 ≤ e.2.length ∧ (s.Reports e → e.1 ∈ s.keys)

/-- The matcher of patterns does not run on behind the end of the empty key. -/
def KeyScan.EmptyKeyRead (s : KeyScan Slice) : Prop := s.Live [] → s.wanted [] ≠ none

/-- Every value can be read, nothing is reported and nothing is wanted. -/
def KeyScan.Silent {κ : Type*} (s : KeyScan κ) : Prop :=
  s.Readable ∧ (∀ e, ¬s.Reports e) ∧ ∀ key, s.Live key → s.wanted key ≠ some true

variable {beyond time pattern clock}

theorem listed_of_checked (value : Slice) (b : Bool) (h : ParsedBaseMetaValue.listedChecked time value = some b) :
    ParsedBaseMetaValue.listed time value = some b := by
  rw [ParsedBaseMetaValue.listedChecked] at h
  split at h
  · exact h
  · cases h

/-- What `ScanKeys` returns for hashes, when every value can be read. -/
theorem RedisHash.scanKeys_of_result {as : List (Slice × RedisHash.Action)} {keys : List Slice}
    (h : (RedisHash.keyScan beyond time pattern clock as).result = some keys) :
    RedisHash.ScanKeys beyond time (RedisHash.after clock as).db pattern [] = some keys := by
  rw [RedisHash.keyScan, KeyScan.result_plain] at h
  exact scanKeys_mono listed_of_checked h

/-- The matcher of patterns has a result, unless the key is empty. -/
theorem stringMatchLen_ne_none {key : Slice} (hne : key ≠ []) : StringMatchLen (beyond key) pattern key ≠ none := by
  rw [StringMatch.stringMatchLen_of_ne_nil _ _ hne]
  exact Option.some_ne_none _

theorem baseDataKey_ne_nil (key : Slice) (version : Int32) (data : Slice) : BaseDataKey key version data ≠ [] := by
  have hlength := length_lt_baseDataKey key version data
  intro h
  simp [h] at hlength

/-- A scan for hashes or sets is right when no data entry is too short or looks like a live key that is wanted. -/
private theorem exact_written_iff {db : Db} {keys values : Set Slice}
    (hwritten : ∀ e ∈ db.entries, WrittenEntry keys values e) {s : KeyScan Slice}
    (hs : s = .plain db.entries keys (ParsedBaseMetaValue.listedChecked time)
      fun key => StringMatchLen (beyond key) pattern key) :
    s.Exact ↔ s.DataSafe ∧ s.EmptyKeyRead := by
  subst hs
  rw [KeyScan.exact_plain_iff db.nodup_keys]
  constructor
  · rintro ⟨hread, hmatch, hreports⟩
    refine ⟨fun e he _ => ⟨ParsedBaseMetaValue.listedChecked_ne_none_iff.1 (hread e he), fun hreported => ?_⟩, ?_⟩
    · exact hreports e he hreported.2.1 hreported.2.2
    · rintro ⟨-, value, hmem, hlisted⟩
      exact hmatch ([], value) hmem hlisted
  · rintro ⟨hdata, hempty⟩
    refine ⟨fun e he => ?_, fun e he hlisted => ?_, fun e he hlisted hmatch => ?_⟩
    · rw [KeyScan.plain, ParsedBaseMetaValue.listedChecked_ne_none_iff]
      rcases hwritten e he with ⟨-, hlength⟩ | ⟨-, hkey⟩
      · exact hlength
      · exact (hdata e he hkey).1
    · by_cases hnil : e.1 = []
      · rcases hwritten e he with ⟨hkey, -⟩ | ⟨-, key, -, version, data, hkey⟩
        · rw [hnil] at hkey ⊢
          exact hempty ⟨hkey, e.2, hnil ▸ he, hlisted⟩
        · exact absurd (hkey.symm.trans hnil) (baseDataKey_ne_nil key version data)
      · exact stringMatchLen_ne_none hnil
    · rcases hwritten e he with ⟨hkey, -⟩ | ⟨-, hkey⟩
      · exact hkey
      · exact (hdata e he hkey).2 ⟨he, hlisted, hmatch⟩

theorem RedisHash.written {as : List (Slice × RedisHash.Action)} {e : Slice × Slice}
    (he : e ∈ (RedisHash.after clock as).db.entries) :
    WrittenEntry {key | ∃ a ∈ as, a.1 = key} {value | ∃ a ∈ as, value ∈ a.2.call.values} e :=
  (written_of_final RedisHash.State.db Prod.fst
    (fun a : Slice × RedisHash.Action => {value | value ∈ a.2.call.values})
    (fun s a => RedisHash.grows_outcome a.1 s a.2) he).resolve_left List.not_mem_nil

theorem RedisSet.written {as : List (Slice × RedisSet.Action)} {e : Slice × Slice}
    (he : e ∈ (RedisSet.after clock as).db.entries) :
    WrittenEntry {key | ∃ a ∈ as, a.1 = key} {value | ∃ a ∈ as, value ∈ ({[]} : Set Slice)} e :=
  (written_of_final RedisSet.State.db Prod.fst (fun _ => {[]}) (fun s a => RedisSet.grows_step a.1 s a.2)
    he).resolve_left List.not_mem_nil

theorem RedisHash.exact_iff (as : List (Slice × RedisHash.Action)) :
    (RedisHash.keyScan beyond time pattern clock as).Exact ↔
      (RedisHash.keyScan beyond time pattern clock as).DataSafe ∧
        (RedisHash.keyScan beyond time pattern clock as).EmptyKeyRead :=
  exact_written_iff (fun _ he => RedisHash.written he) rfl

/-- The scan for hashes is right after every run that puts no value that is too short or looks alive. -/
theorem RedisHash.exact_of_values {as : List (Slice × RedisHash.Action)}
    (hvalues : ∀ a ∈ as, ∀ value ∈ a.2.call.values, ParsedBaseMetaValue.listedChecked time value = some false)
    (hempty : (RedisHash.keyScan beyond time pattern clock as).EmptyKeyRead) :
    (RedisHash.keyScan beyond time pattern clock as).Exact := by
  refine (RedisHash.exact_iff as).2 ⟨fun e he hkey => ?_, hempty⟩
  rcases RedisHash.written he with ⟨hmem, hlength⟩ | ⟨⟨a, ha, hvalue⟩, -⟩
  · exact ⟨hlength, fun _ => hmem⟩
  · have hlisted := hvalues a ha e.2 hvalue
    refine ⟨ParsedBaseMetaValue.listedChecked_ne_none_iff.1 (hlisted ▸ Option.some_ne_none _), fun hreported => ?_⟩
    have htrue : ParsedBaseMetaValue.listedChecked time e.2 = some true := hreported.2.1
    rw [hlisted] at htrue
    cases htrue

/-- The scan for sets is right when no member is stored: its entry has an empty value. -/
theorem RedisSet.exact_iff (as : List (Slice × RedisSet.Action)) :
    (RedisSet.keyScan beyond time pattern clock as).Exact ↔
      (∀ e ∈ (RedisSet.keyScan beyond time pattern clock as).entries, e.2 ≠ []) ∧
        (RedisSet.keyScan beyond time pattern clock as).EmptyKeyRead := by
  refine (exact_written_iff (fun _ he => RedisSet.written he) rfl).trans
    (and_congr_left' ⟨fun hsafe e he hnil => ?_, fun h e he hkey => ?_⟩)
  · rcases RedisSet.written he with ⟨-, hlength⟩ | ⟨-, hkey⟩
    · simp [hnil] at hlength
    · have hlength := (hsafe e he hkey).1
      simp [hnil] at hlength
  · rcases RedisSet.written he with ⟨hmem, hlength⟩ | ⟨⟨a, -, hvalue⟩, -⟩
    · exact ⟨hlength, fun _ => hmem⟩
    · exact absurd hvalue (h e he)

/-- A scan for sets that is right meets meta values only. -/
theorem RedisSet.onlyMeta_of_exact {as : List (Slice × RedisSet.Action)}
    (h : (RedisSet.keyScan beyond time pattern clock as).Exact) :
    ∀ e ∈ (RedisSet.keyScan beyond time pattern clock as).entries,
      e.1 ∈ (RedisSet.keyScan beyond time pattern clock as).keys := by
  intro e he
  rcases RedisSet.written he with ⟨hmem, -⟩ | ⟨⟨a, -, hvalue⟩, -⟩
  · exact hmem
  · exact absurd hvalue (((RedisSet.exact_iff as).1 h).1 e he)

theorem RedisList.exact_iff (as : List RedisList.Action) :
    (RedisList.keyScan beyond time pattern clock as).Exact ↔
      (RedisList.keyScan beyond time pattern clock as).Silent := by
  refine KeyScan.exact_encoded_iff (fun a b h => congrArg ListsDataKey.key h)
    (SortedMap.nodup_keys _) (fun key h => ?_)
    fun k => stringMatchLen_ne_none fun h => ?_
  · have hlength := congrArg List.length h
    simp [RedisList.keyScan, RedisList.metaKey, ListsDataKey.Encode] at hlength
    omega
  · have hlength := congrArg List.length h
    simp [RedisList.keyScan, ListsDataKey.Encode] at hlength

theorem RedisZset.exact_iff {S : Type*} [LinearOrder S] (scores : Scores S) (as : List (RedisZset.Action S)) :
    (RedisZset.keyScan beyond time pattern clock scores as).Exact ↔
      (RedisZset.keyScan beyond time pattern clock scores as).Silent := by
  refine KeyScan.exact_encoded_iff (fun a b h => congrArg ZSetsScoreKey.key h) ?_ (fun key => baseDataKey_ne key 0 _)
    fun k => stringMatchLen_ne_none (baseDataKey_ne_nil k.key k.version _)
  rw [RedisZset.keyScan, List.map_map]
  exact SortedMap.nodup_keys _

/-- When the scan of each type is right after a run of calls, and when it decodes no data entry besides. -/
theorem scanKeys_exact_iff {S : Type*} [LinearOrder S] (scores : Scores S) (beyond : Slice → Nat → UInt8) (time : Int)
    (pattern : Slice) (clock : Int) :
    (∀ as, let s := RedisHash.keyScan beyond time pattern clock as
      (s.Exact ↔ s.DataSafe ∧ s.EmptyKeyRead) ∧
        (s.Exact ∧ s.OnlyMeta ↔ (s.DataSafe ∧ s.EmptyKeyRead) ∧ ∀ e ∈ s.entries, e.1 ∈ s.keys) ∧
          ((∀ a ∈ as, ∀ value ∈ a.2.call.values, s.listed value = some false) → s.EmptyKeyRead → s.Exact)) ∧
      (∀ as, let s := RedisSet.keyScan beyond time pattern clock as
        (s.Exact ↔ (∀ e ∈ s.entries, e.2 ≠ []) ∧ s.EmptyKeyRead) ∧ (s.Exact → s.OnlyMeta)) ∧
        (∀ as, let s := RedisList.keyScan beyond time pattern clock as
          (s.Exact ↔ s.Silent) ∧
            (s.Exact ∧ s.OnlyMeta ↔ s.Silent ∧ ∀ e ∈ s.entries, ∃ key ∈ s.keys, e.1 = RedisList.metaKey key)) ∧
          ∀ as, let s := RedisZset.keyScan beyond time pattern clock scores as
            (s.Exact ↔ s.Silent) ∧
              (s.Exact ∧ s.OnlyMeta ↔
                s.Silent ∧ ∀ e ∈ s.entries, ∃ key ∈ s.keys, e.1 = RedisZset.metaKey scores key) := by
  refine ⟨fun as => ?_, fun as => ?_, fun as => ?_, fun as => ?_⟩
  · refine ⟨RedisHash.exact_iff as, ?_, RedisHash.exact_of_values⟩
    rw [KeyScan.exact_onlyMeta_iff, RedisHash.exact_iff]
    simp [RedisHash.keyScan, KeyScan.plain]
  · refine ⟨RedisSet.exact_iff as, fun h => ?_⟩
    have hmeta := RedisSet.onlyMeta_of_exact h
    exact (KeyScan.exact_onlyMeta_iff.2 ⟨h, fun e he => ⟨e.1, hmeta e he, rfl⟩⟩).2
  · refine ⟨RedisList.exact_iff as, ?_⟩
    rw [KeyScan.exact_onlyMeta_iff, RedisList.exact_iff]
    rfl
  · refine ⟨RedisZset.exact_iff scores as, ?_⟩
    rw [KeyScan.exact_onlyMeta_iff, RedisZset.exact_iff]
    rfl

/-- A field of the key `k` whose value is the meta value of a live key. -/
def lookalike : List (Slice × RedisHash.Action) :=
  [([107], { call := .HSet [102] (⟨1, 0, 0⟩ : MetaFields).encode, memory := 1 })]

/-- The scan for all keys gives the data key of the field besides the key. -/
theorem scanKeys_lookalike :
    RedisHash.ScanKeys (fun _ _ => 0) 0 (RedisHash.after 1 lookalike).db [42] [] =
        some [[1, 0, 0, 0, 107, 1, 0, 0, 0, 102], [107]] ∧
      ¬∀ (beyond : Slice → Nat → UInt8) (time : Int) (pattern : Slice) (clock : Int)
        (as : List (Slice × RedisHash.Action)), (RedisHash.keyScan beyond time pattern clock as).Exact := by
  have hscan : (RedisHash.keyScan (fun _ _ => 0) 0 [42] 1 lookalike).result =
      some [[1, 0, 0, 0, 107, 1, 0, 0, 0, 102], [107]] := by decide +kernel
  refine ⟨RedisHash.scanKeys_of_result hscan, fun h => ?_⟩
  obtain ⟨keys, hresult, -, hkeys⟩ := (h (fun _ _ => 0) 0 [42] 1 lookalike).result
  rw [hscan] at hresult
  cases hresult
  obtain ⟨⟨⟨a, ha, hkey⟩, -⟩, -⟩ := (hkeys [1, 0, 0, 0, 107, 1, 0, 0, 0, 102]).1 (List.mem_cons_self ..)
  obtain rfl := List.mem_singleton.1 ha
  exact absurd hkey (by decide)

end Scans

end RedisDb
