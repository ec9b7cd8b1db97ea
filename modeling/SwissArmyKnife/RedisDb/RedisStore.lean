import SwissArmyKnife.Lib.SortedMap
import SwissArmyKnife.RedisDb.MetaValue

/-!
# The store of one key

The store under sets and hashes maps byte strings to byte strings in bytewise order.  The meta value of a key is
stored under the key itself and its elements under data keys, which never meet; a scan of a version finds the elements
that are stored under it (`scanPrefix_eq`).
-/

namespace RedisDb

/-- The database under a type of keys. -/
abbrev Db := SortedMap Slice Slice

/-- The entries whose keys start with a prefix, as an iterator finds them from the prefix on. -/
def scanPrefix (db : Db) (start : Slice) : List (Slice × Slice) :=
  (db.seek start).takeWhile fun e => StartsWith e.1 start

variable {key : Slice} {version : Int32} {ν : Type*}

theorem baseDataKey_injective_data (key : Slice) (version : Int32) : Function.Injective (BaseDataKey key version) :=
  fun _ _ h => (baseDataKey_injective h).2

/-- The elements of a version are found by a scan, in order. -/
theorem scanPrefix_eq {db : Db} {elements : SortedMap Slice ν} {g : ν → Slice}
    (hdata : ∀ m, db.get (BaseDataKey key version m) = (elements.get m).map g) :
    scanPrefix db (BaseDataKey key version []) =
      elements.entries.map fun e => (BaseDataKey key version e.1, g e.2) := by
  have hscan := db.scan_eq_filter (p := fun k => StartsWith k (BaseDataKey key version []))
    (fun k hk => le_of_startsWith hk) fun a b ha hab hb => startsWith_of_le ha hab hb
  rw [scanPrefix, hscan]
  apply SortedMap.filter_eq_map (p := fun k => StartsWith k (BaseDataKey key version []))
  · intro a b hab
    exact baseDataKey_lt_iff.2 hab
  · rintro ⟨k, v⟩
    constructor
    · rintro ⟨hmem, hstarts⟩
      obtain ⟨m, rfl⟩ := startsWith_iff.1 hstarts
      have hget := SortedMap.get_eq_some_iff.2 hmem
      rw [← baseDataKey_eq_append, hdata] at hget
      obtain ⟨u, hu, rfl⟩ := Option.map_eq_some_iff.1 hget
      exact ⟨(m, u), SortedMap.get_eq_some_iff.1 hu, by rw [baseDataKey_eq_append]⟩
    · rintro ⟨⟨m, u⟩, hmem, heq⟩
      cases heq
      refine ⟨?_, startsWith_baseDataKey_iff.2 rfl⟩
      rw [← SortedMap.get_eq_some_iff, hdata, SortedMap.get_eq_some_iff.2 hmem]
      rfl

theorem get_data_put_key {db : Db} {value m : Slice} :
    (db.put key value).get (BaseDataKey key version m) = db.get (BaseDataKey key version m) := by
  rw [SortedMap.get_put, if_neg (baseDataKey_ne key version m)]

section Puts

variable {α : Type*} {f : α → Slice} {g : α → ν} {h : ν → Slice}

/-- Storing elements does not touch the meta value. -/
theorem get_key_puts {db : Db} {l : List α} {g : α → Slice} :
    (db.write (l.map fun x => .Put (BaseDataKey key version (f x)) (g x))).get key = db.get key :=
  SortedMap.get_puts_of_forall_ne fun x _ => baseDataKey_ne key version (f x)

/-- Elements that are stored under a version are found there, and nothing else changes. -/
theorem get_data_puts {db : Db} {elements : SortedMap Slice ν} {l : List α}
    (hdata : ∀ m, db.get (BaseDataKey key version m) = (elements.get m).map h) (m : Slice) :
    (db.write (l.map fun x => .Put (BaseDataKey key version (f x)) (h (g x)))).get (BaseDataKey key version m) =
      ((elements.write (l.map fun x => .Put (f x) (g x))).get m).map h := by
  induction l generalizing db elements with
  | nil => exact hdata m
  | cons x l ih =>
    apply ih
    intro m
    rw [SortedMap.apply, SortedMap.apply, SortedMap.get_put, SortedMap.get_put]
    by_cases hm : m = f x
    · simp [hm]
    · rw [if_neg hm, if_neg fun hkey => hm (baseDataKey_injective_data key version hkey), hdata]

end Puts

end RedisDb
