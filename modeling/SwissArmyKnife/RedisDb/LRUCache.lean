import Mathlib.Logic.Function.Basic
import SwissArmyKnife.Lib.KeyedSet
import SwissArmyKnife.Lib.Transition
import SwissArmyKnife.RedisDb.Coding

/-!
# A shard of the cache

`LRUCache` keeps its entries in a hash table and, from the oldest to the newest one, in a list.  `Insert` puts a new
entry into both, where the table does not take an entry that it finds already, and then removes at most the oldest
entry; its assertions compare the two sizes.  `Release` and `Erase` both remove the entry of a key.  In a run whose
calls all meet `Ok` none fails, and `Lookup` finds what should be there (`run_caches`).
-/

namespace RedisDb

open Transition

variable {V : Type}

/-- `deleter` says whether the function is set. -/
structure LRUHandle (V : Type) where
  key : Slice
  hash : ℕ
  value : V
  charge : UInt64
  deleter : Bool
deriving DecidableEq, Repr

/-- The table is given in the order in which a search goes through the entries of one hash, the newest first. -/
structure LRUCache (V : Type) where
  capacity : UInt64
  usage : UInt64
  lru : List (LRUHandle V)
  tables : List (LRUHandle V)
deriving DecidableEq, Repr

namespace LRUCache

/-- `memcmp` of as many bytes as the second key has.  There is no result when the first one is shorter, because the
comparison then reads past its end. -/
def Equal (x y : Slice) : Option Bool :=
  if x.length < y.length then none else some (x.take y.length = y)

/-- The place of the entry that the table finds, when no comparison on the way reads past an end. -/
def find (key : Slice) (hash : ℕ) : List (LRUHandle V) → Option (Option ℕ)
  | [] => some none
  | e :: tables =>
    if e.hash = hash then
      match Equal key e.key with
      | none => none
      | some true => some (some 0)
      | some false => (find key hash tables).map (Option.map (· + 1))
    else (find key hash tables).map (Option.map (· + 1))

/-- The cache after a call, the handle that it returns, the entries that it removed from the cache, and those that it
passed to their deleters. -/
structure Result (V : Type) where
  cache : LRUCache V
  handle : Option (LRUHandle V)
  removed : List (LRUHandle V)
  deleted : List (LRUHandle V)
deriving DecidableEq, Repr

def Lookup (cache : LRUCache V) (key : Slice) (hash : ℕ) : Option (Option (LRUHandle V)) :=
  (find key hash cache.tables).map fun found => found.bind fun i => cache.tables[i]?

/-- The loop at the end of `Insert`, which breaks after its first round.  It fails when the table does not have the
entry. -/
def evict (cache : LRUCache V) : Option (LRUCache V × List (LRUHandle V)) :=
  match cache.lru with
  | [] => some (cache, [])
  | front :: lru =>
    if cache.capacity < cache.usage then
      (find front.key front.hash cache.tables).bind fun found => found.map fun i =>
        ({ cache with usage := cache.usage - front.charge, lru := lru, tables := cache.tables.eraseIdx i }, [front])
    else some (cache, [])

/-- `assert(tables.size() == lru.size())`. -/
def sameSize (cache : LRUCache V) : Option Unit := if cache.tables.length = cache.lru.length then some () else none

/-- `none` when an assertion fails or a comparison reads past the end of a key. -/
def Insert (cache : LRUCache V) (key : Slice) (hash : ℕ) (value : V) (charge : UInt64) (deleter : Bool) :
    Option (Result V) := do
  cache.sameSize
  let e : LRUHandle V := ⟨key, hash, value, charge, deleter⟩
  let found ← find key hash cache.tables
  let cache : LRUCache V :=
    { cache with
      usage := cache.usage + charge
      tables := if found.isSome then cache.tables else e :: cache.tables
      lru := cache.lru ++ [e] }
  cache.sameSize
  let (cache, removed) ← evict cache
  cache.sameSize
  return ⟨cache, some e, removed, []⟩

/-- The body of `Release` and of `Erase`: the first entry of the list that has the key is removed. -/
def remove (cache : LRUCache V) (key : Slice) : Option (Result V) := do
  cache.sameSize
  match KeyedSet.find LRUHandle.key cache.lru key with
  | none => return ⟨cache, none, [], []⟩
  | some e =>
    let found ← find e.key e.hash cache.tables
    let i ← found
    let d ← cache.tables[i]?
    let cache : LRUCache V :=
      { cache with
        usage := cache.usage - e.charge
        lru := KeyedSet.erase LRUHandle.key cache.lru key
        tables := cache.tables.eraseIdx i }
    cache.sameSize
    return ⟨cache, none, [e], if d.deleter then [d] else []⟩

def Release (cache : LRUCache V) (handle : LRUHandle V) : Option (Result V) := cache.remove handle.key

def Erase (cache : LRUCache V) (key : Slice) : Option (Result V) := cache.remove key

/-! ### Runs -/

inductive Call (V : Type) where
  | Insert (key : Slice) (value : V) (charge : UInt64) (deleter : Bool)
  | Lookup (key : Slice)
  | Release (handle : LRUHandle V)
  | Erase (key : Slice)
deriving DecidableEq, Repr

/-- A cache, and what the calls should have left in it: for each key the value that was inserted most recently and not
erased, released or evicted since. -/
structure State (V : Type) where
  cache : LRUCache V
  current : Slice → Option V

def init (capacity : UInt64) : State V := ⟨⟨capacity, 0, [], []⟩, fun _ => none⟩

/-- The entries that are removed take the values of their keys along. -/
def forget (current : Slice → Option V) (removed : List (LRUHandle V)) (key : Slice) : Option V :=
  if removed.any fun e => e.key = key then none else current key

/-- The hash of a key is the same in all calls. -/
def step (hash : Slice → ℕ) (s : State V) : Call V → Outcome (State V)
  | .Insert key value charge deleter =>
    (Outcome.ofOption (s.cache.Insert key (hash key) value charge deleter)).bind fun r =>
      .next ⟨r.cache, forget (Function.update s.current key (some value)) r.removed⟩
  | .Lookup key => (Outcome.ofOption (s.cache.Lookup key (hash key))).bind fun _ => .next s
  | .Release handle =>
    (Outcome.ofOption (s.cache.Release handle)).bind fun r =>
      .next ⟨r.cache, Function.update s.current handle.key none⟩
  | .Erase key =>
    (Outcome.ofOption (s.cache.Erase key)).bind fun r => .next ⟨r.cache, Function.update s.current key none⟩

/-- The sum of the charges, which has no bound. -/
def charges (l : List (LRUHandle V)) : ℕ := (l.map fun e => e.charge.toNat).sum

/-- The table and the list have the same entries, one for each key, whose charges sum up to
the usage, which is within the capacity or that of a single entry. -/
structure Sound (cache : LRUCache V) : Prop where
  same : cache.tables.Perm cache.lru
  unique : KeyedSet.Unique LRUHandle.key cache.lru
  usage : cache.usage.toNat = charges cache.lru
  bounded : cache.usage ≤ cache.capacity ∨ ∃ e, cache.lru = [e] ∧ cache.capacity < e.charge

/-- No call fails, the cache is sound after each one, `Lookup` finds what should be there, and
`Insert` passes an entry whose key it has to the deleter once. -/
structure Caches (hash : Slice → ℕ) (capacity : UInt64) (as : List (Call V)) : Prop where
  noError : run (step hash) (init capacity) as ≠ .aborted
  sound : ∀ before s, before <+: as → run (step hash) (init capacity) before = .next s → Sound s.cache
  lookup : ∀ before key after s, as = before ++ .Lookup key :: after →
    run (step hash) (init capacity) before = .next s →
    ∃ r, s.cache.Lookup key (hash key) = some r ∧ r.map LRUHandle.value = s.current key
  replaced : ∀ before key value charge deleter after s, as = before ++ .Insert key value charge deleter :: after →
    run (step hash) (init capacity) before = .next s → ∀ e ∈ s.cache.lru, e.key = key → e.deleter = true →
    ∃ r, s.cache.Insert key (hash key) value charge deleter = some r ∧
      (r.deleted.filter fun d => d.key = key) = [e]

/-- `Equal` tells the key apart from the other keys that have its hash: none of them is longer, or a prefix of it. -/
def Apart (key : Slice) (hash : ℕ) (l : List (LRUHandle V)) : Prop :=
  ∀ e ∈ l, e.hash = hash → e.key ≠ key → Equal key e.key = some false

instance (key : Slice) (hash : ℕ) (l : List (LRUHandle V)) : Decidable (Apart key hash l) :=
  inferInstanceAs (Decidable (∀ e ∈ l, _))

/-- When the entries do not fit into the capacity, they do without the oldest one, or this leaves a single one. -/
def Fits (capacity : UInt64) : List (LRUHandle V) → Prop
  | [] => True
  | front :: lru =>
    capacity.toNat < charges (front :: lru) →
      Apart front.key front.hash lru ∧ (charges lru ≤ capacity.toNat ∨ lru.length ≤ 1)

instance (capacity : UInt64) : (l : List (LRUHandle V)) → Decidable (Fits capacity l)
  | [] => isTrue trivial
  | _ :: _ => inferInstanceAs (Decidable (_ → _))

/-- The key that is inserted is not there, the usage does not wrap around, and removing one entry is enough.  A key
that is looked up, or is there and is removed, is told apart from the others. -/
def Ok (hash : Slice → ℕ) (s : State V) : Call V → Prop
  | .Insert key value charge deleter =>
    (∀ e ∈ s.cache.lru, e.key ≠ key) ∧ Apart key (hash key) s.cache.lru ∧
      charges s.cache.lru + charge.toNat < 2 ^ 64 ∧
      Fits s.cache.capacity (s.cache.lru ++ [⟨key, hash key, value, charge, deleter⟩])
  | .Lookup key => Apart key (hash key) s.cache.lru
  | .Release handle => (∃ e ∈ s.cache.lru, e.key = handle.key) → Apart handle.key (hash handle.key) s.cache.lru
  | .Erase key => (∃ e ∈ s.cache.lru, e.key = key) → Apart key (hash key) s.cache.lru

instance (hash : Slice → ℕ) (s : State V) : (a : Call V) → Decidable (Ok hash s a)
  | .Insert _ _ _ _ => inferInstanceAs (Decidable (_ ∧ _))
  | .Lookup _ => inferInstanceAs (Decidable (Apart _ _ _))
  | .Release _ => inferInstanceAs (Decidable (_ → _))
  | .Erase _ => inferInstanceAs (Decidable (_ → _))

/-! ### The table -/

theorem equal_self (x : Slice) : Equal x x = some true := by
  unfold Equal
  simp

/-- The table finds the entry of a key that is told apart. -/
theorem find_of_apart {key : Slice} {hash : ℕ} {l : List (LRUHandle V)} (hhash : ∀ e ∈ l, e.key = key → e.hash = hash)
    (h : Apart key hash l) : find key hash l = some (l.findIdx? fun e => e.key = key) := by
  induction l with
  | nil => rfl
  | cons e l ih =>
    have hl := ih (fun d hd => hhash d (List.mem_cons_of_mem e hd)) (fun d hd => h d (List.mem_cons_of_mem e hd))
    rw [List.findIdx?_cons]
    unfold find
    by_cases hkey : e.key = key
    · subst hkey
      rw [if_pos (hhash e List.mem_cons_self rfl), equal_self]
      simp
    · by_cases hh : e.hash = hash
      · rw [if_pos hh, h e List.mem_cons_self hh hkey, hl]
        simp [hkey]
      · rw [if_neg hh, hl]
        simp [hkey]

/-- Each entry has the hash of its key. -/
def Hashed (hash : Slice → ℕ) (l : List (LRUHandle V)) : Prop := ∀ e ∈ l, e.hash = hash e.key

variable {hash : Slice → ℕ} {l : List (LRUHandle V)} {key : Slice}

theorem find_of_hashed (hh : Hashed hash l) (h : Apart key (hash key) l) :
    find key (hash key) l = some (l.findIdx? fun e => e.key = key) := by
  refine find_of_apart ?_ h
  rintro e he rfl
  exact hh e he

theorem findIdx?_of_find {e : LRUHandle V} (h : KeyedSet.find LRUHandle.key l key = some e) :
    ∃ i, (l.findIdx? fun e => e.key = key) = some i ∧ l[i]? = some e ∧
      l.eraseIdx i = KeyedSet.erase LRUHandle.key l key := by
  have hsome : (l.findIdx? fun e => e.key = key) = some (l.findIdx fun e => e.key = key) := by
    refine List.findIdx?_eq_some_of_exists ?_
    exact ⟨e, List.mem_of_find?_eq_some h, by simpa using KeyedSet.key_of_find h⟩
  refine ⟨l.findIdx fun e => e.key = key, hsome, ?_, ?_⟩
  · unfold KeyedSet.find at h
    rw [List.find?_eq_getElem?_findIdx] at h
    exact h
  · unfold KeyedSet.erase
    rw [List.eraseP_eq_eraseIdx, hsome]

theorem charges_perm {l' : List (LRUHandle V)} (h : l.Perm l') : charges l = charges l' := (h.map _).sum_nat

@[simp] theorem charges_cons (e : LRUHandle V) : charges (e :: l) = e.charge.toNat + charges l := by
  simp [charges]

@[simp] theorem charges_append (l' : List (LRUHandle V)) : charges (l ++ l') = charges l + charges l' := by
  simp [charges]

/-! ### The calls -/

/-- Two lists of one size with the same entries, whose charges are the usage. -/
structure Base (cache : LRUCache V) : Prop where
  same : cache.tables.Perm cache.lru
  unique : KeyedSet.Unique LRUHandle.key cache.lru
  usage : cache.usage.toNat = charges cache.lru

theorem Base.sameSize {cache : LRUCache V} (h : Base cache) : cache.sameSize = some () := by
  unfold LRUCache.sameSize
  rw [if_pos h.same.length_eq]

/-- The entry that the list has for a key is the one that the table finds. -/
theorem Base.find {cache : LRUCache V} (h : Base cache) (hh : Hashed hash cache.lru)
    (ha : Apart key (hash key) cache.lru) :
    LRUCache.find key (hash key) cache.tables = some (cache.tables.findIdx? fun e => e.key = key) :=
  find_of_hashed (fun e he => hh e (h.same.mem_iff.1 he)) (fun e he => ha e (h.same.mem_iff.1 he))

/-- What removing the entry of a key from both leaves. -/
theorem Base.erase {cache : LRUCache V} (h : Base cache) {e : LRUHandle V}
    (he : KeyedSet.find LRUHandle.key cache.lru key = some e) :
    Base { cache with
      usage := cache.usage - e.charge
      lru := KeyedSet.erase LRUHandle.key cache.lru key
      tables := KeyedSet.erase LRUHandle.key cache.tables key } := by
  have hsum : charges cache.lru = e.charge.toNat + charges (KeyedSet.erase LRUHandle.key cache.lru key) := by
    rw [charges_perm (KeyedSet.perm_cons_erase he), charges_cons]
  refine ⟨?_, h.unique.erase, ?_⟩
  · have hunique : KeyedSet.Unique LRUHandle.key cache.tables := (h.same.map _).nodup_iff.2 h.unique
    exact hunique.erase_perm h.same key
  · have hle : e.charge.toNat ≤ cache.usage.toNat := by
      rw [h.usage]
      omega
    show (cache.usage - e.charge).toNat = charges (KeyedSet.erase LRUHandle.key cache.lru key)
    rw [UInt64.toNat_sub_of_le _ _ (UInt64.le_iff_toNat_le.2 hle), h.usage]
    omega

/-- Entries that fit are within the capacity, and so is a single one, unless it is larger. -/
theorem bounded_of_fits {capacity usage : UInt64} (husage : usage.toNat = charges l)
    (h : charges l ≤ capacity.toNat ∨ l.length ≤ 1) : usage ≤ capacity ∨ ∃ e, l = [e] ∧ capacity < e.charge := by
  by_cases hle : charges l ≤ capacity.toNat
  · exact Or.inl (UInt64.le_iff_toNat_le.2 (by omega))
  · right
    match l, h.resolve_left hle with
    | [], _ => exact absurd (Nat.zero_le _) hle
    | [e], _ =>
      refine ⟨e, rfl, UInt64.lt_iff_toNat_lt.2 ?_⟩
      simpa [charges] using hle
    | _ :: _ :: _, hlen => simp at hlen

/-- The loop of `Insert` removes the oldest entry when the entries do not fit, and they fit then. -/
theorem Base.evict {cache : LRUCache V} (h : Base cache) (hh : Hashed hash cache.lru)
    (hfits : Fits cache.capacity cache.lru) : ∃ cache' removed, LRUCache.evict cache = some (cache', removed) ∧
      Sound cache' ∧ cache.lru = removed ++ cache'.lru := by
  unfold LRUCache.evict
  cases hlru : cache.lru with
  | nil =>
    refine ⟨cache, [], rfl, ⟨h.same, h.unique, h.usage, ?_⟩, by simp [hlru]⟩
    exact bounded_of_fits h.usage (Or.inr (by simp [hlru]))
  | cons front lru =>
    by_cases hover : cache.capacity < cache.usage
    · have hfind : KeyedSet.find LRUHandle.key cache.lru front.key = some front := by
        rw [hlru]
        exact List.find?_cons_of_pos (by simp)
      have herase : KeyedSet.erase LRUHandle.key cache.lru front.key = lru := by
        rw [hlru]
        exact List.eraseP_cons_of_pos (by simp)
      have hbase := h.erase hfind
      rw [herase] at hbase
      have hsum : cache.capacity.toNat < charges (front :: lru) := by
        rw [← hlru, ← h.usage]
        exact UInt64.lt_iff_toNat_lt.1 hover
      rw [hlru] at hfits
      obtain ⟨hapart, hrest⟩ := hfits hsum
      have hfront : front.hash = hash front.key := hh front (by simp [hlru])
      have hapart' : Apart front.key (hash front.key) cache.lru := by
        rw [hlru, ← hfront]
        intro e he
        rcases List.mem_cons.1 he with rfl | he
        · exact fun _ hne => absurd rfl hne
        · exact hapart e he
      have htables : KeyedSet.find LRUHandle.key cache.tables front.key = some front := by
        rw [h.unique.find_perm h.same, hfind]
      obtain ⟨i, hi, -, htaken⟩ := findIdx?_of_find htables
      refine ⟨{ cache with usage := cache.usage - front.charge, lru := lru, tables := cache.tables.eraseIdx i },
        [front], ?_, ?_, rfl⟩
      · dsimp only
        rw [if_pos hover, hfront, h.find hh hapart', hi]
        rfl
      · rw [htaken]
        exact ⟨hbase.same, hbase.unique, hbase.usage, bounded_of_fits hbase.usage hrest⟩
    · refine ⟨cache, [], if_neg hover, ⟨h.same, h.unique, h.usage, Or.inl ?_⟩, by simp [hlru]⟩
      rw [UInt64.lt_iff_toNat_lt] at hover
      rw [UInt64.le_iff_toNat_le]
      omega

/-- What the calls keep: the cache is sound, and it has what should be there. -/
structure Inv (hash : Slice → ℕ) (s : State V) : Prop where
  sound : Sound s.cache
  hashed : Hashed hash s.cache.lru
  current : ∀ key, s.current key = (KeyedSet.find LRUHandle.key s.cache.lru key).map LRUHandle.value

theorem Sound.base {cache : LRUCache V} (h : Sound cache) : Base cache := ⟨h.same, h.unique, h.usage⟩

theorem inv_init (capacity : UInt64) : Inv hash (init capacity : State V) := by
  refine ⟨⟨List.Perm.refl _, List.nodup_nil, rfl, Or.inl ?_⟩, nofun, fun _ => rfl⟩
  rw [UInt64.le_iff_toNat_le]
  exact Nat.zero_le _

variable {s s' : State V}

/-- The new entry is found by its key, and the others by theirs. -/
theorem find_append_singleton (hnew : ∀ d ∈ l, d.key ≠ key) {e : LRUHandle V} (he : e.key = key) (k : Slice) :
    KeyedSet.find LRUHandle.key (l ++ [e]) k = if k = key then some e else KeyedSet.find LRUHandle.key l k := by
  unfold KeyedSet.find
  rw [List.find?_append]
  by_cases hk : k = key
  · subst hk
    have hnone : (l.find? fun d => d.key = k) = none := by
      rw [List.find?_eq_none]
      intro d hd
      simpa using hnew d hd
    simp [hnone, he]
  · simp [hk, he, Ne.symm hk]

/-- What is left after the entries at the front are removed. -/
theorem find_of_append {removed rest : List (LRUHandle V)} (h : KeyedSet.Unique LRUHandle.key (removed ++ rest))
    (k : Slice) : KeyedSet.find LRUHandle.key rest k =
      if removed.any (fun e => e.key = k) then none else KeyedSet.find LRUHandle.key (removed ++ rest) k := by
  split
  · rename_i hany
    obtain ⟨e, he, hk⟩ := List.any_eq_true.1 hany
    rw [KeyedSet.find_eq_none]
    intro hmem
    unfold KeyedSet.Unique at h
    rw [List.map_append] at h
    exact List.disjoint_of_nodup_append h (List.mem_map.2 ⟨e, he, by simpa using hk⟩) hmem
  · rename_i hany
    have hnone : (removed.find? fun e => e.key = k) = none := by
      rw [List.find?_eq_none]
      intro e he hk
      exact hany (List.any_eq_true.2 ⟨e, he, hk⟩)
    unfold KeyedSet.find
    rw [List.find?_append, hnone, Option.none_or]

/-- A new entry in both. -/
theorem Base.insert {cache : LRUCache V} (h : Base cache) {e : LRUHandle V} (hnew : ∀ d ∈ cache.lru, d.key ≠ e.key)
    (hsum : charges cache.lru + e.charge.toNat < 2 ^ 64) :
    Base { cache with usage := cache.usage + e.charge, tables := e :: cache.tables, lru := cache.lru ++ [e] } := by
  refine ⟨(h.same.cons e).trans (List.perm_append_singleton e cache.lru).symm, ?_, ?_⟩
  · unfold KeyedSet.Unique
    rw [List.map_append, List.nodup_append]
    refine ⟨h.unique, by simp, ?_⟩
    intro k hk k' hk' heq
    obtain ⟨d, hd, rfl⟩ := List.mem_map.1 hk
    have : k' = e.key := by simpa using hk'
    exact hnew d hd (heq.trans this)
  · show (cache.usage + e.charge).toNat = charges (cache.lru ++ [e])
    rw [UInt64.toNat_add, h.usage, Nat.mod_eq_of_lt hsum, charges_append]
    simp [charges]

theorem Inv.insert (h : Inv hash s) {value : V} {charge : UInt64} {deleter : Bool}
    (hok : Ok hash s (.Insert key value charge deleter)) :
    ∃ r, s.cache.Insert key (hash key) value charge deleter = some r ∧
      Inv hash ⟨r.cache, forget (Function.update s.current key (some value)) r.removed⟩ := by
  obtain ⟨hnew, hapart, hsum, hfits⟩ := hok
  let e : LRUHandle V := ⟨key, hash key, value, charge, deleter⟩
  have hfind : LRUCache.find key (hash key) s.cache.tables = some none := by
    rw [h.sound.base.find h.hashed hapart, List.findIdx?_eq_none_iff.2]
    intro d hd
    simpa using hnew d (h.sound.same.mem_iff.1 hd)
  have hbase := @Base.insert V s.cache h.sound.base e hnew hsum
  have hhashed : Hashed hash (s.cache.lru ++ [e]) := by
    intro d hd
    rcases List.mem_append.1 hd with hd | hd
    · exact h.hashed d hd
    · rw [List.mem_singleton.1 hd]
  obtain ⟨cache', removed, hevict, hsound, happ⟩ := hbase.evict hhashed hfits
  replace happ : s.cache.lru ++ [e] = removed ++ cache'.lru := happ
  refine ⟨⟨cache', some e, removed, []⟩, ?_, hsound, ?_, ?_⟩
  · have hsize := hbase.sameSize
    have hsize' := hsound.base.sameSize
    dsimp only [e] at hsize hevict ⊢
    simp only [LRUCache.Insert, h.sound.base.sameSize, hfind, hsize, hevict, hsize', Option.bind_eq_bind,
      Option.bind_some, Option.isSome_none, Bool.false_eq_true, if_false]
    rfl
  · intro d hd
    exact hhashed d (happ ▸ List.mem_append_right removed hd)
  · intro k
    have hunique := hbase.unique
    replace hunique : KeyedSet.Unique LRUHandle.key (s.cache.lru ++ [e]) := hunique
    rw [happ] at hunique
    show forget (Function.update s.current key (some value)) removed k = _
    rw [find_of_append hunique, ← happ, find_append_singleton hnew rfl]
    unfold forget
    by_cases hany : (removed.any fun d => d.key = k) = true
    · rw [if_pos hany, if_pos hany]
      rfl
    · rw [if_neg hany, if_neg hany]
      by_cases hk : k = key
      · subst hk
        simp [e]
      · rw [Function.update_of_ne hk, if_neg hk]
        exact h.current k

theorem Inv.lookup (h : Inv hash s) (hok : Ok hash s (.Lookup key)) :
    ∃ r, s.cache.Lookup key (hash key) = some r ∧ r.map LRUHandle.value = s.current key := by
  unfold LRUCache.Lookup
  rw [h.sound.base.find h.hashed hok, h.current key, ← h.sound.unique.find_perm h.sound.same key]
  refine ⟨_, rfl, ?_⟩
  cases hfind : KeyedSet.find LRUHandle.key s.cache.tables key with
  | none =>
    have hnone : (s.cache.tables.findIdx? fun e => e.key = key) = none := by
      rw [List.findIdx?_eq_none_iff]
      unfold KeyedSet.find at hfind
      simpa using hfind
    rw [hnone]
    rfl
  | some e =>
    obtain ⟨i, hi, hget, -⟩ := findIdx?_of_find hfind
    rw [hi]
    simp [hget]

theorem Inv.remove (h : Inv hash s) (hok : (∃ e ∈ s.cache.lru, e.key = key) → Apart key (hash key) s.cache.lru) :
    ∃ r, s.cache.remove key = some r ∧ Inv hash ⟨r.cache, Function.update s.current key none⟩ := by
  have hcurrent : ∀ k, Function.update s.current key none k =
      (KeyedSet.find LRUHandle.key (KeyedSet.erase LRUHandle.key s.cache.lru key) k).map LRUHandle.value := by
    intro k
    by_cases hk : k = key
    · subst hk
      rw [Function.update_self, KeyedSet.find_erase_self h.sound.unique]
      rfl
    · rw [Function.update_of_ne hk, KeyedSet.find_erase_of_ne hk, h.current]
  cases hfind : KeyedSet.find LRUHandle.key s.cache.lru key with
  | none =>
    refine ⟨⟨s.cache, none, [], []⟩, ?_, h.sound, h.hashed, ?_⟩
    · simp [LRUCache.remove, h.sound.base.sameSize, hfind]
    · have hsame : KeyedSet.erase LRUHandle.key s.cache.lru key = s.cache.lru := by
        refine List.eraseP_of_forall_not ?_
        intro e he hkey
        exact KeyedSet.find_eq_none.1 hfind (List.mem_map.2 ⟨e, he, by simpa using hkey⟩)
      rw [hsame] at hcurrent
      exact hcurrent
  | some e =>
    have hmem := h.sound.unique.find_eq_some.1 hfind
    have hkey : e.key = key := hmem.2
    have htables : KeyedSet.find LRUHandle.key s.cache.tables key = some e := by
      rw [h.sound.unique.find_perm h.sound.same, hfind]
    obtain ⟨i, hi, hget, herase⟩ := findIdx?_of_find htables
    have hbase := h.sound.base.erase hfind
    have hsize := hbase.sameSize
    have hlook : LRUCache.find key (hash key) s.cache.tables = some (some i) := by
      rw [h.sound.base.find h.hashed (hok ⟨e, hmem⟩), hi]
    have hhash : e.hash = hash key := by rw [h.hashed e hmem.1, hkey]
    refine ⟨⟨{ s.cache with
      usage := s.cache.usage - e.charge
      lru := KeyedSet.erase LRUHandle.key s.cache.lru key
      tables := KeyedSet.erase LRUHandle.key s.cache.tables key }, none, [e], if e.deleter then [e] else []⟩,
      ?_, ⟨hbase.same, hbase.unique, hbase.usage, bounded_of_fits hbase.usage ?_⟩, ?_, hcurrent⟩
    · simp only [LRUCache.remove, h.sound.base.sameSize, hfind, hkey, hhash, hlook, hget, herase, hsize,
        Option.bind_eq_bind, Option.bind_some]
      rfl
    · have hperm := KeyedSet.perm_cons_erase hfind
      have hsum := charges_perm hperm
      rw [charges_cons] at hsum
      rcases h.sound.bounded with hle | ⟨d, hd, -⟩
      · left
        rw [UInt64.le_iff_toNat_le, h.sound.usage] at hle
        show charges (KeyedSet.erase LRUHandle.key s.cache.lru key) ≤ s.cache.capacity.toNat
        omega
      · right
        have hlen := hperm.length_eq
        have hone : s.cache.lru.length = 1 := by simp [hd]
        rw [List.length_cons] at hlen
        show (KeyedSet.erase LRUHandle.key s.cache.lru key).length ≤ 1
        omega
    · intro d hd
      exact h.hashed d (List.mem_of_mem_eraseP hd)

/-! ### Runs -/

/-- A call that meets the condition succeeds, and keeps what the calls keep. -/
theorem Inv.step (h : Inv hash s) {a : Call V} (hok : Ok hash s a) :
    ∃ s', LRUCache.step hash s a = .next s' ∧ Inv hash s' := by
  cases a with
  | Insert key value charge deleter =>
    obtain ⟨r, hr, hinv⟩ := h.insert hok
    exact ⟨_, by simp [LRUCache.step, hr, Outcome.ofOption, Outcome.bind], hinv⟩
  | Lookup key =>
    obtain ⟨r, hr, -⟩ := h.lookup hok
    exact ⟨s, by simp [LRUCache.step, hr, Outcome.ofOption, Outcome.bind], h⟩
  | Release handle =>
    obtain ⟨r, hr, hinv⟩ := h.remove hok
    exact ⟨_, by simp [LRUCache.step, LRUCache.Release, hr, Outcome.ofOption, Outcome.bind], hinv⟩
  | Erase key =>
    obtain ⟨r, hr, hinv⟩ := h.remove hok
    exact ⟨_, by simp [LRUCache.step, LRUCache.Erase, hr, Outcome.ofOption, Outcome.bind], hinv⟩

theorem Inv.next (h : Inv hash s) {a : Call V} (hok : Ok hash s a) (hs : LRUCache.step hash s a = .next s') :
    Inv hash s' := by
  obtain ⟨t, ht, hinv⟩ := h.step hok
  rw [ht] at hs
  cases hs
  exact hinv

theorem run_inv {capacity : UInt64} {as : List (Call V)}
    (hmeets : Meets (step hash) (Ok hash) (init capacity) as) (hrun : run (step hash) (init capacity) as = .next s) :
    Inv hash s :=
  @run_invariant _ _ _ _ (fun _ s => Inv hash s) _ (inv_init capacity) (fun _ _ _ _ h hok hs => h.next hok hs) _
    hmeets _ hrun

theorem run_caches (hash : Slice → ℕ) (capacity : UInt64) (as : List (Call V))
    (hmeets : Meets (step hash) (Ok hash) (init capacity) as) : Caches hash capacity as := by
  refine ⟨?_, ?_, ?_, ?_⟩
  · refine @run_safe _ _ _ _ (fun _ s => Inv hash s) _ (inv_init capacity) (fun _ _ _ _ h hok hs => h.next hok hs)
      ?_ _ hmeets
    intro _ s a h hok habort
    obtain ⟨s', hs', -⟩ := h.step hok
    rw [habort] at hs'
    cases hs'
  · rintro before s ⟨after, rfl⟩ hrun
    exact (run_inv hmeets.append.1 hrun).sound
  · rintro before key after s rfl hrun
    obtain ⟨hbefore, hrest⟩ := hmeets.append
    exact (run_inv hbefore hrun).lookup (hrest s hrun).1
  · -- The key of an `Insert` is not there.
    rintro before key value charge deleter after s rfl hrun e he hkey -
    exact absurd hkey ((hmeets.append.2 s hrun).1.1 e he)

/-- Two entries fit into the cache, and the third one takes the place of the oldest. -/
def threeKeys : List (Call ℕ) :=
  [.Insert [1] 101 1 true, .Insert [2] 201 1 true, .Lookup [1], .Insert [3] 301 1 true, .Lookup [1], .Erase [2],
    .Release ⟨[3], 0, 301, 1, true⟩]

theorem threeKeys_caches : Meets (step fun _ => 0) (Ok fun _ => 0) (init 2) threeKeys ∧
    Caches (fun _ => 0) 2 threeKeys := by
  have hmeets : Meets (step fun _ => 0) (Ok fun _ => 0) (init 2) threeKeys := by decide +kernel
  exact ⟨hmeets, run_caches _ _ _ hmeets⟩

/-- The key is inserted again while its entry is there. -/
def insertedTwice : List (Call ℕ) := [.Insert [100] 101 1 true, .Insert [100] 102 1 true]

/-- The table does not take the second entry, the list does, and the assertion fails. -/
theorem insertedTwice_aborts :
    ¬ ∀ (hash : Slice → ℕ) (capacity : UInt64) (as : List (Call ℕ)), Caches hash capacity as := by
  intro h
  exact (h (fun _ => 0) 1000 insertedTwice).noError rfl

end LRUCache

end RedisDb
