import SwissArmyKnife.Lib.KeyedSet
import SwissArmyKnife.Memcached.Item
import Mathlib.Logic.Function.Basic

/-!
# The store

The items are in shards by the hash of their keys, at most one item of each key in a shard.  Only items with a
complete value are stored.  Whether one is depends on the policy and on the item that is there (`Allowed`), and what
is stored is `updated`.
-/

namespace Memcached

open Ascii (crlf)
open Words (toInt toInt_eq toInt_neg)

inductive UpdatePolicy where
  | invalid
  | set
  | add
  | replace
  | append
  | prepend
  | cas
deriving DecidableEq, Repr

/-- An item that is not changed any more. -/
abbrev ConstItem := { item : Item // item.Complete }

def ConstItem.key (item : ConstItem) : Bytes := item.1.key

def ConstItem.setCas (item : ConstItem) (cas : UInt64) : ConstItem :=
  ⟨{ item.1 with cas := cas }, ⟨item.2.made, item.2.fits, item.2.received, item.2.crlf⟩⟩

def kShards : ℕ := 4096

structure MemcacheServer where
  cas : UInt64
  shards : Fin kShards → List ConstItem

namespace MemcacheServer

variable (hash : Bytes → ℕ)

def shard (key : Bytes) : Fin kShards := ⟨hash key % kShards, Nat.mod_lt _ (by decide)⟩

variable (s : MemcacheServer)

def items (key : Bytes) : List ConstItem := s.shards (shard hash key)

def getItem (key : Bytes) : Option ConstItem := KeyedSet.find ConstItem.key (s.items hash key) key

/-- The items of one shard are replaced. -/
def setItems (key : Bytes) (items : List ConstItem) : MemcacheServer :=
  { s with shards := Function.update s.shards (shard hash key) items }

/-- `erase(it)`, then `insert(item)`; the counter has gone on. -/
def replaceItem (item : ConstItem) : MemcacheServer :=
  let items := KeyedSet.erase ConstItem.key (s.items hash item.key) item.key
  { s.setItems hash item.key (KeyedSet.insert ConstItem.key items item) with cas := s.cas + 1 }

/-- `insert(item)`; the counter has gone on. -/
def insertItem (item : ConstItem) : MemcacheServer :=
  { s.setItems hash item.key (KeyedSet.insert ConstItem.key (s.items hash item.key) item) with cas := s.cas + 1 }

/-- The item that `append` and `prepend` make. -/
def concatItem (old item : ConstItem) (policy : UpdatePolicy) : Option ConstItem :=
  let newLen := toInt (item.1.valueLen + old.1.valueLen - 2)
  (Item.makeItem item.key old.1.flags old.1.relExptime newLen s.cas).bind fun newItem =>
    let filled :=
      if policy = .append then (newItem.append old.1.body).bind fun newItem => newItem.append item.1.value
      else (newItem.append item.1.body).bind fun newItem => newItem.append old.1.value
    -- the assertions on the new item
    filled.bind fun newItem => if h : newItem.Complete then some ⟨newItem, h⟩ else none

/-- The item that has been stored, if one has, and whether the key was there. -/
def storeItem (item : ConstItem) (policy : UpdatePolicy) : Option (MemcacheServer × Option ConstItem × Bool) :=
  let it := s.getItem hash item.key
  let newItem := item.setCas s.cas
  match policy with
  | .set =>
    match it with
    | some _ => some (s.replaceItem hash newItem, some newItem, true)
    | none => some (s.insertItem hash newItem, some newItem, false)
  | .add =>
    match it with
    | some _ => some (s, none, true)
    | none => some (s.insertItem hash newItem, some newItem, false)
  | .replace =>
    match it with
    | some _ => some (s.replaceItem hash newItem, some newItem, true)
    | none => some (s, none, false)
  | .append | .prepend =>
    match it with
    | some old => (s.concatItem old item policy).map fun newItem => (s.replaceItem hash newItem, some newItem, true)
    | none => some (s, none, false)
  | .cas =>
    match it with
    | some old =>
      if old.1.cas = item.1.cas then some (s.replaceItem hash newItem, some newItem, true) else some (s, none, true)
    | none => some (s, none, false)
  | .invalid => none

def deleteItem (key : Bytes) : MemcacheServer × Bool :=
  let items := KeyedSet.erase ConstItem.key (s.items hash key) key
  (s.setItems hash key items, (s.getItem hash key).isSome)

end MemcacheServer

/-! ### What is stored -/

/-- The policy stores an item over the one that is there. -/
def Allowed (old : Option ConstItem) (item : ConstItem) : UpdatePolicy → Prop
  | .set => True
  | .add => old = none
  | .replace | .append | .prepend => old.isSome
  | .cas => ∃ found, old = some found ∧ found.1.cas = item.1.cas
  | .invalid => False

/-- The item that is stored. -/
def updated (old : Option ConstItem) (item : Item) (policy : UpdatePolicy) (cas : UInt64) : Item :=
  match policy, old with
  | .append, some old => ⟨item.key, old.1.flags, old.1.relExptime, item.valueLen + old.1.valueLen - 2,
      old.1.body ++ item.value, cas⟩
  | .prepend, some old => ⟨item.key, old.1.flags, old.1.relExptime, item.valueLen + old.1.valueLen - 2,
      item.body ++ old.1.value, cas⟩
  | _, _ => { item with cas := cas }

/-- The lengths of the key and of the value that is stored fit into an `int`. -/
def Fits (old : Option ConstItem) (item : ConstItem) (policy : UpdatePolicy) : Prop :=
  (policy = .append ∨ policy = .prepend) → ∀ found, old = some found →
    item.key.length + (item.1.valueLen + found.1.valueLen - 2) < 2 ^ 31

instance (old : Option ConstItem) (item : ConstItem) (policy : UpdatePolicy) : Decidable (Fits old item policy) :=
  match old with
  | none => isTrue (by simp [Fits])
  | some found => decidable_of_iff ((policy = .append ∨ policy = .prepend) →
      item.key.length + (item.1.valueLen + found.1.valueLen - 2) < 2 ^ 31) (by simp [Fits])

namespace MemcacheServer

variable {hash : Bytes → ℕ} {s : MemcacheServer}

/-- No shard has two items with one key. -/
def Unique (s : MemcacheServer) : Prop := ∀ i, KeyedSet.Unique ConstItem.key (s.shards i)

theorem Unique.items (h : s.Unique) (key : Bytes) : KeyedSet.Unique ConstItem.key (s.items hash key) := h _

theorem items_setItems (key key' : Bytes) (l : List ConstItem) :
    (s.setItems hash key l).items hash key' = if shard hash key' = shard hash key then l else s.items hash key' :=
  Function.update_apply ..

theorem Unique.setItems (h : s.Unique) {key : Bytes} {l : List ConstItem} (hl : KeyedSet.Unique ConstItem.key l) :
    (s.setItems hash key l).Unique := by
  intro i
  unfold MemcacheServer.setItems
  dsimp only
  rw [Function.update_apply]
  split_ifs
  · exact hl
  · exact h i

theorem Unique.replaceItem (h : s.Unique) (item : ConstItem) : (s.replaceItem hash item).Unique :=
  Unique.setItems h (KeyedSet.Unique.insert (KeyedSet.Unique.erase (h.items _)))

theorem insertItem_eq (item : ConstItem) (hnone : s.getItem hash item.key = none) :
    s.insertItem hash item = s.replaceItem hash item := by
  have herase : KeyedSet.erase ConstItem.key (s.items hash item.key) item.key = s.items hash item.key := by
    refine List.eraseP_of_forall_not fun b hb hkey => KeyedSet.find_eq_none.1 hnone ?_
    exact List.mem_map.2 ⟨b, hb, by simpa using hkey⟩
  unfold MemcacheServer.insertItem MemcacheServer.replaceItem
  rw [herase]

theorem getItem_replaceItem (h : s.Unique) (item : ConstItem) (key : Bytes) :
    (s.replaceItem hash item).getItem hash key = if key = item.key then some item else s.getItem hash key := by
  unfold getItem
  change KeyedSet.find _ ((s.setItems hash item.key _).items hash key) key = _
  rw [items_setItems]
  split_ifs with hshard hkey hkey
  · rw [KeyedSet.find_insert_erase (h.items _) rfl, if_pos hkey]
  · rw [KeyedSet.find_insert_erase (h.items _) rfl, if_neg hkey, items, items, hshard]
  · rw [hkey] at hshard
    exact absurd rfl hshard
  · rfl

private theorem drop_append_end (l : Bytes) {l' : Bytes} (h : 2 ≤ l'.length) :
    (l ++ l').drop ((l ++ l').length - 2) = l'.drop (l'.length - 2) := by
  have hlength : (l ++ l').length - 2 = l.length + (l'.length - 2) := by
    rw [List.length_append]
    omega
  rw [hlength, List.drop_append]
  simp

/-- Two pieces fill an item, and the second one ends it. -/
private theorem append_append {item : Item} {data data' : Bytes} (hmade : 2 ≤ item.valueLen)
    (hfits : item.key.length + item.valueLen < 2 ^ 31) (hvalue : item.value = [])
    (hlength : data.length + data'.length = item.valueLen) (hdata : 2 ≤ data'.length)
    (hcrlf : data'.drop (data'.length - 2) = crlf) :
    ((item.append data).bind fun item => item.append data') = some { item with value := data ++ data' } ∧
      Item.Complete { item with value := data ++ data' } := by
  constructor
  · have hfirst := Item.append_of_fits data (by omega) hfits (by rw [hvalue, List.length_nil]; omega)
    rw [hfirst, hvalue, List.nil_append, Option.bind_some]
    exact Item.append_of_fits data' (show 0 ≤ item.valueLen by omega) hfits (le_of_eq hlength)
  · refine ⟨hmade, hfits, ?_, ?_⟩
    · dsimp only
      rw [List.length_append]
      omega
    · dsimp only
      rw [drop_append_end data hdata, hcrlf]

/-- The item that `append` and `prepend` make when its length fits. -/
theorem concatItem_of_fits {old item : ConstItem} {policy : UpdatePolicy}
    (hpolicy : policy = .append ∨ policy = .prepend)
    (hfits : item.key.length + (item.1.valueLen + old.1.valueLen - 2) < 2 ^ 31) :
    ∃ new, s.concatItem old item policy = some new ∧ new.1 = updated (some old) item.1 policy s.cas := by
  have hmade := item.2.made
  have hmade' := old.2.made
  have hlength := item.2.received
  have hlength' := old.2.received
  have hbody := item.2.length_body
  have hbody' := old.2.length_body
  unfold concatItem
  dsimp only
  rw [toInt_eq (by omega) (by omega), Item.makeItem_of_fits (by omega) hfits]
  rcases hpolicy with rfl | rfl
  · obtain ⟨happend, hcomplete⟩ := @append_append
      ⟨item.key, old.1.flags, old.1.relExptime, item.1.valueLen + old.1.valueLen - 2, [],
        s.cas⟩ old.1.body item.1.value
      (by dsimp only; omega) hfits rfl (by dsimp only; omega) item.2.length item.2.crlf
    simp only [Option.bind_some, if_true, happend, dif_pos hcomplete]
    exact ⟨_, rfl, rfl⟩
  · obtain ⟨happend, hcomplete⟩ := @append_append
      ⟨item.key, old.1.flags, old.1.relExptime, item.1.valueLen + old.1.valueLen - 2, [],
        s.cas⟩ item.1.body old.1.value
      (by dsimp only; omega) hfits rfl (by dsimp only; omega) old.2.length old.2.crlf
    simp only [Option.bind_some, reduceCtorEq, if_false, happend, dif_pos hcomplete]
    exact ⟨_, rfl, rfl⟩

/-- Two complete values that are too long together. -/
theorem concatItem_of_long {old item : ConstItem} {policy : UpdatePolicy} (hkey : old.key = item.key)
    (hlong : 2 ^ 31 ≤ item.key.length + (item.1.valueLen + old.1.valueLen - 2)) :
    s.concatItem old item policy = none := by
  have hfits : item.key.length + item.1.valueLen < 2 ^ 31 := item.2.fits
  have hfits' : old.key.length + old.1.valueLen < 2 ^ 31 := old.2.fits
  rw [hkey] at hfits'
  have hnone : Item.makeItem item.key old.1.flags old.1.relExptime
      (toInt (item.1.valueLen + old.1.valueLen - 2)) s.cas =
      none := by
    have hmade := item.2.made
    have hmade' := old.2.made
    by_cases hlen : item.1.valueLen + old.1.valueLen - 2 < 2 ^ 31
    · rw [toInt_eq (by omega) hlen]
      exact Item.makeItem_of_long hlong (by omega)
    · have hneg := toInt_neg (by omega) (show item.1.valueLen + old.1.valueLen - 2 < 2 ^ 32 by omega)
      unfold Item.makeItem
      exact if_neg fun hmade => by omega
  unfold concatItem
  dsimp only
  rw [hnone, Option.bind_none]

/-- What a call of `storeItem` does: the item is stored when the policy allows it. -/
theorem storeItem_eq {item : ConstItem} {policy : UpdatePolicy} (hpolicy : policy ≠ .invalid)
    (hfits : Fits (s.getItem hash item.key) item policy) :
    ∃ stored : Option ConstItem, s.storeItem hash item policy =
        some ((stored.map (s.replaceItem hash)).getD s, stored, (s.getItem hash item.key).isSome) ∧
      (stored.isSome ↔ Allowed (s.getItem hash item.key) item policy) ∧
      ∀ new, stored = some new → new.1 = updated (s.getItem hash item.key) item.1 policy s.cas := by
  unfold storeItem
  dsimp only
  cases hit : s.getItem hash item.key with
  | none =>
    have hinsert := insertItem_eq (item.setCas s.cas) hit
    cases policy with
    | invalid => exact absurd rfl hpolicy
    | set => exact ⟨some (item.setCas s.cas), by rw [hinsert]; rfl, by simp [Allowed], by rintro _ ⟨⟩; rfl⟩
    | add => exact ⟨some (item.setCas s.cas), by rw [hinsert]; rfl, by simp [Allowed], by rintro _ ⟨⟩; rfl⟩
    | replace | append | prepend => exact ⟨none, rfl, by simp [Allowed], by simp⟩
    | cas => exact ⟨none, rfl, by simp [Allowed], by simp⟩
  | some old =>
    cases policy with
    | invalid => exact absurd rfl hpolicy
    | set => exact ⟨some (item.setCas s.cas), rfl, by simp [Allowed], by rintro _ ⟨⟩; rfl⟩
    | add => exact ⟨none, rfl, by simp [Allowed], by simp⟩
    | replace => exact ⟨some (item.setCas s.cas), rfl, by simp [Allowed], by rintro _ ⟨⟩; rfl⟩
    | append =>
      obtain ⟨new, hnew, hupdated⟩ := concatItem_of_fits (s := s) (.inl rfl) (hfits (.inl rfl) old hit)
      exact ⟨some new, by simp [hnew], by simp [Allowed], by rintro _ ⟨⟩; exact hupdated⟩
    | prepend =>
      obtain ⟨new, hnew, hupdated⟩ := concatItem_of_fits (s := s) (.inr rfl) (hfits (.inr rfl) old hit)
      exact ⟨some new, by simp [hnew], by simp [Allowed], by rintro _ ⟨⟩; exact hupdated⟩
    | cas =>
      by_cases hcas : old.1.cas = item.1.cas
      · exact ⟨some (item.setCas s.cas), by simp [hcas], by simp [Allowed, hcas], by rintro _ ⟨⟩; rfl⟩
      · exact ⟨none, by simp [hcas], by simp [Allowed, hcas], by simp⟩

theorem Unique.deleteItem (h : s.Unique) (key : Bytes) : (s.deleteItem hash key).1.Unique :=
  Unique.setItems h (KeyedSet.Unique.erase (h.items _))

theorem getItem_deleteItem (h : s.Unique) (key key' : Bytes) :
    (s.deleteItem hash key).1.getItem hash key' = if key' = key then none else s.getItem hash key' := by
  unfold getItem
  change KeyedSet.find _ ((s.setItems hash key _).items hash key') key' = _
  rw [items_setItems]
  split_ifs with hshard hkey hkey
  · rw [hkey]
    exact KeyedSet.find_erase_self (h.items _)
  · rw [KeyedSet.find_erase_of_ne hkey, items, items, hshard]
  · rw [hkey] at hshard
    exact absurd rfl hshard
  · rfl

end MemcacheServer

end Memcached
