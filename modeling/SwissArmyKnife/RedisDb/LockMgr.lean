import Mathlib.Data.List.Sort
import SwissArmyKnife.Lib.Holders
import SwissArmyKnife.RedisDb.Comparator

/-!
# Locks on keys

A `LockMgr` has a mutex for each of `kShards` shards, and a key is locked through the shard of its hash.  A `HashLock`
locks one key.  A `MultiHashLock` locks a list of keys in order, each once; but its constructor sorts the list of the
caller, and the destructor goes through a copy that is made before that.  `hash` stands for `std::hash`.
-/

namespace RedisDb

open Holders (Holder Entangled Deadlock)

namespace LockMgr

def kShards : ℕ := 4096

/-- The mutex that `Lock` and `Unlock` use for a key. -/
def shard (hash : Slice → ℕ) (key : Slice) : ℕ := hash key % kShards

end LockMgr

namespace MultiHashLock

/-- The keys that the loop locks or unlocks: those that differ from the key before. -/
def loop (prekey : Slice) : List Slice → List Slice
  | [] => []
  | key :: keys => if prekey ≠ key then key :: loop key keys else loop prekey keys

/-- The keys that are locked or unlocked for a list.  The empty key, from which `prekey` cannot be told in the
beginning, is looked at first. -/
def visit (keys : List Slice) : List Slice :=
  (match keys with
    | [] :: _ => [[]]
    | _ => []) ++ loop [] keys

/-- The keys in the order in which the constructor locks them. -/
def lockKeys (keys : List Slice) : List Slice := visit (keys.insertionSort (· ≤ ·))

/-- The keys in the order in which the destructor unlocks them; the member `keys` is not sorted. -/
def unlockKeys (keys : List Slice) : List Slice := visit keys

end MultiHashLock

/-- An object that locks keys while it lives. -/
inductive LockObject where
  | hashLock (key : Slice)
  | multiHashLock (keys : List Slice)

/-- The shards that are locked by the constructor and unlocked by the destructor. -/
def LockObject.holder (hash : Slice → ℕ) : LockObject → Holder ℕ
  | .hashLock key => ⟨[LockMgr.shard hash key], [LockMgr.shard hash key]⟩
  | .multiHashLock keys =>
    ⟨(MultiHashLock.lockKeys keys).map (LockMgr.shard hash), (MultiHashLock.unlockKeys keys).map (LockMgr.shard hash)⟩

/-- Objects that are used at the same time: each unlocks the shards that it locked, each once, and in
no state that they come to do some of them wait for each other or for themselves. -/
structure LocksSafe (hash : Slice → ℕ) (objects : List LockObject) : Prop where
  balanced : ∀ o ∈ objects, (o.holder hash).release.Perm (o.holder hash).acquire
  safe : Holders.Safe (objects.map (LockObject.holder hash))

namespace MultiHashLock

/-- A key that occurs again comes again at once. -/
def Grouped : List Slice → Prop
  | [] => True
  | key :: keys => (key ∈ keys → keys.head? = some key) ∧ Grouped keys

variable {key prekey : Slice} {keys : List Slice}

/-! ### The keys that are visited -/

theorem mem_loop (h : key ≠ prekey) : key ∈ loop prekey keys ↔ key ∈ keys := by
  induction keys generalizing prekey with
  | nil => rfl
  | cons k keys ih =>
    unfold loop
    by_cases hk : prekey = k
    · rw [if_neg (by simpa using hk), ih h]
      simp [← hk, h]
    · rw [if_pos hk, List.mem_cons, List.mem_cons]
      by_cases hkey : key = k
      · simp [hkey]
      · rw [ih hkey]

theorem visit_cons (key : Slice) (keys : List Slice) : visit (key :: keys) = key :: loop key keys := by
  cases key with
  | nil => simp [visit, loop]
  | cons b key => simp [visit, loop]

/-- Each key of the list is visited. -/
theorem mem_visit : key ∈ visit keys ↔ key ∈ keys := by
  cases keys with
  | nil => rfl
  | cons k keys =>
    rw [visit_cons, List.mem_cons, List.mem_cons]
    by_cases hkey : key = k
    · simp [hkey]
    · rw [mem_loop hkey]

private theorem nodup_cons_loop : (key :: loop key keys).Nodup ↔ Grouped (key :: keys) := by
  induction keys generalizing key with
  | nil => simp [loop, Grouped]
  | cons k keys ih =>
    unfold loop
    by_cases hk : key = k
    · subst hk
      rw [if_neg (by simp), ih]
      simp [Grouped]
    · rw [if_pos hk, List.nodup_cons, ih, List.mem_cons, mem_loop hk]
      simp [Grouped, hk, Ne.symm hk]

/-- No key is visited twice exactly when equal keys stand together. -/
theorem nodup_visit_iff : (visit keys).Nodup ↔ Grouped keys := by
  cases keys with
  | nil => simp [visit, loop, Grouped]
  | cons key keys => rw [visit_cons, nodup_cons_loop]

private theorem pairwise_cons_loop (h : (key :: keys).Pairwise (· ≤ ·)) :
    (key :: loop key keys).Pairwise (· < ·) := by
  induction keys generalizing key with
  | nil => simp [loop]
  | cons k keys ih =>
    obtain ⟨hle, hrest⟩ := List.pairwise_cons.1 h
    unfold loop
    by_cases hk : key = k
    · subst hk
      rw [if_neg (by simp)]
      exact ih hrest
    · rw [if_pos hk]
      have hlt : key < k := lt_of_le_of_ne (hle k (List.mem_cons_self ..)) hk
      refine List.pairwise_cons.2 ⟨?_, ih hrest⟩
      intro x hx
      rcases List.mem_cons.1 hx with rfl | hx
      · exact hlt
      · exact hlt.trans ((List.pairwise_cons.1 (ih hrest)).1 x hx)

/-- The constructor locks the keys in increasing order. -/
theorem pairwise_lockKeys (keys : List Slice) : (lockKeys keys).Pairwise (· < ·) := by
  have hsorted := List.pairwise_insertionSort (· ≤ ·) keys
  unfold lockKeys
  cases hl : keys.insertionSort (· ≤ ·) with
  | nil => simp [visit, loop]
  | cons key rest =>
    rw [visit_cons]
    exact pairwise_cons_loop (hl ▸ hsorted)

theorem nodup_lockKeys (keys : List Slice) : (lockKeys keys).Nodup := (pairwise_lockKeys keys).imp ne_of_lt

theorem mem_lockKeys : key ∈ lockKeys keys ↔ key ∈ keys := by
  rw [lockKeys, mem_visit, List.mem_insertionSort]

private theorem mem_unlockKeys_iff : key ∈ unlockKeys keys ↔ key ∈ lockKeys keys := by
  rw [unlockKeys, mem_visit, mem_lockKeys]

/-- The destructor unlocks what was locked exactly when equal keys of the caller's list stand together: otherwise it
unlocks a key twice. -/
theorem perm_map_iff {α : Type*} (f : Slice → α) :
    ((unlockKeys keys).map f).Perm ((lockKeys keys).map f) ↔ Grouped keys := by
  rw [← nodup_visit_iff]
  constructor
  · intro h
    have hlen := h.length_eq
    rw [List.length_map, List.length_map] at hlen
    have hdedup : (unlockKeys keys).dedup.Perm (lockKeys keys) := by
      apply (List.perm_ext_iff_of_nodup (List.nodup_dedup _) (nodup_lockKeys keys)).2
      intro k
      rw [List.mem_dedup, mem_unlockKeys_iff]
    rw [← hdedup.length_eq] at hlen
    have heq : (unlockKeys keys).dedup = unlockKeys keys :=
      (List.dedup_sublist (unlockKeys keys)).eq_of_length hlen.symm
    exact List.dedup_eq_self.1 heq
  · intro h
    apply List.Perm.map
    exact (List.perm_ext_iff_of_nodup h (nodup_lockKeys keys)).2 fun k => mem_unlockKeys_iff

/-! ### Objects used at the same time -/

variable {hash : Slice → ℕ} {objects : List LockObject}

private theorem balanced_iff : (∀ o ∈ objects, (o.holder hash).release.Perm (o.holder hash).acquire) ↔
    ∀ keys, .multiHashLock keys ∈ objects → Grouped keys := by
  constructor
  · intro h keys hkeys
    exact (perm_map_iff _).1 (h _ hkeys)
  · intro h o ho
    cases o with
    | hashLock key => exact List.Perm.refl _
    | multiHashLock keys => exact (perm_map_iff _).2 (h keys ho)

private theorem safe_iff_not_entangled
    (h : ∀ o ∈ objects, (o.holder hash).release.Perm (o.holder hash).acquire) :
    Holders.Safe (objects.map (LockObject.holder hash)) ↔ ¬ Entangled (objects.map (LockObject.holder hash)) := by
  apply Holders.safe_iff
  intro a ha
  obtain ⟨o, ho, rfl⟩ := List.mem_map.1 ha
  exact h o ho

/-- Objects are safe exactly when equal keys stand together in each list and the objects are not entangled: no group
of them can hold different shards such that each of the group needs a shard of the group next. -/
theorem locksSafe_iff (hash : Slice → ℕ) (objects : List LockObject) : LocksSafe hash objects ↔
    (∀ keys, .multiHashLock keys ∈ objects → Grouped keys) ∧
      ¬ Entangled (objects.map (LockObject.holder hash)) := by
  constructor
  · rintro ⟨hbalanced, hsafe⟩
    exact ⟨balanced_iff.1 hbalanced, (safe_iff_not_entangled hbalanced).1 hsafe⟩
  · rintro ⟨hgrouped, hnot⟩
    have hbalanced : ∀ o ∈ objects, (o.holder hash).release.Perm (o.holder hash).acquire := balanced_iff.2 hgrouped
    exact ⟨hbalanced, (safe_iff_not_entangled hbalanced).2 hnot⟩

/-- The keys b, a, b: the constructor locks a and b, and the destructor unlocks b, a and b again. -/
theorem not_locksSafe_unsorted : ¬ ∀ (hash : Slice → ℕ) (objects : List LockObject), LocksSafe hash objects := by
  intro h
  have := (h (fun key => key.length) [.multiHashLock [[98], [97], [98]]]).balanced _ (List.mem_singleton_self _)
  exact absurd this.length_eq (by decide +kernel)

end MultiHashLock

end RedisDb
