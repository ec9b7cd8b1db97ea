import Mathlib.Logic.Function.Basic
import SwissArmyKnife.Lib.Transition
import SwissArmyKnife.RedisDb.LockMgr
import SwissArmyKnife.RedisDb.RedisStore

/-!
# Transactions

A `Transaction` writes to the store at once, under the exclusive lock of the first key that it writes, and `Commit`
writes a batch that is always empty.  Next to the store runs what is meant (`Spec`): a transaction keeps its writes to
itself until it commits them.

The two agree as long as a transaction writes under its lock, reads no key that another one has written, and has
nothing to undo when it is rolled back, and as long as no batch is written to its keys.  A call of `TransactionDB`
holds its lock for one step.  A transaction holds its locks until it is rolled back or destroyed, and its lock objects
have only a view of the keys: what they unlock then is decided by the bytes that are there by that time.
-/

namespace RedisDb

open Transition (Outcome Meets)

abbrev Op := SortedMap.Op Slice Slice

/-- The locks are given with their keys as they were when they were locked. -/
structure Transaction where
  writebatch : List Op := []
  readlock : Option Slice := none
  writelock : Option Slice := none

namespace TransactionDB

/-! ### What is meant -/

/-- The store, and the writes of each transaction that are not committed. -/
structure Spec where
  committed : Db
  pending : ℕ → List Op

namespace Spec

def update (s : Spec) (i : ℕ) (op : Op) : Spec :=
  { s with pending := Function.update s.pending i (s.pending i ++ [op]) }

def commit (s : Spec) (i : ℕ) : Spec := ⟨s.committed.write (s.pending i), Function.update s.pending i []⟩

def rollback (s : Spec) (i : ℕ) : Spec := { s with pending := Function.update s.pending i [] }

def write (s : Spec) (batch : List Op) : Spec := { s with committed := s.committed.write batch }

/-- The store as a transaction sees it. -/
def view (s : Spec) (i : ℕ) : Db := s.committed.write (s.pending i)

/-- The transaction has written the key, and has not been committed or rolled back since. -/
def Wrote (s : Spec) (i : ℕ) (key : Slice) : Prop := key ∈ (s.pending i).map SortedMap.Op.key

end Spec

/-! ### The code -/

/-- The store, the shared mutexes of the shards and the transactions, with the specification. -/
structure State where
  db : Db
  owner : ℕ → Option ℕ
  readers : ℕ → List ℕ
  transactions : ℕ → Transaction
  spec : Spec

def init (db : Db) : State := ⟨db, fun _ => none, fun _ => [], fun _ => {}, ⟨db, fun _ => []⟩⟩

variable (hash : Slice → ℕ)

/-- No transaction holds the mutex, so that it can be locked exclusively. -/
def free (s : State) (key : Slice) : Bool :=
  (s.owner (LockMgr.shard hash key)).isNone && (s.readers (LockMgr.shard hash key)).isEmpty

/-- The constructor of `WriteSharedHashLock`, for a transaction. -/
def lockWrite (s : State) (i : ℕ) (key : Slice) : Outcome State :=
  if free hash s key then
    .next { s with
      owner := Function.update s.owner (LockMgr.shard hash key) (some i)
      transactions := Function.update s.transactions i { s.transactions i with writelock := some key } }
  else .disabled

/-- The constructor of `ReadSharedHashLock`, for a transaction. -/
def lockRead (s : State) (i : ℕ) (key : Slice) : Outcome State :=
  if (s.owner (LockMgr.shard hash key)).isNone then
    .next { s with
      readers := Function.update s.readers (LockMgr.shard hash key) (i :: s.readers (LockMgr.shard hash key))
      transactions := Function.update s.transactions i { s.transactions i with readlock := some key } }
  else .disabled

/-- The bytes that the views in the lock objects of a transaction show when the objects are destroyed. -/
structure Views where
  writelock : Slice := []
  readlock : Slice := []

/-- The lock objects of a transaction unlock the shards that they have locked. -/
def Keeps (s : State) (i : ℕ) (found : Views) : Prop :=
  (∀ key ∈ (s.transactions i).writelock, LockMgr.shard hash found.writelock = LockMgr.shard hash key) ∧
    ∀ key ∈ (s.transactions i).readlock, LockMgr.shard hash found.readlock = LockMgr.shard hash key

instance (s : State) (i : ℕ) (found : Views) : Decidable (Keeps hash s i found) := instDecidableAnd

/-- The locks of a transaction are given up, and its batch is cleared. -/
def reset (s : State) (i : ℕ) : State :=
  let t := s.transactions i
  { s with
    owner := match t.writelock with
      | some key => Function.update s.owner (LockMgr.shard hash key) none
      | none => s.owner
    readers := match t.readlock with
      | some key =>
        Function.update s.readers (LockMgr.shard hash key) ((s.readers (LockMgr.shard hash key)).erase i)
      | none => s.readers
    transactions := Function.update s.transactions i {} }

/-- The destructors of the lock objects of a transaction.  To unlock a mutex that one has not locked is undefined. -/
def release (s : State) (i : ℕ) (found : Views) : Outcome State :=
  if Keeps hash s i found then .next { reset hash s i with spec := s.spec.rollback i } else .aborted

/-- `Put` and `Delete` of a transaction. -/
def update (s : State) (i : ℕ) (op : Op) : Outcome State :=
  let locked : Outcome State :=
    match (s.transactions i).writelock with
    | none => lockWrite hash s i op.key
    | some _ => .next s
  locked.bind fun s => .next { s with db := s.db.apply op, spec := s.spec.update i op }

inductive Action where
  /-- `Transaction::Put` or `Delete`. -/
  | update (i : ℕ) (op : Op)
  /-- `Transaction::Get`. -/
  | read (i : ℕ) (key : Slice)
  | Commit (i : ℕ)
  /-- `Rollback` has a `Status` to return and no `return`: whether the program goes on behind it is not determined. -/
  | Rollback (i : ℕ) (found : Views) (returns : Bool)
  /-- The destructor of a transaction. -/
  | destroy (i : ℕ) (found : Views)
  | Put (key value : Slice)
  | Delete (key : Slice)
  | Write (updates : List Op)
  | Get (key : Slice)

def step (s : State) : Action → Outcome State
  | .update i op => update hash s i op
  | .read i key =>
    match (s.transactions i).readlock with
    | none => lockRead hash s i key
    | some _ => .next s
  | .Commit i =>
    .next { s with db := s.db.write (s.transactions i).writebatch, spec := s.spec.commit i }
  | .Rollback i found returns => if returns then release hash s i found else .aborted
  | .destroy i found => release hash s i found
  | .Put key value =>
    if free hash s key then .next { s with db := s.db.put key value, spec := s.spec.write [.Put key value] }
    else .disabled
  | .Delete key =>
    if free hash s key then .next { s with db := s.db.delete key, spec := s.spec.write [.Delete key] } else .disabled
  | .Write updates => .next { s with db := s.db.write updates, spec := s.spec.write updates }
  | .Get key => if (s.owner (LockMgr.shard hash key)).isNone then .next s else .disabled

/-! ### Isolation -/

/-- The transaction that a call is one of. -/
def Action.transaction : Action → Option ℕ
  | .update i _ => some i
  | .read i _ => some i
  | .Commit i => some i
  | .Rollback i _ _ => some i
  | .destroy i _ => some i
  | _ => none

/-- What a call reads is what is meant; a transaction that is rolled back leaves nothing of its writes, one that is
committed all of them; and no other call changes a key that an open transaction has written. -/
structure Isolated (s : State) (a : Action) (s' : State) : Prop where
  get : ∀ key, a = .Get key → s.db.get key = s.spec.committed.get key
  read : ∀ i key, a = .read i key → s.db.get key = (s.spec.view i).get key
  rollback : ∀ i found returns, a = .Rollback i found returns → ∀ key,
    (s.spec.Wrote i key → s'.db.get key = s.spec.committed.get key) ∧
    (¬ s.spec.Wrote i key → s'.db.get key = s.db.get key)
  commit : ∀ i, a = .Commit i → ∀ key,
    (s.spec.Wrote i key → s'.db.get key = (s.spec.view i).get key) ∧
    (¬ s.spec.Wrote i key → s'.db.get key = s.db.get key)
  exclusive : ∀ i key, s.spec.Wrote i key → a.transaction ≠ some i → s'.db.get key = s.db.get key

/-- The call ends, and is isolated. -/
def StepIsolated (s : State) (a : Action) : Prop :=
  step hash s a ≠ .aborted ∧ ∀ s', step hash s a = .next s' → Isolated s a s'

/-! ### The condition -/

/-- A transaction writes under the lock that it has, and what it reads without one no other transaction has written; a
batch is not written to keys that a transaction has written; and a transaction that is given up has left its keys as
they were, finds the keys that it locked where they were, and comes back from `Rollback`. -/
def Allowed (s : State) : Action → Prop
  | .update i op =>
    ∀ key, (s.transactions i).writelock = some key → LockMgr.shard hash op.key = LockMgr.shard hash key
  | .read i key =>
    ∀ key', (s.transactions i).readlock = some key' → LockMgr.shard hash key ≠ LockMgr.shard hash key' →
      ∀ j ≠ i, ¬ s.spec.Wrote j key
  | .Write updates => ∀ op ∈ updates, ∀ i, ¬ s.spec.Wrote i op.key
  | .Rollback i found returns =>
    (∀ key, (s.spec.view i).get key = s.spec.committed.get key) ∧ Keeps hash s i found ∧ returns = true
  | .destroy i found => (∀ key, (s.spec.view i).get key = s.spec.committed.get key) ∧ Keeps hash s i found
  | _ => True

/-! ### Keys that a transaction has written -/

variable {hash : Slice → ℕ} {s s' : State}

private theorem get_view_of_not_wrote {spec : Spec} {i : ℕ} {key : Slice} (h : ¬ spec.Wrote i key) :
    (spec.view i).get key = spec.committed.get key := by
  refine SortedMap.get_write_of_forall_ne fun op hop heq => h ?_
  exact List.mem_map.2 ⟨op, hop, heq⟩

private theorem pending_update (spec : Spec) (i : ℕ) (op : Op) (j : ℕ) :
    (spec.update i op).pending j = if j = i then spec.pending i ++ [op] else spec.pending j :=
  Function.update_apply spec.pending i (spec.pending i ++ [op]) j

private theorem pending_rollback (spec : Spec) (i j : ℕ) :
    (spec.rollback i).pending j = if j = i then [] else spec.pending j :=
  Function.update_apply spec.pending i [] j

private theorem pending_commit (spec : Spec) (i j : ℕ) :
    (spec.commit i).pending j = if j = i then [] else spec.pending j :=
  Function.update_apply spec.pending i [] j

private theorem wrote_rollback {spec : Spec} {i j : ℕ} {key : Slice} (h : (spec.rollback i).Wrote j key) :
    j ≠ i ∧ spec.Wrote j key := by
  rw [Spec.Wrote, pending_rollback] at h
  split at h
  · simp at h
  · exact ⟨‹_›, h⟩

private theorem wrote_commit {spec : Spec} {i j : ℕ} {key : Slice} (h : (spec.commit i).Wrote j key) :
    spec.Wrote j key := by
  rw [Spec.Wrote, pending_commit] at h
  split at h
  · simp at h
  · exact h

private theorem wrote_update {spec : Spec} {i : ℕ} {op : Op} {j : ℕ} {key : Slice}
    (h : (spec.update i op).Wrote j key) : spec.Wrote j key ∨ j = i ∧ key = op.key := by
  rw [Spec.Wrote, pending_update] at h
  split at h
  · rename_i hji
    subst hji
    rw [List.map_append, List.mem_append] at h
    exact h.imp_right fun h => ⟨rfl, List.mem_singleton.1 h⟩
  · exact .inl h

/-! ### The invariant -/

/-- The store is the committed one, with the writes of the transaction that owns the shard of a key. -/
structure Inv (hash : Slice → ℕ) (s : State) : Prop where
  owned : ∀ i key, (s.transactions i).writelock = some key → s.owner (LockMgr.shard hash key) = some i
  reading : ∀ i key, (s.transactions i).readlock = some key → i ∈ s.readers (LockMgr.shard hash key)
  shared : ∀ x i, s.owner x = some i → s.readers x = []
  pending : ∀ i key, s.spec.Wrote i key → s.owner (LockMgr.shard hash key) = some i
  batch : ∀ i, (s.transactions i).writebatch = []
  ours : ∀ i key, s.owner (LockMgr.shard hash key) = some i → s.db.get key = (s.spec.view i).get key
  free : ∀ key, s.owner (LockMgr.shard hash key) = none → s.db.get key = s.spec.committed.get key

theorem inv_init (hash : Slice → ℕ) (db : Db) : Inv hash (init db) where
  owned _ _ h := nomatch h
  reading _ _ h := nomatch h
  shared _ _ h := nomatch h
  pending _ _ h := nomatch h
  batch _ := rfl
  ours _ _ h := nomatch h
  free _ _ := rfl

namespace Inv

theorem not_wrote_of_none (h : Inv hash s) {key : Slice} (howner : s.owner (LockMgr.shard hash key) = none) (i : ℕ) :
    ¬ s.spec.Wrote i key := by
  intro hwrote
  rw [h.pending i key hwrote] at howner
  cases howner

theorem not_wrote_of_owner (h : Inv hash s) {key : Slice} {i j : ℕ}
    (howner : s.owner (LockMgr.shard hash key) = some i) (hne : j ≠ i) : ¬ s.spec.Wrote j key := by
  intro hwrote
  rw [h.pending j key hwrote] at howner
  exact hne (Option.some.inj howner)

/-- A key that no transaction has written is as it was committed. -/
theorem get_of_not_wrote (h : Inv hash s) {key : Slice} (hnot : ∀ i, ¬ s.spec.Wrote i key) :
    s.db.get key = s.spec.committed.get key := by
  cases howner : s.owner (LockMgr.shard hash key) with
  | none => exact h.free key howner
  | some i => rw [h.ours i key howner, get_view_of_not_wrote (hnot i)]

/-! ### Locks -/

theorem lockWrite (h : Inv hash s) {i : ℕ} {key : Slice} (hstep : TransactionDB.lockWrite hash s i key = .next s') :
    Inv hash s' ∧ s'.owner (LockMgr.shard hash key) = some i ∧ s'.db = s.db ∧ s'.spec = s.spec := by
  rw [TransactionDB.lockWrite] at hstep
  split at hstep
  · rename_i hfree
    rw [TransactionDB.free, Bool.and_eq_true, Option.isNone_iff_eq_none, List.isEmpty_iff] at hfree
    cases hstep
    refine ⟨?_, Function.update_self .., rfl, rfl⟩
    refine ⟨?_, ?_, ?_, ?_, ?_, ?_, ?_⟩
    · intro j key' hj
      dsimp only at hj ⊢
      rw [Function.update_apply] at hj ⊢
      split at hj
      · cases hj
        rename_i hji
        rw [if_pos rfl, hji]
      · have howner := h.owned j key' hj
        rw [if_neg, howner]
        intro hshard
        rw [hshard, hfree.1] at howner
        cases howner
    · intro j key' hj
      dsimp only at hj
      rw [Function.update_apply] at hj
      split at hj
      · rename_i hji
        subst hji
        exact h.reading j key' hj
      · exact h.reading j key' hj
    · intro x j hx
      dsimp only at hx
      rw [Function.update_apply] at hx
      split at hx
      · rename_i hxk
        rw [hxk]
        exact hfree.2
      · exact h.shared x j hx
    · intro j key' hwrote
      have howner := h.pending j key' hwrote
      change Function.update s.owner (LockMgr.shard hash key) (some i) (LockMgr.shard hash key') = some j
      rw [Function.update_of_ne, howner]
      intro hshard
      rw [hshard, hfree.1] at howner
      cases howner
    · intro j
      dsimp only
      rw [Function.update_apply]
      split
      · exact h.batch i
      · exact h.batch j
    · intro j key' howner
      dsimp only at howner
      rw [Function.update_apply] at howner
      split at howner
      · rename_i hshard
        have hnone : s.owner (LockMgr.shard hash key') = none := hshard ▸ hfree.1
        exact (h.free key' hnone).trans (get_view_of_not_wrote (h.not_wrote_of_none hnone j)).symm
      · exact h.ours j key' howner
    · intro key' howner
      dsimp only at howner
      rw [Function.update_apply] at howner
      split at howner
      · cases howner
      · exact h.free key' howner
  · cases hstep

theorem lockRead (h : Inv hash s) {i : ℕ} {key : Slice} (hstep : TransactionDB.lockRead hash s i key = .next s') :
    Inv hash s' ∧ s.owner (LockMgr.shard hash key) = none ∧ s'.db = s.db := by
  rw [TransactionDB.lockRead] at hstep
  split at hstep
  · rename_i hnone
    rw [Option.isNone_iff_eq_none] at hnone
    cases hstep
    refine ⟨⟨?_, ?_, ?_, h.pending, ?_, h.ours, h.free⟩, hnone, rfl⟩
    · intro j key' hj
      dsimp only at hj
      rw [Function.update_apply] at hj
      split at hj
      · rename_i hji
        subst hji
        exact h.owned j key' hj
      · exact h.owned j key' hj
    · intro j key' hj
      dsimp only at hj ⊢
      rw [Function.update_apply] at hj ⊢
      split at hj
      · cases hj
        rename_i hji
        rw [if_pos rfl, hji]
        exact List.mem_cons_self ..
      · have hmem := h.reading j key' hj
        split
        · rename_i hshard
          rw [hshard] at hmem
          exact List.mem_cons_of_mem _ hmem
        · exact hmem
    · intro x j hx
      dsimp only at hx ⊢
      rw [Function.update_of_ne]
      · exact h.shared x j hx
      · intro hxk
        rw [hxk, hnone] at hx
        cases hx
    · intro j
      dsimp only
      rw [Function.update_apply]
      split
      · exact h.batch i
      · exact h.batch j
  · cases hstep

/-- A transaction that has nothing to undo may be given up. -/
theorem reset (h : Inv hash s) {i : ℕ}
    (hsame : ∀ key, (s.spec.view i).get key = s.spec.committed.get key) :
    Inv hash { TransactionDB.reset hash s i with spec := s.spec.rollback i } := by
  -- the shards of other transactions stay as they are
  have howner : ∀ x j, (TransactionDB.reset hash s i).owner x = some j → s.owner x = some j := by
    intro x j hx
    cases hlock : (s.transactions i).writelock with
    | none => simpa [TransactionDB.reset, hlock] using hx
    | some key =>
      simp only [TransactionDB.reset, hlock, Function.update_apply] at hx
      split at hx
      · cases hx
      · exact hx
  have hother : ∀ x j, j ≠ i → s.owner x = some j → (TransactionDB.reset hash s i).owner x = some j := by
    intro x j hne hx
    cases hlock : (s.transactions i).writelock with
    | none => simpa [TransactionDB.reset, hlock] using hx
    | some key =>
      simp only [TransactionDB.reset, hlock, Function.update_apply]
      rw [if_neg, hx]
      intro hxk
      rw [hxk, h.owned i key hlock] at hx
      exact hne (Option.some.inj hx).symm
  refine ⟨?_, ?_, ?_, ?_, ?_, ?_, ?_⟩
  · intro j key hj
    simp only [TransactionDB.reset, Function.update_apply] at hj
    split at hj
    · cases hj
    · exact hother _ j ‹_› (h.owned j key hj)
  · intro j key hj
    simp only [TransactionDB.reset, Function.update_apply] at hj
    split at hj
    · cases hj
    · rename_i hne
      have hmem := h.reading j key hj
      cases hlock : (s.transactions i).readlock with
      | none => simpa [TransactionDB.reset, hlock] using hmem
      | some key' =>
        simp only [TransactionDB.reset, hlock, Function.update_apply]
        split
        · rename_i hshard
          rw [hshard] at hmem
          exact (List.mem_erase_of_ne hne).2 hmem
        · exact hmem
  · intro x j hx
    have hnil := h.shared x j (howner x j hx)
    cases hlock : (s.transactions i).readlock with
    | none => simpa [TransactionDB.reset, hlock] using hnil
    | some key' =>
      simp only [TransactionDB.reset, hlock, Function.update_apply]
      split
      · rename_i hxk
        rw [← hxk, hnil]
        rfl
      · exact hnil
  · intro j key hwrote
    obtain ⟨hne, hwrote⟩ := wrote_rollback hwrote
    exact hother _ j hne (h.pending j key hwrote)
  · intro j
    simp only [TransactionDB.reset, Function.update_apply]
    split
    · rfl
    · exact h.batch j
  · intro j key hj
    have hdb := h.ours j key (howner _ j hj)
    simp only [Spec.view, pending_rollback]
    split
    · rename_i hji
      subst hji
      exact hdb.trans (hsame key)
    · exact hdb
  · intro key hnone
    change s.db.get key = s.spec.committed.get key
    cases hx : s.owner (LockMgr.shard hash key) with
    | none => exact h.free key hx
    | some j =>
      by_cases hji : j = i
      · subst hji
        exact (h.ours j key hx).trans (hsame key)
      · rw [hother _ j hji hx] at hnone
        cases hnone

theorem release (h : Inv hash s) {i : ℕ} {found : Views}
    (hsame : ∀ key, (s.spec.view i).get key = s.spec.committed.get key)
    (hstep : TransactionDB.release hash s i found = .next s') : Inv hash s' ∧ s'.db = s.db := by
  rw [TransactionDB.release] at hstep
  split at hstep
  · cases hstep
    exact ⟨h.reset hsame, rfl⟩
  · cases hstep

/-! ### Writes -/

theorem apply (h : Inv hash s) {i : ℕ} {op : Op} (howner : s.owner (LockMgr.shard hash op.key) = some i) :
    Inv hash { s with db := s.db.apply op, spec := s.spec.update i op } := by
  refine ⟨h.owned, h.reading, h.shared, ?_, h.batch, ?_, ?_⟩
  · intro j key hwrote
    rcases wrote_update hwrote with hwrote | ⟨rfl, rfl⟩
    · exact h.pending j key hwrote
    · exact howner
  · intro j key hj
    have hdb := h.ours j key hj
    simp only [Spec.view, pending_update]
    split
    · rename_i hji
      subst hji
      rw [SortedMap.write_append, SortedMap.write_cons, SortedMap.write_nil, SortedMap.get_apply, SortedMap.get_apply,
        hdb]
      rfl
    · rename_i hji
      rw [SortedMap.get_apply, if_neg]
      · exact hdb
      · intro hkey
        rw [hkey, howner] at hj
        exact hji (Option.some.inj hj).symm
  · intro key hnone
    have hkey : key ≠ op.key := by
      intro hkey
      dsimp only at hnone
      rw [hkey, howner] at hnone
      cases hnone
    change (s.db.apply op).get key = s.spec.committed.get key
    rw [SortedMap.get_apply, if_neg hkey]
    exact h.free key hnone

theorem commit (h : Inv hash s) (i : ℕ) : Inv hash { s with spec := s.spec.commit i } := by
  refine ⟨h.owned, h.reading, h.shared, fun j key hwrote => h.pending j key (wrote_commit hwrote), h.batch, ?_, ?_⟩
  · intro j key hj
    have hdb := h.ours j key hj
    simp only [Spec.view, pending_commit]
    split
    · rename_i hji
      subst hji
      exact hdb
    · rename_i hji
      rw [hdb]
      exact (SortedMap.get_write_congr (get_view_of_not_wrote (h.not_wrote_of_owner hj (Ne.symm hji))) _).symm
  · intro key hnone
    rw [h.free key hnone]
    exact (get_view_of_not_wrote (h.not_wrote_of_none hnone i)).symm

/-- A batch may be written to keys that no transaction has written. -/
theorem write (h : Inv hash s) {batch : List Op} (hbatch : ∀ op ∈ batch, ∀ i, ¬ s.spec.Wrote i op.key) :
    Inv hash { s with db := s.db.write batch, spec := s.spec.write batch } := by
  refine ⟨h.owned, h.reading, h.shared, h.pending, h.batch, ?_, ?_⟩
  · intro j key hj
    change (s.db.write batch).get key = ((s.spec.write batch).view j).get key
    by_cases hkey : ∃ op ∈ batch, op.key = key
    · obtain ⟨op, hop, rfl⟩ := hkey
      have hnot : ¬ (s.spec.write batch).Wrote j op.key := hbatch op hop j
      rw [get_view_of_not_wrote hnot]
      exact SortedMap.get_write_congr (h.get_of_not_wrote (hbatch op hop)) batch
    · have hne : ∀ op ∈ batch, op.key ≠ key := fun op hop heq => hkey ⟨op, hop, heq⟩
      rw [SortedMap.get_write_of_forall_ne hne, h.ours j key hj]
      exact (SortedMap.get_write_congr (SortedMap.get_write_of_forall_ne hne) _).symm
  · intro key hnone
    exact SortedMap.get_write_congr (h.free key hnone) batch

/-! ### Steps -/

/-- A transaction that writes has the shard of the key to itself. -/
theorem update_spec (h : Inv hash s) {i : ℕ} {op : Op} (hallowed : Allowed hash s (.update i op))
    (hstep : update hash s i op = .next s') : ∃ s₁, Inv hash s₁ ∧ s₁.owner (LockMgr.shard hash op.key) = some i ∧
      s₁.db = s.db ∧ s₁.spec = s.spec ∧ s' = { s₁ with db := s₁.db.apply op, spec := s₁.spec.update i op } := by
  rw [update] at hstep
  cases hlock : (s.transactions i).writelock with
  | some key =>
    rw [hlock] at hstep
    cases hstep
    refine ⟨s, h, ?_, rfl, rfl, rfl⟩
    rw [hallowed key hlock]
    exact h.owned i key hlock
  | none =>
    rw [hlock] at hstep
    cases hs₁ : TransactionDB.lockWrite hash s i op.key with
    | disabled => simp [hs₁, Outcome.bind] at hstep
    | aborted => simp [hs₁, Outcome.bind] at hstep
    | next s₁ =>
      simp only [hs₁, Outcome.bind] at hstep
      cases hstep
      obtain ⟨hinv, howner, hdb, hspec⟩ := h.lockWrite hs₁
      exact ⟨s₁, hinv, howner, hdb, hspec, rfl⟩

/-- What a transaction reads is its view. -/
theorem read_spec (h : Inv hash s) {i : ℕ} {key : Slice} (hallowed : Allowed hash s (.read i key))
    (hstep : TransactionDB.step hash s (.read i key) = .next s') :
    Inv hash s' ∧ s'.db = s.db ∧ s.db.get key = (s.spec.view i).get key := by
  have hview : s.owner (LockMgr.shard hash key) = none → s.db.get key = (s.spec.view i).get key := fun hnone =>
    (h.free key hnone).trans (get_view_of_not_wrote (h.not_wrote_of_none hnone i)).symm
  rw [TransactionDB.step] at hstep
  cases hlock : (s.transactions i).readlock with
  | none =>
    simp only [hlock] at hstep
    obtain ⟨hinv, hnone, hdb⟩ := h.lockRead hstep
    exact ⟨hinv, hdb, hview hnone⟩
  | some key' =>
    simp only [hlock] at hstep
    cases hstep
    refine ⟨h, rfl, ?_⟩
    cases howner : s.owner (LockMgr.shard hash key) with
    | none => exact hview howner
    | some j =>
      by_cases hji : j = i
      · subst hji
        exact h.ours j key howner
      · have hshard : LockMgr.shard hash key ≠ LockMgr.shard hash key' := by
          intro hshard
          have hmem := h.reading i key' hlock
          rw [← hshard, h.shared _ j howner] at hmem
          cases hmem
        have hnot := hallowed key' hlock hshard j hji
        rw [h.ours j key howner, get_view_of_not_wrote hnot]
        exact (get_view_of_not_wrote (h.not_wrote_of_owner howner (Ne.symm hji))).symm

private theorem free_cases {s : State} {key : Slice} {t : State}
    (h : (if TransactionDB.free hash s key then Outcome.next t else .disabled) = .next s') :
    s.owner (LockMgr.shard hash key) = none ∧ s' = t := by
  split at h
  · rename_i hfree
    rw [TransactionDB.free, Bool.and_eq_true, Option.isNone_iff_eq_none] at hfree
    cases h
    exact ⟨hfree.1, rfl⟩
  · cases h

theorem step (h : Inv hash s) {a : Action} (hallowed : Allowed hash s a)
    (hstep : TransactionDB.step hash s a = .next s') : Inv hash s' := by
  cases a with
  | update i op =>
    obtain ⟨s₁, hinv, howner, -, -, rfl⟩ := h.update_spec hallowed hstep
    exact hinv.apply howner
  | read i key => exact (h.read_spec hallowed hstep).1
  | Commit i =>
    cases hstep
    rw [h.batch i]
    exact h.commit i
  | Rollback i found returns =>
    rw [TransactionDB.step, if_pos hallowed.2.2] at hstep
    exact (h.release hallowed.1 hstep).1
  | destroy i found => exact (h.release hallowed.1 hstep).1
  | Put key value =>
    obtain ⟨hnone, rfl⟩ := free_cases hstep
    refine @write _ _ h [.Put key value] fun op hop => ?_
    rw [List.mem_singleton.1 hop]
    exact h.not_wrote_of_none hnone
  | Delete key =>
    obtain ⟨hnone, rfl⟩ := free_cases hstep
    refine @write _ _ h [.Delete key] fun op hop => ?_
    rw [List.mem_singleton.1 hop]
    exact h.not_wrote_of_none hnone
  | Write updates =>
    cases hstep
    exact h.write hallowed
  | Get key =>
    rw [TransactionDB.step] at hstep
    split at hstep
    · cases hstep
      exact h
    · cases hstep

/-- A call leaves the keys alone that another transaction has written. -/
theorem exclusive (h : Inv hash s) {a : Action} (hallowed : Allowed hash s a)
    (hstep : TransactionDB.step hash s a = .next s') {i : ℕ} {key : Slice} (hwrote : s.spec.Wrote i key)
    (hne : a.transaction ≠ some i) : s'.db.get key = s.db.get key := by
  have howner := h.pending i key hwrote
  cases a with
  | update j op =>
    obtain ⟨s₁, hinv, howner₁, hdb, hspec, rfl⟩ := h.update_spec hallowed hstep
    dsimp only
    rw [SortedMap.get_apply, hdb, if_neg]
    rintro rfl
    have howner' := hinv.pending i op.key (hspec ▸ hwrote)
    rw [howner₁] at howner'
    exact hne howner'
  | read j key' => rw [(h.read_spec hallowed hstep).2.1]
  | Commit j =>
    cases hstep
    rw [h.batch j]
    rfl
  | Rollback j found returns =>
    rw [TransactionDB.step, if_pos hallowed.2.2] at hstep
    rw [(h.release hallowed.1 hstep).2]
  | destroy j found => rw [(h.release hallowed.1 hstep).2]
  | Put key' value =>
    obtain ⟨hnone, rfl⟩ := free_cases hstep
    dsimp only
    rw [SortedMap.get_put, if_neg]
    rintro rfl
    rw [howner] at hnone
    cases hnone
  | Delete key' =>
    obtain ⟨hnone, rfl⟩ := free_cases hstep
    dsimp only
    rw [SortedMap.get_delete, if_neg]
    rintro rfl
    rw [howner] at hnone
    cases hnone
  | Write updates =>
    cases hstep
    refine SortedMap.get_write_of_forall_ne fun op hop heq => ?_
    exact hallowed op hop i (heq ▸ hwrote)
  | Get key' =>
    rw [TransactionDB.step] at hstep
    split at hstep
    · cases hstep
      rfl
    · cases hstep

/-- A call that is allowed comes to its end. -/
theorem not_aborted {a : Action} (hallowed : Allowed hash s a) : TransactionDB.step hash s a ≠ .aborted := by
  intro hstep
  cases a with
  | update i op =>
    simp only [TransactionDB.step, TransactionDB.update] at hstep
    cases hlock : (s.transactions i).writelock with
    | some key => simp [hlock, Outcome.bind] at hstep
    | none =>
      simp only [hlock, TransactionDB.lockWrite] at hstep
      by_cases hfree : TransactionDB.free hash s op.key = true <;> simp [hfree, Outcome.bind] at hstep
  | read i key =>
    rw [TransactionDB.step, TransactionDB.lockRead] at hstep
    split at hstep
    · split at hstep <;> cases hstep
    · cases hstep
  | Rollback i found returns =>
    rw [TransactionDB.step, if_pos hallowed.2.2, TransactionDB.release, if_pos hallowed.2.1] at hstep
    cases hstep
  | destroy i found =>
    rw [TransactionDB.step, TransactionDB.release, if_pos hallowed.2] at hstep
    cases hstep
  | Commit i => cases hstep
  | Write updates => cases hstep
  | Put key value =>
    rw [TransactionDB.step] at hstep
    split at hstep <;> cases hstep
  | Delete key =>
    rw [TransactionDB.step] at hstep
    split at hstep <;> cases hstep
  | Get key =>
    rw [TransactionDB.step] at hstep
    split at hstep <;> cases hstep

theorem isolated (h : Inv hash s) {a : Action} (hallowed : Allowed hash s a) : StepIsolated hash s a := by
  refine ⟨not_aborted hallowed, ?_⟩
  intro s' hstep
  refine ⟨?_, ?_, ?_, ?_, fun i key hwrote hne => h.exclusive hallowed hstep hwrote hne⟩
  · rintro key rfl
    rw [TransactionDB.step] at hstep
    split at hstep
    · exact h.free key (Option.isNone_iff_eq_none.1 ‹_›)
    · cases hstep
  · rintro i key rfl
    exact (h.read_spec hallowed hstep).2.2
  · rintro i found returns rfl key
    rw [TransactionDB.step, if_pos hallowed.2.2] at hstep
    rw [(h.release hallowed.1 hstep).2]
    refine ⟨fun hwrote => ?_, fun _ => rfl⟩
    exact (h.ours i key (h.pending i key hwrote)).trans (hallowed.1 key)
  · rintro i rfl key
    cases hstep
    rw [h.batch i]
    exact ⟨fun hwrote => h.ours i key (h.pending i key hwrote), fun _ => rfl⟩

end Inv

/-! ### Runs -/

/-- In a run of calls that are allowed, each is isolated. -/
theorem run_isolated (hash : Slice → ℕ) (db : Db) {actions : List Action}
    (hmeets : Meets (step hash) (Allowed hash) (init db) actions) :
    Meets (step hash) (StepIsolated hash) (init db) actions := by
  have hboth : Meets (step hash) (fun s a => Allowed hash s a ∧ StepIsolated hash s a) (init db) actions :=
    hmeets.of_invariant (fun _ _ hinv hallowed => ⟨hallowed, Inv.isolated hinv hallowed⟩)
      (fun _ _ _ hinv hboth hstep => Inv.step hinv hboth.1 hstep) (inv_init hash db)
  exact hboth.mono fun _ _ h => h.2

/-- A transaction commits what it has written, while another client reads a key of another shard.  The buffer of its
key then holds another key of the same shard. -/
theorem run_isolated_commit :
    Meets (step List.length) (StepIsolated List.length) (init .empty)
      [.update 0 (.Put [1] [7]), .Get [1, 2], .Commit 0, .destroy 0 ⟨[2], []⟩, .Get [1]] := by
  refine run_isolated List.length .empty ⟨?_, ?_⟩
  · intro key hkey
    cases hkey
  rintro _ ⟨⟩
  refine ⟨trivial, ?_⟩
  rintro _ ⟨⟩
  refine ⟨trivial, ?_⟩
  rintro _ ⟨⟩
  refine ⟨⟨fun key => rfl, by decide⟩, ?_⟩
  rintro _ ⟨⟩
  exact ⟨trivial, fun _ _ => trivial⟩

/-- A value that a transaction has put is there after it is rolled back. -/
theorem not_isolated : ¬ ∀ (hash : Slice → ℕ) (db : Db) (actions : List Action),
    Meets (step hash) (StepIsolated hash) (init db) actions := by
  intro h
  have hrun := h List.length .empty [.update 0 (.Put [1] [7]), .Rollback 0 ⟨[1], []⟩ true]
  have hrollback := ((hrun.2 _ rfl).1.2 _ rfl).rollback 0 _ _ rfl [1]
  have hvalue := hrollback.1 (List.mem_singleton.2 rfl)
  revert hvalue
  decide +kernel

end TransactionDB

end RedisDb
