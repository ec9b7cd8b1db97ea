import SwissArmyKnife.Lib.Interleaving
import SwissArmyKnife.RedisDb.LockMgr
import SwissArmyKnife.RedisDb.RedisString

/-!
# Clients of the strings

Several clients call `Set`, `MSet`, `Setnx`, `MSetnx` and `Del`, while the clock goes on.  `MSetnx` looks for its keys
one by one without a lock, and takes the locks of the keys only in `MSet`.  As long as no call makes a key live that
an `MSetnx` has found missing, and none goes on to `MSet` after a read that failed, an `MSetnx` sets all of its keys,
none of which was live, or none.
-/

namespace RedisDb

open Transition (Meets run)

namespace RedisString

structure Store where
  clock : Int
  db : Db

/-- The calls of the clients; `wait` lets the clock go on. -/
inductive Update where
  | Set (key value : Slice)
  | MSet (kvs : List KeyValue)
  | Setnx (key value : Slice) (ttl : Int32)
  | MSetnx (kvs : List KeyValue)
  | Del (key : Slice)
  | wait (n : ℕ)
deriving DecidableEq

/-- A call of a client, with the errors of its reads. -/
structure Request where
  update : Update
  io : Nat → Option Failure := fun _ => none

structure Answer where
  status : Status
  ret : Int32
deriving DecidableEq

abbrev Program := Interleaving.Program Store ℕ Answer

def Store.write (s : Store) (db : Db) : Store := { s with db := db }

def SetSteps (hash : Slice → ℕ) (key value : Slice) : Program :=
  let lock := LockMgr.shard hash key
  .lock lock <| .write (fun s => s.write (Set s.db key value).1) ⟨.OK, 0⟩ [lock]

/-- A call that takes the locks one after another and goes on. -/
def lockEach : List ℕ → Program → Program
  | [], next => next
  | lock :: locks, next => .lock lock (lockEach locks next)

/-- `MSet`, as a part of a call that answers `answer`. -/
def MSetSteps (hash : Slice → ℕ) (kvs : List KeyValue) (answer : Answer) : Program :=
  let keys := kvs.map KeyValue.key
  lockEach ((MultiHashLock.lockKeys keys).map (LockMgr.shard hash)) <|
    .write (fun s => s.write (MSet s.db kvs).1) answer ((MultiHashLock.unlockKeys keys).map (LockMgr.shard hash))

def SetnxSteps (hash : Slice → ℕ) (io : Nat → Option Failure) (key value : Slice) (ttl : Int32) : Program :=
  let lock := LockMgr.shard hash key
  let put : Program :=
    .write (fun s => s.write (s.db.put key (newStringsValue value ttl s.clock).Encode)) ⟨.OK, 1⟩ [lock]
  .lock lock <| .read fun s =>
    match RedisDb.Get (io 0) s.db key with
    | .ok oldValue => if (ParsedStringsMetaValue.new oldValue).IsStale s.clock then put else .finish ⟨.OK, 0⟩ [lock]
    | .notFound => put
    | .error e => .finish ⟨e.status, 0⟩ [lock]

/-- The loop of `MSetnx`, one read in each step. -/
def checkEach (io : Nat → Option Failure) (absent : Program) : Nat → List KeyValue → Program
  | _, [] => absent
  | i, kv :: kvs => .read fun s =>
    match RedisDb.Get (io i) s.db kv.key with
    | .ok value =>
      if (ParsedStringsMetaValue.new value).IsStale s.clock then checkEach io absent (i + 1) kvs
      else .finish ⟨.OK, 0⟩ []
    | .notFound => checkEach io absent (i + 1) kvs
    | .error _ => checkEach io absent (i + 1) kvs

def MSetnxSteps (hash : Slice → ℕ) (io : Nat → Option Failure) (kvs : List KeyValue) : Program :=
  checkEach io (MSetSteps hash kvs ⟨.OK, 1⟩) 0 kvs

def DelSteps (hash : Slice → ℕ) (io : Nat → Option Failure) (key : Slice) : Program :=
  let lock := LockMgr.shard hash key
  .lock lock <| .read fun s =>
    match RedisDb.Get (io 0) s.db key with
    | .ok value =>
      if (ParsedStringsMetaValue.new value).IsStale s.clock then .finish ⟨.NotFound "Stale", 0⟩ [lock]
      else .write (fun s => s.write (s.db.delete key)) ⟨.OK, 0⟩ [lock]
    | .notFound => .finish ⟨.NotFound "", 0⟩ [lock]
    | .error e => .finish ⟨e.status, 0⟩ [lock]

/-- The calls; `hash` stands for `std::hash`. -/
def steps (hash : Slice → ℕ) (r : Request) : Program :=
  match r.update with
  | .Set key value => SetSteps hash key value
  | .MSet kvs => MSetSteps hash kvs ⟨.OK, 0⟩
  | .Setnx key value ttl => SetnxSteps hash r.io key value ttl
  | .MSetnx kvs => MSetnxSteps hash r.io kvs
  | .Del key => DelSteps hash r.io key
  | .wait n => .write (fun s => { s with clock := s.clock + n }) ⟨.OK, 0⟩ []

/-! ### Histories -/

abbrev Clients := Interleaving.State Store ℕ Answer Request

abbrev Event := Interleaving.Event Store Answer Request

/-- The key holds a value that is not stale. -/
def Store.live (s : Store) (key : Slice) : Bool := RedisString.live s.clock (s.db.get key)

/-- The call reads that no key is live, and sets all at once. -/
structure SetsAll (kvs : List KeyValue) (e : Event) : Prop where
  readable : ∀ i < kvs.length, e.call.io i = none
  absent : ∀ kv ∈ kvs, e.before.live kv.key = false
  after : e.after = e.before.write (MSet e.before.db kvs).1
  ret : e.result.ret = 1

/-- Each `MSetnx` sets all of its keys when none is live, or changes nothing.  Between two that set the same key, it
was deleted, or its time passed. -/
structure Exclusive (s₀ : Store) (s : Clients) : Prop where
  linked : Interleaving.Linked s₀ s.history s.store
  returned : ∀ x ∈ s.returned, ∃ e ∈ s.history, e.call = x.1 ∧ e.result = x.2
  allOrNothing : ∀ e ∈ s.history, ∀ kvs, e.call.update = .MSetnx kvs →
    SetsAll kvs e ∨ e.after = e.before ∧ e.result.ret = 0
  once : ∀ before e between e' after kvs kvs' key, s.history = before ++ e :: (between ++ e' :: after) →
    e.call.update = .MSetnx kvs → e'.call.update = .MSetnx kvs' → e.result.ret = 1 → e'.result.ret = 1 →
    key ∈ kvs.map KeyValue.key → key ∈ kvs'.map KeyValue.key →
    ∃ x ∈ between, x.before.live key = true ∧ x.after.live key = false

/-! ### The condition -/

def IsMSetnx (r : Request) : Prop := ∃ kvs, r.update = .MSetnx kvs

/-- An `MSetnx` that goes on to set its keys has read all of them. -/
def Readable (r : Request) (s : Store) : Prop :=
  ∀ kvs, r.update = .MSetnx kvs → anyExists r.io s.db s.clock 0 kvs = false → ∀ i < kvs.length, r.io i = none

/-- When a call writes while an `MSetnx` is in progress, the `MSetnx`, if it goes on with the keys that it has found
missing, still does what it would do if it looked for them anew; and one that sets its keys has read all of them. -/
abbrev Allowed (hash : Slice → ℕ) : Clients → Interleaving.Action Request → Prop :=
  Interleaving.Fair (steps hash) IsMSetnx Readable fun _ _ => True

/-! ### `MSetnx` alone -/

theorem alone_lockEach (locks : List ℕ) (next : Program) (s : Store) :
    (lockEach locks next).alone s = next.alone s := by
  induction locks with
  | nil => rfl
  | cons lock locks ih => exact ih

private theorem alone_checkEach (io : Nat → Option Failure) (absent : Program) (i : Nat) (kvs : List KeyValue)
    (s : Store) : (checkEach io absent i kvs).alone s =
      if anyExists io s.db s.clock i kvs then (s, ⟨.OK, 0⟩) else absent.alone s := by
  induction kvs generalizing i with
  | nil => rfl
  | cons kv kvs ih =>
    obtain ⟨found, hfound⟩ : ∃ found, RedisDb.Get (io i) s.db kv.key = found := ⟨_, rfl⟩
    simp only [checkEach, anyExists, Interleaving.Program.alone, hfound]
    cases found with
    | ok value =>
      dsimp only
      split
      · exact ih (i + 1)
      · rfl
    | notFound => exact ih (i + 1)
    | error e => exact ih (i + 1)

/-- An `MSetnx` that no other call interrupts does what the function does. -/
theorem alone_mSetnx (hash : Slice → ℕ) (io : Nat → Option Failure) (kvs : List KeyValue) (s : Store) :
    let r := MSetnx io s.db kvs s.clock
    (MSetnxSteps hash io kvs).alone s = (s.write r.1, ⟨r.2.1, r.2.2⟩) := by
  simp only [MSetnxSteps, MSetSteps, alone_checkEach, alone_lockEach, Interleaving.Program.alone, MSetnx]
  split <;> rfl

private theorem anyExists_eq_false {io : Nat → Option Failure} {s : Store} {i : Nat} {kvs : List KeyValue}
    (hio : ∀ j < kvs.length, io (i + j) = none) (h : anyExists io s.db s.clock i kvs = false) :
    ∀ kv ∈ kvs, s.live kv.key = false := by
  induction kvs generalizing i with
  | nil => simp
  | cons kv kvs ih =>
    have htail : ∀ j < kvs.length, io (i + 1 + j) = none := by
      intro j hj
      have := hio (j + 1) (by simpa using hj)
      rwa [show i + (j + 1) = i + 1 + j by omega] at this
    have hhead : io i = none := hio 0 (by simp)
    simp only [anyExists, RedisDb.Get, hhead] at h
    cases hget : s.db.get kv.key with
    | none =>
      simp only [hget] at h
      rintro kv' (_ | ⟨_, hmem⟩)
      · simp [Store.live, live, hget]
      · exact ih htail h kv' hmem
    | some value =>
      simp only [hget] at h
      split at h
      · rename_i hstale
        rintro kv' (_ | ⟨_, hmem⟩)
        · simp [Store.live, live, hget, hstale]
        · exact ih htail h kv' hmem
      · cases h

private theorem live_mSet (s : Store) {kvs : List KeyValue} {key : Slice} (h : key ∈ kvs.map KeyValue.key) :
    (s.write (MSet s.db kvs).1).live key = true := by
  have hget := SortedMap.get_puts (f := KeyValue.key) (g := fun kv => (StringsMetaValue.new kv.value).Encode) s.db kvs
    (k := key) (p := fun kv => kv.key = key) (by simp)
  obtain ⟨kv, hkv, rfl⟩ := List.mem_map.1 h
  cases hfind : kvs.reverse.find? fun kv' => kv'.key = kv.key with
  | none =>
    have hnot := List.find?_eq_none.1 hfind kv (List.mem_reverse.2 hkv)
    simp at hnot
  | some kv' =>
    rw [hfind] at hget
    simp only [Store.live, live, Store.write, MSet, hget, Option.map_some, Option.some_or,
      StringsMetaValue.new_encode]
    rfl

/-! ### Runs -/

private theorem setsAll_or {hash : Slice → ℕ} {e : Event} {kvs : List KeyValue} (hcall : e.call.update = .MSetnx kvs)
    (hok : Interleaving.EventOk (steps hash) Readable e) :
    SetsAll kvs e ∨ e.after = e.before ∧ e.result.ret = 0 := by
  have halone := hok.alone
  simp only [steps, hcall, alone_mSetnx, MSetnx, Prod.mk.injEq] at halone
  obtain ⟨hafter, hresult⟩ := halone
  cases hexists : anyExists e.call.io e.before.db e.before.clock 0 kvs with
  | true =>
    rw [hexists, if_pos rfl] at hafter hresult
    exact .inr ⟨hafter.symm, by rw [← hresult]⟩
  | false =>
    rw [hexists] at hafter hresult
    have hread := hok.ok kvs hcall hexists
    refine .inl ⟨hread, ?_, hafter.symm, by rw [← hresult]; rfl⟩
    exact anyExists_eq_false (i := 0) (fun j hj => by rw [Nat.zero_add]; exact hread j hj) hexists

/-- In a run in which no call makes a key live that an `MSetnx` in progress has found missing, and no `MSetnx` sets
keys after a read that failed, each sets all of its keys, or none. -/
theorem run_exclusive (hash : Slice → ℕ) (s₀ : Store) {actions : List (Interleaving.Action Request)} {s : Clients}
    (hmeets : Meets (Interleaving.step (steps hash)) (Allowed hash) (Interleaving.init s₀) actions)
    (hrun : run (Interleaving.step (steps hash)) (Interleaving.init s₀) actions = .next s) : Exclusive s₀ s := by
  have hsound := (Interleaving.run_sound (fun _ _ h => absurd trivial h) hmeets hrun).serialized
  have hall : ∀ e ∈ s.history, ∀ kvs, e.call.update = .MSetnx kvs →
      SetsAll kvs e ∨ e.after = e.before ∧ e.result.ret = 0 :=
    fun e he kvs hcall => setsAll_or hcall (hsound.events e he ⟨kvs, hcall⟩)
  refine ⟨hsound.linked, hsound.returned, hall, ?_⟩
  intro before e between e' after kvs kvs' key hhistory hcall hcall' hret hret' hkey hkey'
  have hlinked := hsound.linked
  rw [hhistory] at hlinked hall
  obtain ⟨t, -, rfl, hlinked⟩ := Interleaving.linked_append hlinked
  obtain ⟨t', hbetween, rfl, -⟩ := Interleaving.linked_append hlinked
  have hsets : SetsAll kvs e := (hall e (by simp) kvs hcall).resolve_right fun h => by
    rw [h.2] at hret
    cases hret
  have hsets' : SetsAll kvs' e' := (hall e' (by simp) kvs' hcall').resolve_right fun h => by
    rw [h.2] at hret'
    cases hret'
  have hbefore : e.after.live key = true := by
    rw [hsets.after]
    exact live_mSet e.before hkey
  have hafter : e'.before.live key = false := by
    obtain ⟨kv, hkv, rfl⟩ := List.mem_map.1 hkey'
    exact hsets'.absent kv hkv
  exact Interleaving.Linked.exists_end (P := fun s => s.live key) hbetween hbefore hafter

/-- An `MSetnx` has looked for its key when a `Set` writes another one, and then it sets its own. -/
theorem run_exclusive_set :
    ∃ s : Clients, s.history.length = 2 ∧ s.store.live [1] = true ∧ Exclusive ⟨100, .empty⟩ s := by
  let hash : Slice → ℕ := fun key => key.length
  let actions : List (Interleaving.Action Request) :=
    [.call 0 { update := .MSetnx [⟨[1], [7]⟩] }, .step 0, .call 1 { update := .Set [2, 2] [8] },
      .step 1, .step 1, .step 0,
      .step 0]
  cases hrun : run (Interleaving.step (steps hash)) (Interleaving.init ⟨100, .empty⟩) actions with
  | disabled => cases hrun
  | aborted => cases hrun
  | next s =>
    refine ⟨s, ?_, ?_, @run_exclusive hash ⟨100, .empty⟩ actions s ?_ hrun⟩
    · cases hrun
      rfl
    · cases hrun
      decide +kernel
    · refine ⟨Interleaving.Fair.call rfl, ?_⟩
      rintro _ ⟨⟩
      refine ⟨Interleaving.Fair.step rfl rfl, ?_⟩
      rintro _ ⟨⟩
      refine ⟨Interleaving.Fair.call rfl, ?_⟩
      rintro _ ⟨⟩
      refine ⟨Interleaving.Fair.step rfl rfl, ?_⟩
      rintro _ ⟨⟩
      refine ⟨⟨?_, ?_⟩, ?_⟩
      · intro i c f r held ha hi j d q hne hj _ _ _ _
        cases ha
        cases hi
        rcases eq_or_ne j 0 with rfl | hj0
        · -- the key is still missing
          cases hj
          rfl
        · simp [Interleaving.State.resume, Interleaving.init, Function.update_of_ne hne,
            Function.update_of_ne hj0] at hj
      · intro c p hrunning _ hwatched
        cases hrunning
        obtain ⟨kvs, hkvs⟩ := hwatched
        cases hkvs
      rintro _ ⟨⟩
      refine ⟨Interleaving.Fair.step rfl rfl, ?_⟩
      rintro _ ⟨⟩
      refine ⟨Interleaving.Fair.only rfl ?_ fun _ kvs hkvs _ i hi => ?_, fun _ _ => trivial⟩
      · intro j d q hne hj
        rcases eq_or_ne j 1 with rfl | hj1
        · cases hj
          rfl
        · simp [Interleaving.State.resume, Interleaving.init, Function.update_of_ne hne,
            Function.update_of_ne hj1] at hj
      · cases hkvs
        rfl

/-- Two calls of `MSetnx` find the same key missing, and then both set it. -/
theorem not_exclusive :
    ¬ ∀ (hash : Slice → ℕ) (s₀ : Store) (actions : List (Interleaving.Action Request)) (s : Clients),
    run (Interleaving.step (steps hash)) (Interleaving.init s₀) actions = .next s → Exclusive s₀ s := by
  intro h
  let hash : Slice → ℕ := fun key => key.length
  let actions : List (Interleaving.Action Request) :=
    [.call 0 { update := .MSetnx [⟨[1], [7]⟩] }, .call 1 { update := .MSetnx [⟨[1], [8]⟩] }, .step 0, .step 1,
      .step 0, .step 0, .step 0, .step 0, .step 1, .step 1]
  cases hrun : run (Interleaving.step (steps hash)) (Interleaving.init ⟨100, .empty⟩) actions with
  | disabled => cases hrun
  | aborted => cases hrun
  | next s =>
    have hsecond : ∃ e ∈ s.history, e.call.update = .MSetnx [⟨[1], [8]⟩] ∧ e.result.ret = 1 ∧
        e.before.live [1] = true := by
      cases hrun
      exact ⟨_, List.mem_cons_of_mem _ (List.mem_cons_self ..), rfl, rfl, rfl⟩
    obtain ⟨e, he, hcall, hret, hlive⟩ := hsecond
    rcases (h hash ⟨100, .empty⟩ actions s hrun).allOrNothing e he _ hcall with hsets | ⟨-, hzero⟩
    · rw [hsets.absent _ (List.mem_singleton.2 rfl)] at hlive
      cases hlive
    · rw [hret] at hzero
      cases hzero

end RedisString

end RedisDb
