import SwissArmyKnife.Lib.Interleaving
import SwissArmyKnife.RedisDb.RedisHashRuns

/-!
# Clients of a hash

Several clients call `HSet`, `HMSet`, `HDel` and `Del` on one key.  The lock of the key, each `Get` and the final
`Write` are steps of their own; a scan is one step, as its iterator is, and so are the reads of `HDel`, which all use
one snapshot.  `HDel` takes no lock.  When no write comes between the reads and the write of a call and changes what
the call does, and one of the two is an `HDel`, the calls take effect one after another, and each as on the map.
-/

namespace RedisDb

open FirstOf (firstOf)
open Transition (Meets run)

namespace RedisHash

inductive Update where
  | HSet (field value : Slice)
  | HMSet (fvs : List FieldValue)
  | HDel (fields : List Slice)
  | Del

def Update.call : Update → Call
  | .HSet field value => .HSet field value
  | .HMSet fvs => .HMSet fvs
  | .HDel fields => .HDel fields
  | .Del => .Del

/-- A call of a client, with the readings of the clock, the errors of its reads and the memory of the temporary. -/
structure Request where
  update : Update
  time : Int := 0
  lag : ℕ := 0
  io : Nat → Option Failure := fun _ => none
  memory : UInt32 := 0

structure Answer where
  status : Status
  reply : Reply
  failed : Option Failure

abbrev Program := Interleaving.Program Db ℕ Answer

/-- The reads of a loop over data keys, one step each. -/
def readEach (io : Nat → Option Failure) :
    (Except Failure (List (Option Slice)) → Program) → Nat → List Slice → Program
  | next, _, [] => next (.ok [])
  | next, i, k :: ks => .read fun db =>
    match Get (io i) db k with
    | .error e => next (.error e)
    | .ok value => readEach io (fun values => next (values.map (some value :: ·))) (i + 1) ks
    | .notFound => readEach io (fun values => next (values.map (none :: ·))) (i + 1) ks

def HSetSteps (lock : ℕ) (io : Nat → Option Failure) (memory : UInt32) (key : Slice) (time later : Int)
    (field value : Slice) : Program :=
  .lock lock <| .read fun db =>
    match Get (io 0) db key with
    | .ok metavalue =>
      let phashesmetavalue := ParsedBaseMetaValue.new metavalue
      if phashesmetavalue.IsStale time || phashesmetavalue.count == 0 then
        let phashesmetavalue := (phashesmetavalue.InitialMetaValue later).SetCount 1
        let batch := [.Put key phashesmetavalue.value, .Put (BaseDataKey key phashesmetavalue.version field) value]
        .write (fun db => db.write batch) ⟨.OK, .set true (some 1), none⟩ [lock]
      else
        let hashDataKey := BaseDataKey key phashesmetavalue.version field
        .read fun db =>
          match Get (io 1) db hashDataKey with
          | .ok dataValue =>
            if dataValue == value then .finish ⟨.OK, .set true (some 0), none⟩ [lock]
            else .write (fun db => db.write [.Put hashDataKey value]) ⟨.OK, .set true (some 0), none⟩ [lock]
          | .notFound =>
            let batch := [.Put key (phashesmetavalue.ModifyCount 1).value, .Put hashDataKey value]
            .write (fun db => db.write batch) ⟨.OK, .set true (some 1), none⟩ [lock]
          | .error e => .finish ⟨e.status, .set e.status.ok none, some e⟩ [lock]
    | .notFound =>
      let metavalue := newMetaValue memory later
      let batch := [.Put key metavalue.Encode, .Put (BaseDataKey key metavalue.version field) value]
      .write (fun db => db.write batch) ⟨.OK, .set true (some 1), none⟩ [lock]
    | .error e => .finish ⟨e.status, .set e.status.ok none, some e⟩ [lock]

def HMSetSteps (lock : ℕ) (io : Nat → Option Failure) (memory : UInt32) (key : Slice) (time later : Int)
    (fvs : List FieldValue) : Program :=
  let filteredfvs := lastOf fvs
  let puts (version : Int32) : List (SortedMap.Op Slice Slice) :=
    filteredfvs.map fun fv => .Put (BaseDataKey key version fv.field) fv.value
  .lock lock <| .read fun db =>
    match Get (io 0) db key with
    | .ok metavalue =>
      let phashesmetavalue := ParsedBaseMetaValue.new metavalue
      if phashesmetavalue.IsStale time || phashesmetavalue.count == 0 then
        let phashesmetavalue := (phashesmetavalue.InitialMetaValue later).SetCount (Int32.ofNat filteredfvs.length)
        .write (fun db => db.write (.Put key phashesmetavalue.value :: puts phashesmetavalue.version))
          ⟨.OK, .stored true, none⟩ [lock]
      else
        let version := phashesmetavalue.version
        let finish : Except Failure (List (Option Slice)) → Program
          | .error e => .finish ⟨e.status, .stored e.status.ok, some e⟩ [lock]
          | .ok values =>
            let count := Int32.ofNat (values.filter Option.isNone).length
            .write (fun db => db.write (puts version ++ [.Put key (phashesmetavalue.ModifyCount count).value]))
              ⟨.OK, .stored true, none⟩ [lock]
        readEach io finish 1 (filteredfvs.map fun fv => BaseDataKey key version fv.field)
    | .notFound =>
      let hashesmetavalue := newMetaValue memory later
      .write (fun db => db.write (.Put key hashesmetavalue.Encode :: puts hashesmetavalue.version))
        ⟨.OK, .stored true, none⟩ [lock]
    | .error e => .write (fun db => db.write []) ⟨.OK, .stored true, some e⟩ [lock]

def HDelSteps (io : Nat → Option Failure) (key : Slice) (time : Int) (fields : List Slice) : Program :=
  let filteredfields := firstOf id fields
  .read fun snapshot =>
    match Get (io 0) snapshot key with
    | .ok metavalue =>
      let phashesmetavalue := ParsedBaseMetaValue.new metavalue
      if phashesmetavalue.IsStale time || phashesmetavalue.count == 0 then
        .finish ⟨.OK, .deleted true (some 0), none⟩ []
      else
        let keys := filteredfields.map fun field => BaseDataKey key phashesmetavalue.version field
        match readAll io snapshot 1 keys with
        | .error e => .finish ⟨e.status, .deleted e.status.ok none, some e⟩ []
        | .ok values =>
          let deleted := ((keys.zip values).filter fun kv => kv.2.isSome).map Prod.fst
          let delcnt := Int32.ofNat deleted.length
          let batch := deleted.map .Delete ++ [.Put key (phashesmetavalue.ModifyCount (-delcnt)).value]
          .write (fun db => db.write batch) ⟨.OK, .deleted true (some delcnt.toInt), none⟩ []
    | .notFound => .finish ⟨.OK, .deleted true (some 0), none⟩ []
    | .error e => .finish ⟨e.status, .deleted e.status.ok none, some e⟩ []

def DelSteps (lock : ℕ) (io : Nat → Option Failure) (key : Slice) (time : Int) : Program :=
  .lock lock <| .read fun db =>
    match Get (io 0) db key with
    | .ok metavalue =>
      let phashesmetavalue := ParsedBaseMetaValue.new metavalue
      if phashesmetavalue.IsStale time then .finish ⟨.NotFound "Stale", .removed, none⟩ [lock]
      else if phashesmetavalue.count == 0 then .finish ⟨.NotFound "", .removed, none⟩ [lock]
      else
        .read fun db =>
          let found := scanPrefix db (BaseDataKey key phashesmetavalue.version [])
          .write (fun db => db.write (.Delete key :: found.map fun e => .Delete e.1)) ⟨.OK, .removed, none⟩ [lock]
    | .notFound => .write (fun db => db.write []) ⟨.OK, .removed, none⟩ [lock]
    | .error e => .write (fun db => db.write []) ⟨.OK, .removed, some e⟩ [lock]

/-- The calls on one key, with the number of the mutex that its `HashLock` locks. -/
def steps (lock : ℕ) (key : Slice) (r : Request) : Program :=
  let later := r.time + r.lag
  match r.update with
  | .HSet field value => HSetSteps lock r.io r.memory key r.time later field value
  | .HMSet fvs => HMSetSteps lock r.io r.memory key r.time later fvs
  | .HDel fields => HDelSteps r.io key r.time fields
  | .Del => DelSteps lock r.io key r.time

/-! ### Calls alone -/

def Request.action (r : Request) : Action := ⟨r.update.call, 0, r.lag, r.io, r.memory⟩

def Outcome.answer (o : Outcome) : Answer := ⟨o.status, o.reply, o.failed⟩

private theorem alone_readEach (io : Nat → Option Failure) (next : Except Failure (List (Option Slice)) → Program)
    (i : Nat) (keys : List Slice) (db : Db) :
    (readEach io next i keys).alone db = (next (readAll io db i keys)).alone db := by
  induction keys generalizing i next with
  | nil => rfl
  | cons k ks ih =>
    simp only [readEach, Interleaving.Program.alone, readAll]
    cases Get (io i) db k with
    | error e => rfl
    | ok value =>
      simp only [ih]
      cases readAll io db (i + 1) ks <;> rfl
    | notFound =>
      simp only [ih]
      cases readAll io db (i + 1) ks <;> rfl

private theorem alone_hSet (lock : ℕ) (io : Nat → Option Failure) (memory : UInt32) (db : Db) (key : Slice)
    (time later : Int) (field value : Slice) :
    let r := HSet io memory db key time later field value
    (HSetSteps lock io memory key time later field value).alone db =
      (r.db, ⟨r.status, .set r.status.ok (r.value.map Int32.toInt), r.failed⟩) := by
  simp only [HSetSteps, Interleaving.Program.alone, HSet]
  cases Get (io 0) db key with
  | notFound => rfl
  | error e => rfl
  | ok metavalue =>
    dsimp only
    split
    · rfl
    · simp only [Interleaving.Program.alone]
      cases Get (io 1) db (BaseDataKey key (ParsedBaseMetaValue.new metavalue).version field) with
      | notFound => rfl
      | error e => rfl
      | ok dataValue =>
        dsimp only
        split <;> rfl

private theorem alone_hMSet (lock : ℕ) (io : Nat → Option Failure) (memory : UInt32) (db : Db) (key : Slice)
    (time later : Int) (fvs : List FieldValue) :
    let r := HMSet io memory db key time later fvs
    (HMSetSteps lock io memory key time later fvs).alone db = (r.db, ⟨r.status, .stored r.status.ok, r.failed⟩) := by
  simp only [HMSetSteps, Interleaving.Program.alone, HMSet]
  cases Get (io 0) db key with
  | notFound => rfl
  | error e => rfl
  | ok metavalue =>
    dsimp only
    split
    · rfl
    · rw [alone_readEach]
      cases readAll io db 1 ((lastOf fvs).map fun fv =>
        BaseDataKey key (ParsedBaseMetaValue.new metavalue).version fv.field) <;> rfl

private theorem alone_hDel (io : Nat → Option Failure) (db : Db) (key : Slice) (time : Int) (fields : List Slice) :
    let r := HDel io db key time fields
    (HDelSteps io key time fields).alone db =
      (r.db, ⟨r.status, .deleted r.status.ok (r.value.map Int32.toInt), r.failed⟩) := by
  simp only [HDelSteps, Interleaving.Program.alone, HDel]
  cases Get (io 0) db key with
  | notFound => rfl
  | error e => rfl
  | ok metavalue =>
    dsimp only
    split
    · rfl
    · cases readAll io db 1 ((firstOf id fields).map fun field =>
        BaseDataKey key (ParsedBaseMetaValue.new metavalue).version field) <;> rfl

private theorem alone_del (lock : ℕ) (io : Nat → Option Failure) (db : Db) (key : Slice) (time : Int) :
    let r := Del io db key time
    (DelSteps lock io key time).alone db = (r.db, ⟨r.status, .removed, r.failed⟩) := by
  simp only [DelSteps, Interleaving.Program.alone, Del]
  cases Get (io 0) db key with
  | notFound => rfl
  | error e => rfl
  | ok metavalue =>
    dsimp only
    split
    · rfl
    · split <;> rfl

/-- A call that no other one interrupts does what the function does. -/
theorem alone_steps (lock : ℕ) (key : Slice) (r : Request) (db : Db) :
    (steps lock key r).alone db =
      ((outcome key ⟨r.time, db⟩ r.action).db, (outcome key ⟨r.time, db⟩ r.action).answer) := by
  have htime : r.time + ((0 : ℕ) : Int) = r.time := by omega
  obtain ⟨update, time, lag, io, memory⟩ := r
  simp only at htime
  cases update with
  | HSet field value =>
    simp only [outcome, Request.action, Update.call, htime]
    exact alone_hSet lock io memory db key time (time + lag) field value
  | HMSet fvs =>
    simp only [outcome, Request.action, Update.call, htime]
    exact alone_hMSet lock io memory db key time (time + lag) fvs
  | HDel fields =>
    simp only [outcome, Request.action, Update.call, htime]
    exact alone_hDel io db key time fields
  | Del =>
    simp only [outcome, Request.action, Update.call, htime]
    exact alone_del lock io db key time

/-! ### Histories -/

/-- The value that a call gives to a field. -/
def Update.sets : Update → Slice → Option Slice
  | .HSet field value, k => if k = field then some value else none
  | .HMSet fvs, k => (fvs.reverse.find? fun fv => fv.field = k).map FieldValue.value
  | _, _ => none

def Update.removes : Update → Slice → Bool
  | .HDel fields, k => k ∈ fields
  | .Del, _ => true
  | _, _ => false

instance (key : Slice) (db : Db) : Decidable (CountOk key db) :=
  match hget : db.get key with
  | none => isTrue fun metavalue hsome => by rw [hget] at hsome; cases hsome
  | some metavalue =>
    let p := ParsedBaseMetaValue.new metavalue
    decidable_of_iff (p.count.toInt = (scanPrefix db (BaseDataKey key p.version [])).length)
      ⟨fun h metavalue' hsome => by rw [hget] at hsome; cases hsome; exact h, fun h => h metavalue hget⟩

/-- What is read of a field from then on. -/
def Finds (key : Slice) (db : Db) (field : Slice) (value : Option Slice) : Prop :=
  ∀ time, let r := HGet (fun _ => none) db key time field
    r.status.ok = value.isSome ∧ r.value = value

abbrev Clients := Interleaving.State Db ℕ Answer Request

abbrev Event := Interleaving.Event Db Answer Request

/-- The call took effect, and no read of it failed. -/
def setsField (e : Event) (field : Slice) : Option Slice :=
  if e.result.failed.isSome then none else e.call.update.sets field

def removesField (e : Event) (field : Slice) : Bool := !e.result.failed.isSome && e.call.update.removes field

/-- The count is right, a field that was set and not removed later is there, and one that was removed, alone or with
the whole hash, is not there again until it is set. -/
structure Survives (key : Slice) (s : Clients) : Prop where
  count : CountOk key s.store
  returned : ∀ x ∈ s.returned, ∃ e ∈ s.history, e.call = x.1 ∧ e.result = x.2
  kept : ∀ before e after field value, s.history = before ++ e :: after → setsField e field = some value →
    (∀ x ∈ after, removesField x field = false) →
    ∃ v, Finds key s.store field (some v) ∧ ((∀ x ∈ after, setsField x field = none) → v = value)
  gone : ∀ before e after field, s.history = before ++ e :: after → removesField e field = true →
    (∀ x ∈ after, setsField x field = none) → Finds key s.store field none

/-! ### The condition -/

def Update.isHDel : Update → Bool
  | .HDel _ => true
  | _ => false

/-- One of the two calls takes no lock. -/
def Rivals (c d : Request) : Prop := (c.update.isHDel || d.update.isHDel) = true

/-- The fields that a call adds leave the count in the range of its type. -/
def Addable (key : Slice) (r : Request) (db : Db) : Prop :=
  match r.update with
  | .HSet field _ => r.io 0 = none → MayAdd db key r.memory [field] (db.get key)
  | .HMSet fvs => r.io 0 = none → MayAdd db key r.memory (fvs.map FieldValue.field) (db.get key)
  | _ => True

/-- When a call writes while another one is in progress, and one of the two is an `HDel`, the other one, if it goes on
with what it has read, still does what it would do if it began anew. -/
abbrev Allowed (lock : ℕ) (key : Slice) : Clients → Interleaving.Action Request → Prop :=
  Interleaving.Fair (steps lock key) (fun _ => True) (Addable key) Rivals

private theorem guarded_steps {lock : ℕ} {key : Slice} {r : Request} (h : r.update.isHDel = false) :
    Interleaving.Guarded (steps lock key) lock r := by
  obtain ⟨update, time, lag, io, memory⟩ := r
  cases update with
  | HSet field value => exact ⟨_, rfl⟩
  | HMSet fvs => exact ⟨_, rfl⟩
  | HDel fields => cases h
  | Del => exact ⟨_, rfl⟩

private theorem guarded_of_not_rivals {lock : ℕ} {key : Slice} (c d : Request) (h : ¬ Rivals c d) :
    ∃ l, Interleaving.Guarded (steps lock key) l c ∧ Interleaving.Guarded (steps lock key) l d := by
  rw [Rivals, Bool.not_eq_true, Bool.or_eq_false_iff] at h
  exact ⟨lock, guarded_steps h.1, guarded_steps h.2⟩

/-! ### Histories -/

/-- What a call does to the map. -/
def afterEvent (m : SortedMap Slice Slice) (e : Event) : SortedMap Slice Slice :=
  if e.result.failed.isSome then m else (mapCall m e.call.update.call).1

private theorem outcome_failed (key : Slice) (r : Request) (db : Db) {e : Failure} (h : r.io 0 = some e) :
    (outcome key ⟨r.time, db⟩ r.action).db = db ∧ (outcome key ⟨r.time, db⟩ r.action).failed = some e := by
  obtain ⟨update, time, lag, io, memory⟩ := r
  simp only at h
  cases update with
  | HSet field value => simp [outcome, Request.action, Update.call, HSet, Get, h, Result.fail]
  | HMSet fvs => simp [outcome, Request.action, Update.call, HMSet, Get, h]
  | HDel fields => simp [outcome, Request.action, Update.call, HDel, Get, h, Result.fail]
  | Del => simp [outcome, Request.action, Update.call, Del, Get, h]

private theorem firstReadOk {key : Slice} {r : Request} {db : Db} (hio : r.io 0 = none) (h : Addable key r db) :
    FirstReadOk key ⟨r.time, db⟩ r.action := by
  obtain ⟨update, time, lag, io, memory⟩ := r
  cases update with
  | HSet field value => exact h
  | HMSet fvs => exact ⟨hio, h hio⟩
  | HDel fields => trivial
  | Del => exact hio

private theorem represents_event {key : Slice} {lock : ℕ} {e : Event} {m : SortedMap Slice Slice}
    (h : Represents key e.before m) (hok : Interleaving.EventOk (steps lock key) (Addable key) e) :
    Represents key e.after (afterEvent m e) := by
  have halone := hok.alone
  rw [alone_steps, Prod.mk.injEq] at halone
  rw [afterEvent, ← halone.1, ← halone.2]
  cases hio : e.call.io 0 with
  | none => exact (actionOk h (firstReadOk hio hok.ok)).2
  | some failure =>
    obtain ⟨hdb, hfailed⟩ := outcome_failed key e.call e.before hio
    simpa only [Outcome.answer, hdb, hfailed, Option.isSome_some, if_true] using h

private theorem get_afterEvent (m : SortedMap Slice Slice) (e : Event) (field : Slice) :
    (afterEvent m e).get field = (setsField e field).or (if removesField e field then none else m.get field) := by
  obtain ⟨⟨update, time, lag, io, memory⟩, ⟨status, reply, failed⟩, before, after⟩ := e
  cases failed with
  | some failure => simp [afterEvent, setsField, removesField]
  | none =>
    cases update with
    | HSet field' value =>
      simp only [afterEvent, setsField, removesField, Update.call, mapCall, Update.sets, Update.removes]
      by_cases h : field = field'
      · simp [h]
      · simp [h, SortedMap.get_put]
    | HMSet fvs => exact SortedMap.get_puts m fvs (by simp)
    | HDel fields =>
      have hget := SortedMap.get_deletes (f := fun field => field) m fields field
      simpa [afterEvent, setsField, removesField, Update.call, mapCall, Update.sets, Update.removes] using hget
    | Del => simp [afterEvent, setsField, removesField, Update.call, mapCall, Update.sets, Update.removes]

private theorem sets_of_removes {e : Event} {field : Slice} (h : removesField e field = true) :
    setsField e field = none := by
  rw [removesField, Bool.and_eq_true] at h
  cases hupdate : e.call.update with
  | HSet field' value => simp [hupdate, Update.removes] at h
  | HMSet fvs => simp [hupdate, Update.removes] at h
  | HDel fields => simp [setsField, hupdate, Update.sets]
  | Del => simp [setsField, hupdate, Update.sets]

private theorem get_foldl_of_not_removes {m : SortedMap Slice Slice} {l : List Event} {field value : Slice}
    (h : m.get field = some value) (hl : ∀ x ∈ l, removesField x field = false) :
    ∃ v, (l.foldl afterEvent m).get field = some v ∧ ((∀ x ∈ l, setsField x field = none) → v = value) := by
  induction l generalizing m value with
  | nil => exact ⟨value, h, fun _ => rfl⟩
  | cons x l ih =>
    have htail := fun y hy => hl y (List.mem_cons_of_mem _ hy)
    have hget := get_afterEvent m x field
    rw [hl x (List.mem_cons_self ..), if_neg Bool.false_ne_true, h] at hget
    cases hsets : setsField x field with
    | none =>
      rw [hsets, Option.none_or] at hget
      obtain ⟨v, hv, hsame⟩ := ih hget htail
      exact ⟨v, hv, fun hnone => hsame fun y hy => hnone y (List.mem_cons_of_mem _ hy)⟩
    | some w =>
      rw [hsets, Option.some_or] at hget
      obtain ⟨v, hv, -⟩ := ih hget htail
      refine ⟨v, hv, fun hnone => ?_⟩
      rw [hnone x (List.mem_cons_self ..)] at hsets
      cases hsets

private theorem get_foldl_of_not_sets {m : SortedMap Slice Slice} {l : List Event} {field : Slice}
    (h : m.get field = none) (hl : ∀ x ∈ l, setsField x field = none) : (l.foldl afterEvent m).get field = none := by
  induction l generalizing m with
  | nil => exact h
  | cons x l ih =>
    refine ih ?_ fun y hy => hl y (List.mem_cons_of_mem _ hy)
    rw [get_afterEvent, hl x (List.mem_cons_self ..), h, Option.none_or]
    exact ite_self _

private theorem hGet_failed (db : Db) (key : Slice) (time : Int) (field : Slice) :
    (HGet (fun _ => none) db key time field).failed = none := by
  simp only [HGet, Get]
  cases db.get key with
  | none => rfl
  | some metavalue =>
    dsimp only
    split
    · rfl
    · split
      · rfl
      · cases db.get (BaseDataKey key (ParsedBaseMetaValue.new metavalue).version field) <;> rfl

private theorem Represents.finds {key : Slice} {db : Db} {m : SortedMap Slice Slice} (h : Represents key db m)
    (field : Slice) : Finds key db field (m.get field) := by
  intro time
  have htime : time + ((0 : ℕ) : Int) = time := by omega
  have hreply := (@actionOk key m ⟨time, db⟩ { call := .HGet field } h trivial).1.reply
  simp only [outcome, htime, mapCall, Reply.value.injEq] at hreply
  exact hreply (hGet_failed db key time field)

/-! ### Runs -/

/-- In a run in which no write comes between the reads and the write of a call and changes what it does, where one of
the two calls is an `HDel`, the hash keeps its count and its fields. -/
theorem run_survives (lock : ℕ) (key : Slice) {actions : List (Interleaving.Action Request)} {s : Clients}
    (hmeets : Meets (Interleaving.step (steps lock key)) (Allowed lock key) (Interleaving.init .empty) actions)
    (hrun : run (Interleaving.step (steps lock key)) (Interleaving.init .empty) actions = .next s) :
    Survives key s := by
  have hsound := Interleaving.run_sound guarded_of_not_rivals hmeets hrun
  have hrep : Represents key s.store (s.history.foldl afterEvent .empty) := by
    refine @Interleaving.history_induction _ _ _ _ _ _ (fun h t => Represents key t (h.foldl afterEvent .empty)) _
      (represents_init key) ?_ _ _ hsound.serialized.linked
      fun e he => hsound.serialized.events e he trivial
    intro h e hrep hok
    rw [List.foldl_append]
    exact represents_event hrep hok
  refine ⟨hrep.countOk, hsound.serialized.returned, ?_, ?_⟩
  · intro before e after field value hhistory hsets hafter
    have hget := get_afterEvent (before.foldl afterEvent .empty) e field
    rw [hsets, Option.some_or] at hget
    obtain ⟨v, hv, hsame⟩ := get_foldl_of_not_removes hget hafter
    refine ⟨v, ?_, hsame⟩
    rw [← hv, ← List.foldl_cons, ← List.foldl_append, ← hhistory]
    exact hrep.finds field
  · intro before e after field hhistory hremoves hafter
    have hget := get_afterEvent (before.foldl afterEvent .empty) e field
    rw [sets_of_removes hremoves, hremoves, if_pos rfl, Option.or_none] at hget
    rw [← get_foldl_of_not_sets hget hafter, ← List.foldl_cons, ← List.foldl_append, ← hhistory]
    exact hrep.finds field

/-- An `HDel` is called before a field is set, takes its snapshot after that, and deletes the field. -/
theorem run_survives_hDel : ∃ s : Clients, s.history.length = 2 ∧ s.store.entries.length = 1 ∧ Survives [1] s := by
  have hadd : MayAdd .empty [1] 1 [[7]] none := ⟨by decide, rfl⟩
  let set : Request := { update := .HSet [7] [8], memory := 1 }
  let actions : List (Interleaving.Action Request) :=
    [.call 1 { update := .HDel [[7]] }, .call 0 set, .step 0, .step 0, .step 0, .step 1, .step 1]
  obtain ⟨s, hrun, hhistory, hentries⟩ :
      ∃ s, run (Interleaving.step (steps 0 [1])) (Interleaving.init .empty) actions =
      .next s ∧ s.history.length = 2 ∧ s.store.entries.length = 1 := by
    decide +kernel
  refine ⟨s, hhistory, hentries, @run_survives 0 [1] actions s ?_ hrun⟩
  refine ⟨Interleaving.Fair.call rfl, ?_⟩
  rintro _ ⟨⟩
  refine ⟨Interleaving.Fair.call rfl, ?_⟩
  rintro _ ⟨⟩
  refine ⟨Interleaving.Fair.step rfl rfl, ?_⟩
  rintro _ ⟨⟩
  refine ⟨Interleaving.Fair.step rfl rfl, ?_⟩
  rintro _ ⟨⟩
  refine ⟨⟨?_, ?_⟩, ?_⟩
  · intro i c f r held ha hi j d q hne hj _ _ _ _
    cases ha
    rcases eq_or_ne j 1 with rfl | hj1
    · -- the `HDel` has read nothing
      cases hj
      rfl
    · simp [Interleaving.State.resume, Interleaving.init, Function.update_of_ne hne, Function.update_of_ne hj1] at hj
  · intro c p hrunning _ _
    cases hrunning
    exact fun _ => hadd
  rintro _ ⟨⟩
  refine ⟨Interleaving.Fair.only rfl ?_ fun _ => trivial, ?_⟩
  · intro j d q hne hj
    rcases eq_or_ne j 0 with rfl | hj0
    · cases hj
      rfl
    · simp [Interleaving.State.resume, Interleaving.init, Function.update_of_ne hne, Function.update_of_ne hj0] at hj
  rintro _ ⟨⟩
  refine ⟨Interleaving.Fair.only rfl ?_ fun _ => trivial, fun _ _ => trivial⟩
  intro j d q hne hj
  rcases eq_or_ne j 0 with rfl | hj0
  · cases hj
    rfl
  · simp [Interleaving.State.resume, Interleaving.init, Function.update_of_ne hne, Function.update_of_ne hj0] at hj

/-- An `HDel` takes its snapshot, a field is set, and the `HDel` writes the count of its snapshot less one. -/
theorem not_survives : ¬ ∀ (lock : ℕ) (key : Slice) (actions : List (Interleaving.Action Request)) (s : Clients),
    run (Interleaving.step (steps lock key)) (Interleaving.init .empty) actions = .next s → Survives key s := by
  intro h
  let set (field value : Slice) : Request := { update := .HSet field value, memory := 1 }
  let actions : List (Interleaving.Action Request) :=
    [.call 0 (set [7] [8]), .step 0, .step 0, .step 0, .step 0, .step 0, .call 1 { update := .HDel [[7]] }, .step 1,
      .call 0 (set [6] [5]), .step 0, .step 0, .step 0, .step 0, .step 0, .step 0, .step 1, .step 1]
  have hcheck : (match run (Interleaving.step (steps 0 [1])) (Interleaving.init .empty) actions with
      | .next s => decide (CountOk [1] s.store)
      | _ => true) = false := by
    decide +kernel
  cases hrun : run (Interleaving.step (steps 0 [1])) (Interleaving.init .empty) actions with
  | disabled => simp [hrun] at hcheck
  | aborted => simp [hrun] at hcheck
  | next s =>
    rw [hrun] at hcheck
    exact of_decide_eq_false hcheck (h 0 [1] actions s hrun).count

end RedisHash

end RedisDb
