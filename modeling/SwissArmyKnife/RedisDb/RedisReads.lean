import SwissArmyKnife.Lib.PointInTime
import SwissArmyKnife.RedisDb.RedisDB
import SwissArmyKnife.RedisDb.RedisSet
import SwissArmyKnife.RedisDb.RedisZsetRuns

/-!
# Reads during writes

`HGet`, `HMGet`, `HGetall`, `SMembers`, `ZRange`, `ZRank` and `LRange` take a snapshot, read the meta value of the key
and then the data entries, while others write.  `HGetall` and `SMembers` read the data without the snapshot, and
`LRange` reads both without it.  Their reply is that of one store, as long as no write that comes before the iterator
is created changes both what the meta value sends the call to and what it finds there.

A snapshot is not put in the list of snapshots, and so a compaction that comes between the reads may drop entries that
only the snapshot shows.  The calls that read it rely on there being none that drops what they have yet to read.
-/

namespace RedisDb

open PointInTime (Source)
open Transition (Meets run)

namespace RedisReads

inductive Read where
  | HGet (field : Slice)
  | HMGet (fields : List Slice)
  | HGetall
  | SMembers
  | ZRange (start stop : Int32)
  | ZRank (member : Slice)
  | LRange (start stop : Int64)

/-- A call on a key, with the reading of the clock. -/
structure ReadCall where
  key : Slice
  time : Int
  read : Read

inductive Reply (S : Type*) where
  | value (s : Status) (v : Option Slice)
  | values (s : Status) (l : Option (List (Option Slice)))
  | fields (s : Status) (l : Option (List FieldValue))
  | members (s : Status) (l : List Slice)
  | range (s : Status) (l : List (ScoreMember S))
  | rank (s : Status) (n : Int32)
  | elements (s : Status) (l : List Slice)
deriving DecidableEq

/-- What one `Get` or one iterator reads. -/
inductive Part (S : Type*) where
  | value (datakey : Slice)
  | fields (start : Slice)
  | members (start : Slice)
  | range (start : ZSetsScoreKey S) (startindex stopindex : Int32)
  | rank (start : ZSetsScoreKey S) (stopindex : Int32) (member : Slice)
  | elements (start : ListsDataKey) (sublistrightindex : UInt64)

/-- What a call reads after the meta value. -/
inductive Plan (S : Type*) where
  | one (part : Part S)
  | values (datakeys : List Slice)

variable {S : Type*} [LinearOrder S] (scores : Scores S)

/-- The first phase of a call, which reads the meta value. -/
def plan (c : ReadCall) (s : Stores S) : Except (Reply S) (Plan S) :=
  match c.read with
  | .HGet field =>
    match s.hashes.get c.key with
    | some metavalue =>
      let phashmetavalue := ParsedBaseMetaValue.new metavalue
      if phashmetavalue.IsStale c.time then .error (.value (.NotFound "Stale") none)
      else if phashmetavalue.count == 0 then .error (.value (.NotFound "") none)
      else .ok (.one (.value (BaseDataKey c.key phashmetavalue.version field)))
    | none => .error (.value (.NotFound "") none)
  | .HMGet fields =>
    match s.hashes.get c.key with
    | some metavalue =>
      let phashesmetavalue := ParsedBaseMetaValue.new metavalue
      if phashesmetavalue.IsStale c.time || phashesmetavalue.count == 0 then
        .error (.values (.NotFound "Stale") (some (fields.map fun _ => none)))
      else .ok (.values (fields.map fun field => BaseDataKey c.key phashesmetavalue.version field))
    | none => .error (.values (.NotFound "") (some (fields.map fun _ => none)))
  | .HGetall =>
    match s.hashes.get c.key with
    | some metavalue =>
      let phashesmetavalue := ParsedBaseMetaValue.new metavalue
      if phashesmetavalue.IsStale c.time then .error (.fields (.NotFound "Stale") (some []))
      else if phashesmetavalue.version == 0 then .error (.fields (.NotFound "") (some []))
      else .ok (.one (.fields (BaseDataKey c.key phashesmetavalue.version [])))
    | none => .error (.fields (.NotFound "") (some []))
  | .SMembers =>
    match s.sets.get c.key with
    | some metavalue =>
      let psetsvalue := ParsedBaseMetaValue.new metavalue
      if psetsvalue.IsStale c.time then .error (.members (.NotFound "Stale") [])
      else if psetsvalue.count == 0 then .error (.members (.NotFound "") [])
      else .ok (.one (.members (BaseDataKey c.key psetsvalue.version [])))
    | none => .error (.members (.NotFound "") [])
  | .ZRange start stop =>
    match s.zsets.get (RedisZset.metaKey scores c.key) with
    | some metavalue =>
      let pzsetmetavalue := RedisZset.parsedMeta scores metavalue
      if pzsetmetavalue.IsStale c.time then .error (.range (.NotFound "Stale") [])
      else if pzsetmetavalue.count == 0 then .error (.range (.NotFound "") [])
      else
        let count := pzsetmetavalue.count
        let startindex := if 0 ≤ start then start else count + start
        let stopindex := if 0 ≤ stop then stop else count + stop
        let startindex := if startindex ≤ 0 then 0 else startindex
        let stopindex := if count ≤ stopindex then count - 1 else stopindex
        if stopindex < startindex || count ≤ startindex || stopindex < 0 then .error (.range .OK [])
        else .ok (.one (.range ⟨c.key, pzsetmetavalue.version, scores.lowest, []⟩ startindex stopindex))
    | none => .error (.range (.NotFound "") [])
  | .ZRank member =>
    match s.zsets.get (RedisZset.metaKey scores c.key) with
    | some metavalue =>
      let pzsetmetavalue := RedisZset.parsedMeta scores metavalue
      if pzsetmetavalue.IsStale c.time then .error (.rank (.NotFound "Stale") (-1))
      else if pzsetmetavalue.count == 0 then .error (.rank (.NotFound "") (-1))
      else .ok (.one (.rank ⟨c.key, pzsetmetavalue.version, scores.lowest, []⟩ (pzsetmetavalue.count - 1) member))
    | none => .error (.rank (.NotFound "") (-1))
  | .LRange start stop =>
    match s.lists.get (RedisList.metaKey c.key) with
    | some metavalue =>
      let plistsmetavalue := ParsedListsMetaValue.new metavalue
      if plistsmetavalue.IsStale c.time then .error (.elements (.NotFound "Stale") [])
      else if plistsmetavalue.count == 0 then .error (.elements (.NotFound "") [])
      else
        let originleftindex := plistsmetavalue.leftindex + 1
        let originrightindex := plistsmetavalue.rightindex - 1
        let sublistleftindex :=
          if 0 ≤ start then originleftindex + start.toUInt64 else originrightindex + start.toUInt64 + 1
        let sublistrightindex :=
          if 0 ≤ stop then originleftindex + stop.toUInt64 else originrightindex + stop.toUInt64 + 1
        if sublistleftindex > sublistrightindex || sublistleftindex > originrightindex ||
            sublistrightindex < originleftindex then .error (.elements .OK [])
        else
          let sublistleftindex := if sublistleftindex < originleftindex then originleftindex else sublistleftindex
          let sublistrightindex :=
            if sublistrightindex > originrightindex then originrightindex else sublistrightindex
          .ok (.one (.elements ⟨c.key, plistsmetavalue.version, sublistleftindex⟩ sublistrightindex))
    | none => .error (.elements (.NotFound "") [])

/-- What is read in the second phase: each data entry by a `Get` of its own, or the entries of one iterator. -/
def Plan.parts : Plan S → List (Part S)
  | .one part => [part]
  | .values datakeys => datakeys.map .value

/-- One read of the second phase, and what is replied when it is the only one. -/
def scan (s : Stores S) : Part S → Reply S
  | .value datakey =>
    match Get none s.hashes datakey with
    | .ok value => .value .OK (some value)
    | .notFound => .value (.NotFound "") none
    | .error e => .value e.status none
  | .fields start =>
    let found := scanPrefix s.hashes start
    .fields .OK (some (found.map fun e => ⟨ParsedDataKey.GetData e.1, e.2⟩))
  | .members start =>
    let found := scanPrefix s.sets start
    .members .OK (found.map fun e => ParsedDataKey.GetData e.1)
  | .range start startindex stopindex => .range .OK (RedisZset.rangeLoop startindex stopindex (s.zsets.seek start) 0)
  | .rank start stopindex member =>
    match RedisZset.rankLoop stopindex member (s.zsets.seek start) 0 with
    | some index => .rank .OK index
    | none => .rank (.NotFound "") (-1)
  | .elements start sublistrightindex =>
    .elements .OK (RedisList.rangeLoop sublistrightindex (s.lists.seek start) start.index)

def Reply.found : Reply S → Option Slice
  | .value _ v => v
  | _ => none

/-- The reply, when all parts of the plan are read. -/
def collect : Plan S → List (Reply S) → Reply S
  | .one _, found => found.headD (.value (.NotFound "") none)
  | .values _, found => .values .OK (some (found.map Reply.found))

/-- The read options that the calls pass to the `Get` of the meta value. -/
def planFrom : Read → Source
  | .LRange _ _ => .latest
  | _ => .snapshot

/-- The read options that the calls pass to the `Get` of the data entries or to the iterator. -/
def scanFrom : Read → Source
  | .HGetall => .latest
  | .SMembers => .latest
  | .LRange _ _ => .latest
  | _ => .snapshot

def call (c : ReadCall) : PointInTime.Call (Stores S) (Plan S) (Part S) (Reply S) (Reply S) where
  plan := plan scores c
  parts := Plan.parts
  read p s := scan s p
  collect := collect
  planFrom := planFrom c.read
  scanFrom := scanFrom c.read

/-- What a call replies when nothing is written during it. -/
def reply (c : ReadCall) (s : Stores S) : Reply S :=
  match c.read with
  | .HGet field =>
    let r := RedisHash.HGet noErrors s.hashes c.key c.time field
    .value r.status r.value
  | .HMGet fields =>
    let r := RedisHash.HMGet noErrors s.hashes c.key c.time fields
    .values r.status r.value
  | .HGetall =>
    let r := RedisHash.HGetall noErrors s.hashes c.key c.time
    .fields r.status r.value
  | .SMembers =>
    let r := RedisSet.SMembers s.sets c.key c.time
    .members r.1 r.2
  | .ZRange start stop =>
    let r := RedisZset.ZRange scores s.zsets c.key c.time start stop
    .range r.1 r.2
  | .ZRank member =>
    let r := RedisZset.ZRank scores s.zsets c.key c.time member
    .rank r.1 r.2
  | .LRange start stop =>
    let r := RedisList.LRange s.lists c.key c.time start stop
    .elements r.1 r.2

/-! ### The phases together -/

private theorem readAll_noErrors (db : Db) (i : Nat) (datakeys : List Slice) :
    RedisHash.readAll noErrors db i datakeys = .ok (datakeys.map db.get) := by
  induction datakeys generalizing i with
  | nil => rfl
  | cons k ks ih =>
    simp only [RedisHash.readAll, Get, noErrors, List.map_cons]
    cases db.get k <;> simp only [ih]

private theorem found_scan (s : Stores S) (datakey : Slice) :
    (scan s (.value datakey)).found = s.hashes.get datakey := by
  simp only [scan, Get]
  cases s.hashes.get datakey <;> rfl

omit [LinearOrder S] in
@[simp] private theorem collect_one (part : Part S) (f : Part S → Reply S) :
    collect (.one part) ((Plan.one part).parts.map f) = f part := rfl

/-- The two phases of a call are what the function does. -/
theorem alone_call (c : ReadCall) (s : Stores S) : (call scores c).alone s = reply scores c s := by
  obtain ⟨key, time, read⟩ := c
  cases read with
  | HGet field =>
    simp only [PointInTime.Call.alone, call, plan, reply, RedisHash.HGet, Get, noErrors]
    cases s.hashes.get key with
    | none => rfl
    | some metavalue =>
      dsimp only
      split_ifs
      · rfl
      · rfl
      · simp only [collect_one, scan, Get]
        cases s.hashes.get (BaseDataKey key (ParsedBaseMetaValue.new metavalue).version field) <;> rfl
  | HMGet fields =>
    simp only [PointInTime.Call.alone, call, plan, reply, RedisHash.HMGet, Get, noErrors]
    cases s.hashes.get key with
    | none => rfl
    | some metavalue =>
      dsimp only
      split_ifs
      · rfl
      · simp only [readAll_noErrors, Plan.parts, collect, List.map_map]
        simp [Function.comp_def, found_scan]
  | HGetall =>
    simp only [PointInTime.Call.alone, call, plan, reply, RedisHash.HGetall, Get, noErrors]
    cases s.hashes.get key with
    | none => rfl
    | some metavalue =>
      dsimp only
      split_ifs <;> rfl
  | SMembers =>
    simp only [PointInTime.Call.alone, call, plan, reply, RedisSet.SMembers]
    cases s.sets.get key with
    | none => rfl
    | some metavalue =>
      dsimp only
      split_ifs <;> rfl
  | ZRange start stop =>
    simp only [PointInTime.Call.alone, call, plan, reply, RedisZset.ZRange]
    cases s.zsets.get (RedisZset.metaKey scores key) with
    | none => rfl
    | some metavalue =>
      dsimp only
      split_ifs <;> rfl
  | ZRank member =>
    simp only [PointInTime.Call.alone, call, plan, reply, RedisZset.ZRank]
    cases s.zsets.get (RedisZset.metaKey scores key) with
    | none => rfl
    | some metavalue =>
      dsimp only
      split_ifs
      · rfl
      · rfl
      · simp only [collect_one, scan]
        split <;> simp only [*]
  | LRange start stop =>
    simp only [PointInTime.Call.alone, call, plan, reply, RedisList.LRange]
    cases s.lists.get (RedisList.metaKey key) with
    | none => rfl
    | some metavalue =>
      dsimp only
      split_ifs <;> rfl

/-! ### Runs -/

/-- A call of another client, which is atomic. -/
inductive Write (S : Type*) where
  | hash (key : Slice) (time : Int) (a : RedisHash.Action)
  | set (key : Slice) (time : Int) (a : RedisSet.Action)
  | list (key : Slice) (time later : Int) (c : RedisList.Call)
  | zset (key : Slice) (time later : Int) (c : RedisZset.Call S)

def Write.apply (w : Write S) (s : Stores S) : Stores S :=
  match w with
  | .hash key time a => { s with hashes := (RedisHash.outcome key ⟨time, s.hashes⟩ a).db }
  | .set key time a => { s with sets := (RedisSet.step key ⟨time, s.sets⟩ a).1.db }
  | .list key time later c => { s with lists := (RedisList.call s.lists key time later c).1 }
  | .zset key time later c => { s with zsets := (RedisZset.call scores s.zsets key time later c).1 }

abbrev State (S : Type*) [LinearOrder S] := PointInTime.State (Stores S) (Plan S) (Reply S) (Reply S)

/-- A write, a step of the call, or a compaction, of which only what the snapshot shows after it is kept.  What it
drops is not restricted here to entries that were written over. -/
abbrev Action (S : Type*) [LinearOrder S] := PointInTime.Action (Stores S) (Write S)

def step (c : ReadCall) : State S → Action S → Transition.Outcome (State S) :=
  PointInTime.step (Write.apply scores) (call scores c)

/-- A write that comes before the iterator of an `HGetall`, `SMembers` or `LRange` is created leaves what the meta
value sends the call to as it is, or what the iterator finds there; and a compaction drops nothing that a call has yet
to read with its snapshot. -/
abbrev Kept (c : ReadCall) : State S → Action S → Prop := PointInTime.Kept (Write.apply scores) (call scores c)

/-- In such a run, a call that is finished replies what it replies alone in one of the stores that passed during
it. -/
theorem run_reply_passed (c : ReadCall) (s₀ : Stores S) {actions : List (Action S)} {s : State S} {r : Reply S}
    (hmeets : Meets (step scores c) (Kept scores c) (PointInTime.init s₀) actions)
    (hrun : run (step scores c) (PointInTime.init s₀) actions = .next s) (hdone : s.phase = .done r) :
    ∃ u ∈ s.passed, reply scores c u = r := by
  have hsource : (call scores c).scanFrom = .snapshot → (call scores c).planFrom = .snapshot := by
    obtain ⟨key, time, read⟩ := c
    cases read with
    | LRange start stop => exact fun h => nomatch h
    | _ => exact fun _ => rfl
  obtain ⟨u, hu, hreply⟩ := PointInTime.run_pointInTime hsource hmeets hrun hdone
  exact ⟨u, hu, (alone_call scores c u).symm.trans hreply⟩

/-- The reply of a call that is finished. -/
def answer : Transition.Outcome (State S) → Option (Reply S)
  | .next ⟨_, _, .done r⟩ => some r
  | _ => none

private theorem phase_of_answer {s : State S} {r : Reply S} (h : answer (.next s) = some r) : s.phase = .done r := by
  obtain ⟨store, passed, phase⟩ := s
  cases phase with
  | done r' =>
    cases h
    rfl
  | _ => cases h

/-- A hash with one field. -/
def exampleHash : Stores (WithBot ℤ) := ⟨.empty, storeElement .empty [1] 5 [3], .empty, .empty, .empty⟩

/-- A field is set after an `HGetall` has taken its snapshot, and its iterator finds it.  That a compaction leaves
nothing of the snapshot then does not matter. -/
theorem run_reply_passed_hGetall : ∃ u : Stores (WithBot ℤ),
    reply RedisZset.integerScores ⟨[1], 100, .HGetall⟩ u = .fields .OK (some [⟨[3], []⟩, ⟨[4], [9]⟩]) := by
  let c : ReadCall := ⟨[1], 100, .HGetall⟩
  let actions : List (Action (WithBot ℤ)) :=
    [.step, .write (.hash [1] 100 { call := .HSet [4] [9] }), .step, .drop ⟨.empty, .empty, .empty, .empty, .empty⟩,
      .step, .step]
  have hkept : Meets (step RedisZset.integerScores c) (Kept RedisZset.integerScores c) (PointInTime.init exampleHash)
      actions := by
    refine ⟨trivial, ?_⟩
    rintro _ ⟨⟩
    refine ⟨?_, ?_⟩
    · intro _ _ m hm
      obtain rfl : Plan.one (.fields (BaseDataKey [1] 5 [])) = m := Except.ok.inj hm
      exact .inr ⟨rfl, rfl⟩
    rintro _ ⟨⟩
    refine ⟨trivial, ?_⟩
    rintro _ ⟨⟩
    refine ⟨?_, fun _ _ => ⟨trivial, fun _ _ => ⟨trivial, fun _ _ => trivial⟩⟩⟩
    intro hsource
    cases hsource
  cases hrun : run (step RedisZset.integerScores c) (PointInTime.init exampleHash) actions with
  | disabled => cases hrun
  | aborted => cases hrun
  | next s =>
    have hanswer : answer (run (step RedisZset.integerScores c) (PointInTime.init exampleHash) actions) =
        some (.fields .OK (some [⟨[3], []⟩, ⟨[4], [9]⟩])) := by
      decide +kernel
    rw [hrun] at hanswer
    have hdone : s.phase = .done (.fields .OK (some [⟨[3], []⟩, ⟨[4], [9]⟩])) := phase_of_answer hanswer
    obtain ⟨u, -, hu⟩ := run_reply_passed RedisZset.integerScores c exampleHash hkept hrun hdone
    exact ⟨u, hu⟩

/-- The hash is deleted after an `HGetall` has read its meta value, and the reply is `OK` without a field. -/
theorem not_reply_passed : ¬ ∀ (c : ReadCall) (s₀ : Stores (WithBot ℤ)) (actions : List (Action (WithBot ℤ)))
    (s : State (WithBot ℤ)) (r : Reply (WithBot ℤ)),
    run (step RedisZset.integerScores c) (PointInTime.init s₀) actions = .next s → s.phase = .done r →
      ∃ u ∈ s.passed, reply RedisZset.integerScores c u = r := by
  intro h
  let c : ReadCall := ⟨[1], 100, .HGetall⟩
  let actions : List (Action (WithBot ℤ)) := [.step, .step, .write (.hash [1] 100 { call := .Del }), .step, .step]
  have hcheck : (match run (step RedisZset.integerScores c) (PointInTime.init exampleHash) actions with
      | .next s =>
        decide (answer (.next s) = some (.fields .OK (some []))) &&
          s.passed.all fun u => decide (reply RedisZset.integerScores c u ≠ .fields .OK (some []))
      | .disabled | .aborted => false) = true := by
    decide +kernel
  cases hrun : run (step RedisZset.integerScores c) (PointInTime.init exampleHash) actions with
  | disabled => simp [hrun] at hcheck
  | aborted => simp [hrun] at hcheck
  | next s =>
    simp only [hrun, Bool.and_eq_true, List.all_eq_true, decide_eq_true_eq] at hcheck
    obtain ⟨u, hu, hreply⟩ := h c exampleHash actions s _ hrun (phase_of_answer hcheck.1)
    exact hcheck.2 u hu hreply

end RedisReads

end RedisDb
