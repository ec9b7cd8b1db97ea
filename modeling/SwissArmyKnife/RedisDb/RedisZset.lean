import SwissArmyKnife.Lib.Lists
import SwissArmyKnife.Lib.Replies
import SwissArmyKnife.Lib.SortedMap
import SwissArmyKnife.RedisDb.Env
import SwissArmyKnife.RedisDb.ZSetsScoreKey

/-!
# Sorted sets

`RedisZset` keeps each member of a sorted set twice: under a member key, of version 0 and with the version of the
sorted set as the score, which holds the score of the member, and under a score key, from which the members are read
in order.  The meta value, with the number of members and the version, is stored under version 0 and score 0.
-/

namespace RedisDb

open FirstOf (firstOf)
open Slices (slice)

variable {S : Type*} [LinearOrder S]

/-- What is stored: bytes, or the eight bytes of a score. -/
inductive ZSetsValue (S : Type*) where
  | bytes (b : Slice)
  | score (s : S)
deriving DecidableEq

def ZSetsValue.data (scores : Scores S) : ZSetsValue S → Slice
  | .bytes b => b
  | .score s => EncodeFixed64 (scores.bits s)

/-- The eight bytes as a double. -/
def ZSetsValue.double (scores : Scores S) : ZSetsValue S → S
  | .bytes b => scores.ofBits (DecodeFixed64 b)
  | .score s => s

abbrev ZsetDb (S : Type*) [LinearOrder S] := SortedMap (ZSetsScoreKey S) (ZSetsValue S)

structure ScoreMember (S : Type*) where
  score : S
  member : Slice
deriving DecidableEq

namespace RedisZset

variable (scores : Scores S)

/-- The key of the meta value, whose member is a null pointer and read as empty. -/
def metaKey (key : Slice) : ZSetsScoreKey S := ⟨key, 0, scores.ofInt32 0, []⟩

def memberKey (key : Slice) (version : Int32) (member : Slice) : ZSetsScoreKey S :=
  ⟨key, 0, scores.ofInt32 version, member⟩

/-- A byte string that was not encoded, as the comparator reads it; none when it does not meet the assertions of the
comparator. -/
def rawKey (k : Slice) : Option (ZSetsScoreKey S) :=
  let keylen := (DecodeFixed32 k).toNat
  if 4 < k.length ∧ keylen + 2 * 4 + 8 ≤ k.length then
    let ptr := k.drop 4
    some ⟨ptr.take keylen, (DecodeFixed32 (ptr.drop keylen)).toInt32,
      scores.ofBits (DecodeFixed64 (ptr.drop (keylen + 4))), ptr.drop (keylen + 4 + 8)⟩
  else none

def parsedMeta (v : ZSetsValue S) : ParsedBaseMetaValue := ParsedBaseMetaValue.new (v.data scores)

/-- The two entries of a member. -/
def putMember (key : Slice) (version : Int32) (sm : ScoreMember S) :
    List (SortedMap.Op (ZSetsScoreKey S) (ZSetsValue S)) :=
  [.Put (memberKey scores key version sm.member) (.score sm.score),
    .Put ⟨key, version, sm.score, sm.member⟩ (.bytes [])]

/-- What `ZAdd` writes for a member, when its old score is known. -/
def addMember (key : Slice) (version : Int32) (old : Slice → Option S) (sm : ScoreMember S) :
    List (SortedMap.Op (ZSetsScoreKey S) (ZSetsValue S)) :=
  match old sm.member with
  | some oldscore =>
    if oldscore = sm.score then []
    else .Delete ⟨key, version, oldscore, sm.member⟩ :: putMember scores key version sm
  | none => putMember scores key version sm

/-- `ZAdd`; the clock is read twice when there is a meta value. -/
def ZAdd (db : ZsetDb S) (key : Slice) (time later : Int) (scoremembers : List (ScoreMember S)) :
    ZsetDb S × Status × Int32 :=
  let filteredscoremembers := firstOf ScoreMember.member scoremembers
  match db.get (metaKey scores key) with
  | some metavalue =>
    let pzsetmetavalue := parsedMeta scores metavalue
    let vaild := !(pzsetmetavalue.IsStale time || pzsetmetavalue.count == 0)
    let pzsetmetavalue := if vaild then pzsetmetavalue else pzsetmetavalue.InitialMetaValue later
    let version := pzsetmetavalue.version
    let old member :=
      if vaild then (db.get (memberKey scores key version member)).map (ZSetsValue.double scores) else none
    let cnt := Int32.ofNat (filteredscoremembers.filter fun sm => (old sm.member).isNone).length
    let batch := filteredscoremembers.flatMap (addMember scores key version old) ++
      [.Put (metaKey scores key) (.bytes (pzsetmetavalue.ModifyCount cnt).value)]
    (db.write batch, .OK, cnt)
  | none =>
    let size := Int32.ofNat filteredscoremembers.length
    let zmetavalue := (BaseMetaValue.new (EncodeFixed32 size.toUInt32)).UpdateVersion time
    let batch := .Put (metaKey scores key) (.bytes zmetavalue.Encode) ::
      filteredscoremembers.flatMap (putMember scores key zmetavalue.version)
    (db.write batch, .OK, size)

/-- The loop of `ZRange`. -/
def rangeLoop (startindex stopindex : Int32) : List (ZSetsScoreKey S × ZSetsValue S) → Int32 → List (ScoreMember S)
  | [], _ => []
  | e :: iter, curindex =>
    if curindex ≤ stopindex then
      if startindex ≤ curindex then ⟨e.1.score, e.1.member⟩ :: rangeLoop startindex stopindex iter (curindex + 1)
      else rangeLoop startindex stopindex iter (curindex + 1)
    else []

def ZRange (db : ZsetDb S) (key : Slice) (time : Int) (start stop : Int32) : Status × List (ScoreMember S) :=
  match db.get (metaKey scores key) with
  | some metavalue =>
    let pzsetmetavalue := parsedMeta scores metavalue
    if pzsetmetavalue.IsStale time then (.NotFound "Stale", [])
    else if pzsetmetavalue.count == 0 then (.NotFound "", [])
    else
      let count := pzsetmetavalue.count
      let startindex := if 0 ≤ start then start else count + start
      let stopindex := if 0 ≤ stop then stop else count + stop
      let startindex := if startindex ≤ 0 then 0 else startindex
      let stopindex := if count ≤ stopindex then count - 1 else stopindex
      if stopindex < startindex || count ≤ startindex || stopindex < 0 then (.OK, [])
      else
        let iter := db.seek ⟨key, pzsetmetavalue.version, scores.lowest, []⟩
        (.OK, rangeLoop startindex stopindex iter 0)
  | none => (.NotFound "", [])

/-- The loop of `ZRank`. -/
def rankLoop (stopindex : Int32) (member : Slice) : List (ZSetsScoreKey S × ZSetsValue S) → Int32 → Option Int32
  | [], _ => none
  | e :: iter, index =>
    if index ≤ stopindex then
      if e.1.member = member then some index else rankLoop stopindex member iter (index + 1)
    else none

def ZRank (db : ZsetDb S) (key : Slice) (time : Int) (member : Slice) : Status × Int32 :=
  match db.get (metaKey scores key) with
  | some metavalue =>
    let pzsetmetavalue := parsedMeta scores metavalue
    if pzsetmetavalue.IsStale time then (.NotFound "Stale", -1)
    else if pzsetmetavalue.count == 0 then (.NotFound "", -1)
    else
      let iter := db.seek ⟨key, pzsetmetavalue.version, scores.lowest, []⟩
      match rankLoop (pzsetmetavalue.count - 1) member iter 0 with
      | some index => (.OK, index)
      | none => (.NotFound "", -1)
  | none => (.NotFound "", -1)

def ZCard (db : ZsetDb S) (key : Slice) (time : Int) : Status × Int32 :=
  match db.get (metaKey scores key) with
  | some metavalue =>
    let pzetmetavalue := parsedMeta scores metavalue
    if pzetmetavalue.IsStale time then (.NotFound "Stale", 0)
    else if pzetmetavalue.count == 0 then (.NotFound "", 0)
    else (.OK, pzetmetavalue.count)
  | none => (.NotFound "", 0)

/-- `ZIncrby`; none when an assertion of the comparator fails: the meta value of a new sorted set is put under the
bare key. -/
def ZIncrby (db : ZsetDb S) (key : Slice) (time later : Int) (member : Slice) (increment : S) :
    Option (ZsetDb S × Status × S) :=
  match db.get (metaKey scores key) with
  | some metavalue =>
    let pzsetmetavalue := parsedMeta scores metavalue
    let pzsetmetavalue :=
      if pzsetmetavalue.IsStale time || pzsetmetavalue.count == 0 then pzsetmetavalue.InitialMetaValue later
      else pzsetmetavalue
    let version := pzsetmetavalue.version
    match db.get (memberKey scores key version member) with
    | some datavalue =>
      let oldscore := datavalue.double scores
      let score := scores.add oldscore increment
      let batch := .Delete ⟨key, version, oldscore, member⟩ :: putMember scores key version ⟨score, member⟩
      some (db.write batch, .OK, score)
    | none =>
      let batch := .Put (metaKey scores key) (.bytes (pzsetmetavalue.ModifyCount 1).value) ::
        putMember scores key version ⟨increment, member⟩
      some (db.write batch, .OK, increment)
  | none =>
    let zmetavalue := (BaseMetaValue.new (EncodeFixed32 1)).UpdateVersion time
    (rawKey scores key).map fun k =>
      let batch := .Put k (.bytes zmetavalue.Encode) :: putMember scores key zmetavalue.version ⟨increment, member⟩
      (db.write batch, .OK, increment)

/-- `Expire`; the clock is read twice. -/
def Expire (db : ZsetDb S) (key : Slice) (time later : Int) (ttl : Int32) : ZsetDb S × Status :=
  match db.get (metaKey scores key) with
  | some metavalue =>
    let pzsetsmetavalue := parsedMeta scores metavalue
    if pzsetsmetavalue.IsStale time then (db, .NotFound "Stale")
    else if pzsetsmetavalue.count == 0 then (db, .NotFound "")
    else
      let pzsetsmetavalue :=
        if 0 < ttl then pzsetsmetavalue.SetRelativeTimestamp ttl later else pzsetsmetavalue.InitialMetaValue later
      (db.put (metaKey scores key) (.bytes pzsetsmetavalue.value), .OK)
  | none => (db, .NotFound "")

/-- `Del`; the clock is read twice. -/
def Del (db : ZsetDb S) (key : Slice) (time later : Int) : ZsetDb S × Status :=
  match db.get (metaKey scores key) with
  | some metavalue =>
    let pzsetsmetavalue := parsedMeta scores metavalue
    if pzsetsmetavalue.IsStale time then (db, .NotFound "Stale")
    else if pzsetsmetavalue.count == 0 then (db, .NotFound "")
    else (db.put (metaKey scores key) (.bytes (pzsetsmetavalue.InitialMetaValue later).value), .OK)
  | none => (db, .NotFound "")

/-! ### Runs -/

inductive Call (S : Type*) where
  | ZAdd (first : ScoreMember S) (rest : List (ScoreMember S))
  | ZIncrby (member : Slice) (increment : S)
  | Del
  | Expire (ttl : Int32)
  | ZCard
  | ZRange (start stop : Int32)
  | ZRank (member : Slice)

/-- A call on a key, after some time; the clock goes on by `lag` between its readings. -/
structure Action (S : Type*) where
  key : Slice
  call : Call S
  wait : ℕ := 0
  lag : ℕ := 0

inductive Reply (S : Type*) where
  | added (n : Int)
  | score (s : S)
  | card (n : Int)
  | range (l : List (ScoreMember S))
  | rank (n : Int)
  | done
  | aborted
deriving DecidableEq

structure State (S : Type*) [LinearOrder S] where
  clock : Int
  db : ZsetDb S

def call (db : ZsetDb S) (key : Slice) (time later : Int) : Call S → ZsetDb S × Reply S
  | .ZAdd first rest =>
    let r := ZAdd scores db key time later (first :: rest)
    (r.1, .added r.2.2.toInt)
  | .ZIncrby member increment =>
    match ZIncrby scores db key time later member increment with
    | some r => (r.1, .score r.2.2)
    | none => (db, .aborted)
  | .Del => ((Del scores db key time later).1, .done)
  | .Expire ttl => ((Expire scores db key time later ttl).1, .done)
  | .ZCard => (db, .card (ZCard scores db key time).2.toInt)
  | .ZRange start stop => (db, .range (ZRange scores db key time start stop).2)
  | .ZRank member => (db, .rank (ZRank scores db key time member).2.toInt)

def step (s : State S) (a : Action S) : State S × Reply S :=
  let time := s.clock + a.wait
  let later := time + a.lag
  let r := call scores s.db a.key time later a.call
  (⟨later, r.1⟩, r.2)

/-! ### Scored maps by key -/

/-- The scores of the members of a key, and the time after which it has none. -/
structure ScoredMap (S : Type*) where
  members : SortedMap Slice S
  expiry : Option Int

namespace ScoredMap

def empty : ScoredMap S := ⟨.empty, none⟩

def expired (t : ScoredMap S) (time : Int) : Bool :=
  match t.expiry with
  | some expiry => decide (expiry < time)
  | none => false

/-- A key without members starts afresh. -/
def live (t : ScoredMap S) (time : Int) : ScoredMap S :=
  if t.expired time || t.members.entries.isEmpty then empty else t

/-- The members in order of score and member. -/
def ranking (t : ScoredMap S) : List (ScoreMember S) :=
  let sorted : SortedMap (S ×ₗ Slice) Unit :=
    SortedMap.empty.write (t.members.entries.map fun e => .Put (toLex (e.2, e.1)) ())
  sorted.entries.map fun e => ⟨(ofLex e.1).1, (ofLex e.1).2⟩

end ScoredMap

/-- What a call is meant to do to a scored map, and to reply. -/
def mapCall (t : ScoredMap S) (time later : Int) : Call S → ScoredMap S × Reply S
  | .ZAdd first rest =>
    let t := t.live time
    let added := firstOf ScoreMember.member (first :: rest)
    ({ t with members := t.members.write (added.map fun sm => .Put sm.member sm.score) },
      .added (added.filter fun sm => (t.members.get sm.member).isNone).length)
  | .ZIncrby member increment =>
    let t := t.live time
    let score := match t.members.get member with
      | some oldscore => scores.add oldscore increment
      | none => increment
    ({ t with members := t.members.put member score }, .score score)
  | .Del => (.empty, .done)
  | .Expire ttl =>
    let t := t.live time
    (if 0 < ttl then
        if t.members.entries.isEmpty then t else { t with expiry := some (later + ttl.toInt) }
      else .empty,
      .done)
  | .ZCard => (t, .card (t.live time).members.entries.length)
  | .ZRange start stop => (t, .range (slice (t.live time).ranking start.toInt stop.toInt))
  | .ZRank member =>
    match (t.live time).ranking.findIdx? fun sm => sm.member = member with
    | some index => (t, .rank index)
    | none => (t, .rank (-1))

/-- The clock and the scored maps of the keys. -/
def mapStep (s : Int × (Slice → ScoredMap S)) (a : Action S) : (Int × (Slice → ScoredMap S)) × Reply S :=
  let time := s.1 + a.wait
  let later := time + a.lag
  let r := mapCall scores (s.2 a.key) time later a.call
  ((later, fun key => if key = a.key then r.1 else s.2 key), r.2)

end RedisZset

end RedisDb
