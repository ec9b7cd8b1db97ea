import SwissArmyKnife.RedisDb.DeadKeys
import SwissArmyKnife.RedisDb.RedisZsetRuns

/-!
# Dead sorted sets

The meta value of a sorted set is stored under a key of its own, and every member twice under a version.  A call on a
dead sorted set starts a new version, and so does a call on one that is not there, but the two versions differ when
the old one does not lie in the past; what was left under them then shows.
-/

namespace RedisDb

open FirstOf (firstOf)

/-- A version that was updated after 1970 is not 0. -/
theorem nextVersion_ne_zero (version : Int32) {time : Int} (hpos : 0 < time) (hlt : time < 2 ^ 31) :
    nextVersion version time ≠ 0 := by
  unfold nextVersion
  split
  · rename_i hle
    intro hzero
    have hversion : version = -1 := by
      have hsub := congrArg (· - 1) hzero
      simpa using hsub
    rw [hversion] at hle
    have hneg : (-1 : Int32).toInt = -1 := rfl
    omega
  · intro hzero
    have htoInt := congrArg Int32.toInt hzero
    rw [Int32.toInt_ofInt_of_le (by omega) (by omega), Int32.toInt_zero] at htoInt
    omega

variable {L S : Type*} [LinearOrder S]

namespace RedisZset

/-- The calls on a key; an output parameter is given by what it holds before the call. -/
inductive Command (S : Type*) where
  | ZAdd (scoremembers : List (ScoreMember S)) (ret : Int32)
  | ZRange (start stop : Int32) (scoremembers : List (ScoreMember S))
  | ZRank (member : Slice) (rank : Int32)
  | ZCard (card : Int32)
  | ZIncrby (member : Slice) (increment ret : S)
  | ScanKeyNum (keyinfo : KeyInfo)
  | ScanKeys (pattern : Slice) (keys : List Slice)
  | Expire (ttl : Int32)
  | Del

/-- What the output parameters hold after a call. -/
inductive Output (S : Type*) where
  | nothing
  | number (n : Int)
  | score (s : S)
  | range (scoremembers : List (ScoreMember S))
  | keys (keys : List Slice)
  | keyinfo (keyinfo : KeyInfo)

variable (e : Setting L) (scores : Scores S)

def run (db : ZsetDb S) (key : Slice) : Command S → Option (Response (ZsetDb S) (Output S))
  | .ZAdd scoremembers _ =>
    let r := ZAdd scores db key e.time e.later scoremembers
    some ⟨r.1, r.2.1, .number r.2.2.toInt⟩
  | .ZRange start stop _ =>
    let r := ZRange scores db key e.time start stop
    some ⟨db, r.1, .range r.2⟩
  | .ZRank member _ =>
    let r := ZRank scores db key e.time member
    some ⟨db, r.1, .number r.2.toInt⟩
  | .ZCard _ =>
    let r := ZCard scores db key e.time
    some ⟨db, r.1, .number r.2.toInt⟩
  | .ZIncrby member increment _ =>
    (ZIncrby scores db key e.time e.later member increment).map fun r => ⟨r.1, r.2.1, .score r.2.2⟩
  | .ScanKeyNum _ => (ScanKeyNum e.time scores db).map fun keyinfo => ⟨db, .OK, .keyinfo keyinfo⟩
  | .ScanKeys pattern keys =>
    (ScanKeys e.beyond e.time scores db pattern keys).map fun keys => ⟨db, .OK, .keys keys⟩
  | .Expire ttl =>
    let r := RedisZset.Expire scores db key e.time e.later ttl
    some ⟨r.1, r.2, .nothing⟩
  | .Del =>
    let r := RedisZset.Del scores db key e.time e.later
    some ⟨r.1, r.2, .nothing⟩

/-- What is stored under a version: the scores of the members, and the members by score. -/
@[ext]
structure Ranking (S : Type*) where
  scoreOf : Slice → Option S
  ranked : S → Slice → Bool

def rankingOf (db : ZsetDb S) (key : Slice) (version : Int32) : Ranking S where
  scoreOf member := (db.get (memberKey scores key version member)).map (ZSetsValue.double scores)
  ranked score member := (db.get ⟨key, version, score, member⟩).isSome

/-- The meta value that is stored under the key of a sorted set. -/
def storedMeta (db : ZsetDb S) (key : Slice) : ParsedBaseMetaValue :=
  parsedMeta scores ((db.get (metaKey scores key)).getD (.bytes []))

/-- The key of a sorted set has a meta value, and it is dead. -/
def DeadMeta (db : ZsetDb S) (key : Slice) (time : Int) : Prop :=
  ∃ f : MetaFields, db.get (metaKey scores key) = some (.bytes f.encode) ∧
    ParsedBaseMetaValue.live time (some f.encode) = false

/-- The number of the members and the members, unless the key has no meta value or it is dead. -/
def contents (key : Slice) (db : ZsetDb S) (now : Int) : Option (Int32 × Ranking S) :=
  if ParsedBaseMetaValue.live now ((db.get (metaKey scores key)).map (ZSetsValue.data scores)) then
    some ((storedMeta scores db key).count, rankingOf scores db key (storedMeta scores db key).version)
  else none

variable {scores} {db : ZsetDb S} {key : Slice} {now : Int}

theorem storedMeta_eq {f : MetaFields} (h : db.get (metaKey scores key) = some (.bytes f.encode)) :
    storedMeta scores db key = f.parsed := by
  rw [storedMeta, h]
  exact MetaFields.new_encode f

theorem contents_of_none (h : db.get (metaKey scores key) = none) : contents scores key db now = none := by
  rw [contents, h]
  rfl

theorem contents_of_dead {f : MetaFields} (h : db.get (metaKey scores key) = some (.bytes f.encode))
    (hdead : ParsedBaseMetaValue.live now (some f.encode) = false) : contents scores key db now = none := by
  rw [contents, h, Option.map_some, ZSetsValue.data, hdead]
  rfl

theorem contents_of_some {count version : Int32}
    (h : db.get (metaKey scores key) = some (.bytes (⟨count, version, 0⟩ : MetaFields).encode)) :
    contents scores key db now = if count = 0 then none else some (count, rankingOf scores db key version) := by
  rw [contents, storedMeta_eq h, h, Option.map_some, ZSetsValue.data, MetaFields.live_encode_of_zero]
  simp

theorem same_of_dead (h : DeadMeta scores db key e.time) (now : Int) (hle : e.later ≤ now) :
    contents scores key db now = contents scores key (db.delete (metaKey scores key)) now := by
  obtain ⟨f, hget, hdead⟩ := h
  rw [contents_of_none (SortedMap.get_delete_self ..),
    contents_of_dead hget (ParsedBaseMetaValue.dead_mono hdead (e.time_le_later.trans hle))]

variable (scores) in
/-- What is stored under two versions is the same, apart from some members. -/
structure SameLeft (db : ZsetDb S) (key : Slice) (version version' : Int32) (sms : List (ScoreMember S)) : Prop where
  scoreOf : ∀ member ∉ sms.map ScoreMember.member,
    (rankingOf scores db key version).scoreOf member = (rankingOf scores db key version').scoreOf member
  ranked : ∀ sm ∉ sms, (rankingOf scores db key version).ranked sm.score sm.member =
    (rankingOf scores db key version').ranked sm.score sm.member

variable (scores) in
/-- When the answers to a call are alike, for a dead key and for one without a meta value. -/
def Command.Conceals (db : ZsetDb S) (key : Slice) : Command S → Prop
  | .ZAdd scoremembers _ =>
    let added := firstOf ScoreMember.member scoremembers
    Int32.ofNat added.length = 0 ∨ SameLeft scores db key (nextVersion (storedMeta scores db key).version e.later)
      (nextVersion 0 e.time) added
  | .ZIncrby member increment _ =>
    (rawKey scores key).isSome = true ∧ ∃ oldscore,
      (rankingOf scores db key (nextVersion (storedMeta scores db key).version e.later)).scoreOf member =
        some oldscore ∧
        scores.add oldscore increment = increment
  | .ScanKeyNum _ => (storedMeta scores db key).timestamp = 0
  | _ => True

/-! ### What a call creates -/

variable (scores) in
/-- A new sorted set: its members under a version, and its meta value. -/
def created (db : ZsetDb S) (key : Slice) (count version : Int32) (sms : List (ScoreMember S)) : ZsetDb S :=
  (db.write (sms.flatMap (putMember scores key version))).put (metaKey scores key)
    (.bytes (⟨count, version, 0⟩ : MetaFields).encode)

variable {version : Int32}

theorem get_metaKey_putMember (hversion : version ≠ 0) (db : ZsetDb S) (sm : ScoreMember S) :
    (db.write (putMember scores key version sm)).get (metaKey scores key) = db.get (metaKey scores key) := by
  rw [get_putMember, if_neg (scoreKey_ne_metaKey hversion _ _).symm, if_neg (memberKey_ne_metaKey hversion _).symm]

theorem scoreOf_putMembers (hversion : version ≠ 0) (db : ZsetDb S) (sms : List (ScoreMember S)) (member : Slice) :
    (rankingOf scores (db.write (sms.flatMap (putMember scores key version))) key version).scoreOf member =
      ((sms.reverse.find? fun sm => sm.member = member).map ScoreMember.score).or
        ((rankingOf scores db key version).scoreOf member) := by
  induction sms using List.reverseRecOn with
  | nil => rfl
  | append_singleton sms sm ih =>
    rw [List.flatMap_append, SortedMap.write_append, List.flatMap_singleton, rankingOf]
    dsimp only
    rw [get_putMember, if_neg (memberKey_ne_scoreKey hversion _ _ _ _), List.reverse_append, List.reverse_singleton,
      List.singleton_append]
    by_cases hmember : sm.member = member
    · rw [if_pos (by rw [hmember]), List.find?_cons_of_pos (by simpa using hmember)]
      rfl
    · rw [if_neg fun hkey => hmember (memberKey_inj.1 hkey).2.symm, List.find?_cons_of_neg (by simpa using hmember)]
      exact ih

theorem ranked_putMembers (hversion : version ≠ 0) (db : ZsetDb S) (sms : List (ScoreMember S)) (sm : ScoreMember S) :
    (rankingOf scores (db.write (sms.flatMap (putMember scores key version))) key version).ranked sm.score sm.member =
      (decide (sm ∈ sms) || (rankingOf scores db key version).ranked sm.score sm.member) := by
  induction sms using List.reverseRecOn with
  | nil => simp
  | append_singleton sms sm' ih =>
    rw [List.flatMap_append, SortedMap.write_append, List.flatMap_singleton, rankingOf]
    dsimp only
    rw [get_putMember, if_neg (memberKey_ne_scoreKey hversion _ _ _ _).symm]
    by_cases heq : sm = sm'
    · simp [heq]
    · have hkey : (⟨key, version, sm.score, sm.member⟩ : ZSetsScoreKey S) ≠
          ⟨key, version, sm'.score, sm'.member⟩ := by
        intro hkey
        obtain ⟨score, member⟩ := sm
        obtain ⟨score', member'⟩ := sm'
        simp_all
      have hmem : decide (sm ∈ sms ++ [sm']) = decide (sm ∈ sms) := by simp [heq]
      rw [if_neg hkey, hmem]
      exact ih

theorem rankingOf_put_meta (hversion : version ≠ 0) (db : ZsetDb S) (v : ZSetsValue S) :
    rankingOf scores (db.put (metaKey scores key) v) key version = rankingOf scores db key version := by
  simp only [rankingOf, SortedMap.get_put, memberKey_ne_metaKey hversion, scoreKey_ne_metaKey hversion, if_false]

theorem rankingOf_delete_meta (hversion : version ≠ 0) (db : ZsetDb S) :
    rankingOf scores (db.delete (metaKey scores key)) key version = rankingOf scores db key version := by
  simp only [rankingOf, SortedMap.get_delete, memberKey_ne_metaKey hversion, scoreKey_ne_metaKey hversion, if_false]

theorem contents_created (db : ZsetDb S) (count : Int32) (sms : List (ScoreMember S)) :
    contents scores key (created scores db key count version sms) now =
      if count = 0 then none
      else some (count, rankingOf scores (created scores db key count version sms) key version) :=
  contents_of_some (SortedMap.get_put_self ..)

/-- The sorted sets that are created under two versions with the same members are the same if nothing else was
left. -/
theorem rankingOf_created_eq_iff {version' : Int32} (hversion : version ≠ 0) (hversion' : version' ≠ 0)
    (db : ZsetDb S) (count : Int32) (sms : List (ScoreMember S)) :
    rankingOf scores (created scores db key count version sms) key version =
        rankingOf scores (created scores (db.delete (metaKey scores key)) key count version' sms) key version' ↔
      SameLeft scores db key version version' sms := by
  rw [created, created, rankingOf_put_meta hversion, rankingOf_put_meta hversion']
  constructor
  · intro heq
    constructor
    · intro member hnot
      have hscore := congrFun (congrArg Ranking.scoreOf heq) member
      have hfind : sms.reverse.find? (fun sm => sm.member = member) = none := by
        rw [List.find?_eq_none]
        intro sm hsm hmember
        exact hnot (List.mem_map.2 ⟨sm, by simpa using hsm, by simpa using hmember⟩)
      rw [scoreOf_putMembers hversion, scoreOf_putMembers hversion', rankingOf_delete_meta hversion', hfind] at hscore
      exact hscore
    · intro sm hnot
      have hranked := congrFun (congrFun (congrArg Ranking.ranked heq) sm.score) sm.member
      rw [ranked_putMembers hversion, ranked_putMembers hversion', rankingOf_delete_meta hversion'] at hranked
      simpa [hnot] using hranked
  · rintro ⟨hscore, hranked⟩
    refine Ranking.ext (funext fun member => ?_) (funext fun score => funext fun member => ?_)
    · rw [scoreOf_putMembers hversion, scoreOf_putMembers hversion', rankingOf_delete_meta hversion']
      cases hfind : sms.reverse.find? fun sm => sm.member = member with
      | some sm => rfl
      | none =>
        refine congrArg _ (hscore member fun hmem => ?_)
        obtain ⟨sm, hsm, hmember⟩ := List.mem_map.1 hmem
        simpa [hmember] using List.find?_eq_none.1 hfind sm (by simpa using hsm)
    · have hput (version : Int32) (hversion : version ≠ 0) (db : ZsetDb S) :=
        @ranked_putMembers _ _ scores key version hversion db sms ⟨score, member⟩
      rw [hput version hversion, hput version' hversion', rankingOf_delete_meta hversion']
      by_cases hmem : (⟨score, member⟩ : ScoreMember S) ∈ sms
      · simp [hmem]
      · rw [hranked _ hmem]

/-- `ZAdd` creates a sorted set where there is none. -/
theorem zAdd_of_none (h : db.get (metaKey scores key) = none) (time later : Int) (sms : List (ScoreMember S))
    (htime : nextVersion 0 time ≠ 0) :
    ZAdd scores db key time later sms =
      let added := firstOf ScoreMember.member sms
      let size := Int32.ofNat added.length
      (created scores db key size (nextVersion 0 time) added, .OK, size) := by
  have hversion (value : Slice) : ((BaseMetaValue.new value).UpdateVersion time).version = nextVersion 0 time := rfl
  simp only [ZAdd, h, hversion, SortedMap.write_cons, SortedMap.apply]
  rw [SortedMap.write_put_of_forall_ne (putMembers_ne_metaKey htime _)]
  rfl

theorem zAdd_of_dead {f : MetaFields} (h : db.get (metaKey scores key) = some (.bytes f.encode)) {time : Int}
    (hdead : ParsedBaseMetaValue.live time (some f.encode) = false) (later : Int) (sms : List (ScoreMember S)) :
    ZAdd scores db key time later sms =
      let added := firstOf ScoreMember.member sms
      let size := Int32.ofNat added.length
      (created scores db key size (nextVersion f.version later) added, .OK, size) := by
  have hnot := MetaFields.dead_of_not_live hdead
  have hmeta : parsedMeta scores (.bytes f.encode : ZSetsValue S) = f.parsed := MetaFields.new_encode f
  have hadd (version : Int32) :
      addMember scores key version (fun _ => none) = putMember scores key version := rfl
  simp only [ZAdd, h, hmeta, hnot, Bool.not_true, Bool.false_eq_true, if_false, hadd, Option.isNone_none,
    List.filter_true, SortedMap.write_append, MetaFields.initialMetaValue_parsed, MetaFields.modifyCount_parsed,
    MetaFields.parsed_version, MetaFields.parsed_value, Int32.zero_add]
  rfl

theorem zAdd_alike_iff (h : DeadMeta scores db key e.time) (sms : List (ScoreMember S)) (ret : Int32) :
    Alike (contents scores key) e.later (run e scores db key (.ZAdd sms ret))
        (run e scores (db.delete (metaKey scores key)) key (.ZAdd sms ret)) ↔
      Command.Conceals e scores db key (.ZAdd sms ret) := by
  obtain ⟨f, hget, hdead⟩ := h
  have hlater := nextVersion_ne_zero f.version (e.time_pos.trans_le e.time_le_later) e.later_lt
  have htime := nextVersion_ne_zero 0 e.time_pos (e.time_le_later.trans_lt e.later_lt)
  rw [run, run, zAdd_of_dead hget hdead, zAdd_of_none (SortedMap.get_delete_self ..) _ _ _ htime]
  simp only [Alike, true_and, contents_created, Command.Conceals, storedMeta_eq hget, MetaFields.parsed_version]
  by_cases hsize : Int32.ofNat (firstOf ScoreMember.member sms).length = 0
  · simp [hsize]
  · simp only [hsize, if_false, false_or, Option.some.injEq, Prod.mk.injEq, true_and,
      rankingOf_created_eq_iff hlater htime]
    exact ⟨fun h => h e.later le_rfl, fun h _ _ => h⟩

/-- The bytes of a key are too few for the key that they stand for when they are read as an encoded one. -/
theorem rawKey_ne_metaKey {k : ZSetsScoreKey S} (h : rawKey scores key = some k) : k ≠ metaKey scores key := by
  rintro rfl
  rw [rawKey] at h
  dsimp only at h
  split at h
  · rename_i hlen
    have hkey := congrArg (List.length ∘ ZSetsScoreKey.key) (Option.some.inj h)
    simp only [Function.comp_apply, metaKey, List.length_take] at hkey
    omega
  · simp at h

theorem zIncrby_alike_iff (h : DeadMeta scores db key e.time) (member : Slice) (increment ret : S) :
    Alike (contents scores key) e.later (run e scores db key (.ZIncrby member increment ret))
        (run e scores (db.delete (metaKey scores key)) key (.ZIncrby member increment ret)) ↔
      Command.Conceals e scores db key (.ZIncrby member increment ret) := by
  obtain ⟨f, hget, hdead⟩ := h
  have hnot := MetaFields.dead_of_not_live hdead
  have hmeta : parsedMeta scores (.bytes f.encode : ZSetsValue S) = f.parsed := MetaFields.new_encode f
  have hlater := nextVersion_ne_zero f.version (e.time_pos.trans_le e.time_le_later) e.later_lt
  have htime := nextVersion_ne_zero 0 e.time_pos (e.time_le_later.trans_lt e.later_lt)
  simp only [run, ZIncrby, hget, hmeta, hnot, if_true, SortedMap.get_delete_self, Command.Conceals,
    storedMeta_eq hget, MetaFields.initialMetaValue_parsed, MetaFields.parsed_version, rankingOf]
  cases hraw : rawKey scores key with
  | none =>
    cases db.get (memberKey scores key (nextVersion f.version e.later) member) with
    | none => simp [Alike]
    | some v => simp [Alike]
  | some k =>
    have hnone : contents scores key ((db.delete (metaKey scores key)).write
        (.Put k (.bytes ((BaseMetaValue.new (EncodeFixed32 1)).UpdateVersion e.time).Encode) ::
          putMember scores key (nextVersion 0 e.time) ⟨increment, member⟩)) = fun _ => none := by
      funext now
      refine contents_of_none ?_
      rw [SortedMap.write_cons, get_metaKey_putMember htime, SortedMap.apply, SortedMap.get_put,
        if_neg (rawKey_ne_metaKey hraw).symm, SortedMap.get_delete_self]
    cases hold : db.get (memberKey scores key (nextVersion f.version e.later) member) with
    | none =>
      -- The call creates a sorted set over the dead meta value, but not where there is none.
      have hsome : contents scores key (db.write (.Put (metaKey scores key)
          (.bytes (⟨1, nextVersion f.version e.later, 0⟩ : MetaFields).encode) ::
            putMember scores key (nextVersion f.version e.later) ⟨increment, member⟩)) e.later ≠ none := by
        have hget' : (db.write (.Put (metaKey scores key)
            (.bytes (⟨1, nextVersion f.version e.later, 0⟩ : MetaFields).encode) ::
              putMember scores key (nextVersion f.version e.later) ⟨increment, member⟩)).get (metaKey scores key) =
            some (.bytes (⟨1, nextVersion f.version e.later, 0⟩ : MetaFields).encode) := by
          rw [SortedMap.write_cons, get_metaKey_putMember hlater]
          exact SortedMap.get_put_self ..
        rw [contents_of_some hget']
        simp
      refine iff_of_false (fun halike => hsome ?_) (by simp)
      exact (halike.2.2 e.later le_rfl).trans (congrFun hnone e.later)
    | some v =>
      -- The meta value is not written, and the sorted set stays dead.
      have hdead' (now : Int) (hle : e.later ≤ now) : contents scores key (db.write
          (.Delete ⟨key, nextVersion f.version e.later, v.double scores, member⟩ ::
            putMember scores key (nextVersion f.version e.later) ⟨scores.add (v.double scores) increment, member⟩))
          now = none := by
        refine contents_of_dead ?_ (ParsedBaseMetaValue.dead_mono hdead (e.time_le_later.trans hle))
        rw [SortedMap.write_cons, get_metaKey_putMember hlater, SortedMap.apply, SortedMap.get_delete,
          if_neg (scoreKey_ne_metaKey hlater _ _).symm, hget]
      simp only [Option.map_some, Alike, true_and, Output.score.injEq, Option.isSome_some, Option.some.injEq,
        exists_eq_left', and_iff_left_iff_imp]
      intro _ now hle
      exact (hdead' now hle).trans (congrFun hnone now).symm

/-- The entries with the dead meta value and without it, as an iterator shows them. -/
theorem DeadMeta.encoded_split {time : Int} (h : DeadMeta scores db key time) : ∃ f : MetaFields, ∃ l r,
    storedMeta scores db key = f.parsed ∧ ParsedBaseMetaValue.live time (some f.encode) = false ∧
      db.encoded scores = l ++ ((metaKey scores key).Encode scores, f.encode) :: r ∧
      ZsetDb.encoded scores (db.delete (metaKey scores key)) = l ++ r := by
  obtain ⟨f, hget, hdead⟩ := h
  obtain ⟨l, r, hentries, hdelete⟩ := SortedMap.entries_split hget
  refine ⟨f, l.map fun e => (e.1.Encode scores, e.2.data scores), r.map fun e => (e.1.Encode scores, e.2.data scores),
    storedMeta_eq hget, hdead, ?_, ?_⟩
  · rw [ZsetDb.encoded, hentries, List.map_append, List.map_cons]
    rfl
  · rw [ZsetDb.encoded, hdelete, List.map_append]

theorem timestamp_encode (f : MetaFields) : (ParsedStringsMetaValue.new f.encode).timestamp = f.timestamp := by
  have htimestamp : DecodeFixed32 (f.encode.drop 8) = f.timestamp.toUInt32 :=
    decodeFixed32_append f.timestamp.toUInt32 []
  have hnew : (ParsedStringsMetaValue.new f.encode).timestamp = (DecodeFixed32 (f.encode.drop 8)).toInt32 := rfl
  rw [hnew, htimestamp]
  simp

theorem scanKeyNum_delete_iff {time : Int} (h : DeadMeta scores db key time) :
    ScanKeyNum time scores db = ScanKeyNum time scores (db.delete (metaKey scores key)) ↔
      (storedMeta scores db key).timestamp = 0 := by
  obtain ⟨f, l, r, hmeta, -, hentries, hdelete⟩ := h.encoded_split
  rw [ScanKeyNum, ScanKeyNum, hentries, hdelete, List.map_append, List.map_cons, List.map_append,
    RedisDb.scanKeyNum_eq_iff rfl, timestamp_encode, hmeta]
  simp

theorem scanKeys_delete {time : Int} (h : DeadMeta scores db key time)
    (beyond : Slice → Nat → UInt8) (pattern : Slice)
    (keys : List Slice) :
    ScanKeys beyond time scores db pattern keys =
      ScanKeys beyond time scores (db.delete (metaKey scores key)) pattern keys := by
  obtain ⟨f, l, r, -, hdead, hentries, hdelete⟩ := h.encoded_split
  rw [ScanKeys, ScanKeys, hentries, hdelete, scanKeys_skip (MetaFields.listed_of_not_live hdead)]

/-- A call on a dead sorted set answers as on one that is not there, under the condition of the call. -/
theorem alike_iff (h : DeadMeta scores db key e.time) (c : Command S) :
    Alike (contents scores key) e.later (run e scores db key c)
      (run e scores (db.delete (metaKey scores key)) key c) ↔ c.Conceals e scores db key := by
  have hsame := same_of_dead e h
  obtain ⟨f, hget, hdead⟩ := id h
  have hmeta : parsedMeta scores (.bytes f.encode : ZSetsValue S) = f.parsed := MetaFields.new_encode f
  have hcases := MetaFields.stale_or_empty hdead
  cases c with
  | ZAdd sms ret => exact zAdd_alike_iff e h sms ret
  | ZIncrby member increment ret => exact zIncrby_alike_iff e h member increment ret
  | ZRange start stop sms =>
    rcases hcases with hstale | ⟨hfresh, hzero⟩
    · simp [run, ZRange, hget, hmeta, hstale, alike_iff_of_same hsame, Command.Conceals, Status.toClass]
    · simp [run, ZRange, hget, hmeta, hfresh, hzero, alike_iff_of_same hsame, Command.Conceals]
  | ZRank member rank =>
    rcases hcases with hstale | ⟨hfresh, hzero⟩
    · simp [run, ZRank, hget, hmeta, hstale, alike_iff_of_same hsame, Command.Conceals, Status.toClass]
    · simp [run, ZRank, hget, hmeta, hfresh, hzero, alike_iff_of_same hsame, Command.Conceals]
  | ZCard card =>
    rcases hcases with hstale | ⟨hfresh, hzero⟩
    · simp [run, ZCard, hget, hmeta, hstale, alike_iff_of_same hsame, Command.Conceals, Status.toClass]
    · simp [run, ZCard, hget, hmeta, hfresh, hzero, alike_iff_of_same hsame, Command.Conceals]
  | Expire ttl =>
    rcases hcases with hstale | ⟨hfresh, hzero⟩
    · simp [run, RedisZset.Expire, hget, hmeta, hstale, alike_iff_of_same hsame, Command.Conceals, Status.toClass]
    · simp [run, RedisZset.Expire, hget, hmeta, hfresh, hzero, alike_iff_of_same hsame, Command.Conceals]
  | Del =>
    rcases hcases with hstale | ⟨hfresh, hzero⟩
    · simp [run, RedisZset.Del, hget, hmeta, hstale, alike_iff_of_same hsame, Command.Conceals, Status.toClass]
    · simp [run, RedisZset.Del, hget, hmeta, hfresh, hzero, alike_iff_of_same hsame, Command.Conceals]
  | ScanKeyNum keyinfo =>
    rw [run, run, alike_map_iff hsame fun _ _ heq => Output.keyinfo.inj heq]
    exact scanKeyNum_delete_iff h
  | ScanKeys pattern keys =>
    rw [run, run, alike_map_iff hsame fun _ _ heq => Output.keys.inj heq]
    exact iff_of_true (scanKeys_delete h e.beyond pattern keys) trivial

end RedisZset

end RedisDb
