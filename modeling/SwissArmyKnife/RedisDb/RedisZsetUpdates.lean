import SwissArmyKnife.RedisDb.RedisZsetMaps

/-!
# Calls that write a sorted set

After `ZAdd`, `ZIncrby`, `Del` and `Expire` the entries of the key stand for what the call makes of its scored map,
as long as the counters stay in the range of their types.
-/

namespace RedisDb

open FirstOf (firstOf nodup_firstOf)

variable {S : Type*} [LinearOrder S]

namespace RedisZset

variable {scores : Scores S} {db : ZsetDb S} {key : Slice} {version : Int32} {m : SortedMap Slice S} {t : ScoredMap S}
  {batch : List (SortedMap.Op (ZSetsScoreKey S) (ZSetsValue S))} {now later : Int}

/-! ### ZAdd and ZIncrby -/

/-- The counter of the version can go on. -/
def MayRenew (p : ParsedBaseMetaValue) (later : Int) : Prop := p.version.toInt < 2 ^ 31 - 1 ∧ later < 2 ^ 31

/-- The members may be added: the count, the version and the time stay in the range of their types. -/
def MayAdd (scores : Scores S) (db : ZsetDb S) (key : Slice) (time later : Int) (sms : List (ScoreMember S)) :
    Option (ZSetsValue S) → Prop
  | some metavalue =>
    let p := parsedMeta scores metavalue
    if p.IsStale time || p.count == 0 then MayRenew p later ∧ (firstOf ScoreMember.member sms).length < 2 ^ 31
    else
      p.count.toInt + ((firstOf ScoreMember.member sms).filter fun sm =>
        (db.get (memberKey scores key p.version sm.member)).isNone).length < 2 ^ 31
  | none => time < 2 ^ 31 ∧ (firstOf ScoreMember.member sms).length < 2 ^ 31

private theorem toInt_add {c : Int32} {n : Nat} (hc : 0 ≤ c.toInt) (h : c.toInt + n < 2 ^ 31) :
    (c + Int32.ofNat n).toInt = c.toInt + n := by
  rw [Int32.toInt_add, Int32.toInt_ofNat_of_lt (by omega), Int.bmod_eq_of_le (by omega) (by omega)]

private theorem flatMap_putMember (l : List (ScoreMember S)) :
    l.flatMap (putMember scores key version) = l.flatMap (addMember scores key version fun _ => none) := rfl

/-- Members are added under a version that has some already or is new. -/
private theorem addMembers_gives {f g : MetaFields} {old : Slice → Option S} {sms : List (ScoreMember S)}
    {expiry : Option Int} (hversion : 0 < f.version.toInt) (hdata : DataOf scores key db f.version m)
    (hfresh : Fresh scores key db f.version) (hold : ∀ member, old member = m.get member)
    (hsame : g.version = f.version)
    (hexpiry : Expiry g ⟨m, expiry⟩) (hne : sms ≠ [])
    (hcount : g.count.toInt = m.entries.length +
      ((firstOf ScoreMember.member sms).filter fun sm => (m.get sm.member).isNone).length) :
    Gives scores now key db
      (db.write ((firstOf ScoreMember.member sms).flatMap (addMember scores key f.version old) ++
        [.Put (metaKey scores key) (.bytes g.encode)]))
      ⟨m.write ((firstOf ScoreMember.member sms).map fun sm => .Put sm.member sm.score), expiry⟩ := by
  have hnodup : ((firstOf ScoreMember.member sms).map ScoreMember.member).Nodup := nodup_firstOf sms
  have hlocal : Local scores key f.version
      ((firstOf ScoreMember.member sms).flatMap (addMember scores key f.version old) ++
      [.Put (metaKey scores key) (.bytes g.encode)]) := (local_addMembers old _).append (local_meta _)
  have hlength := SortedMap.length_puts (m := m) (g := ScoreMember.score) hnodup
  have hwrite := hdata.addMembers (ne_zero_of_pos hversion) hnodup fun sm _ => hold sm.member
  refine hlocal.gives (.live g ?_ hexpiry (hsame ▸ hversion) ?_ ?_ ?_ (hsame ▸ hfresh.write hversion hlocal))
  · rw [SortedMap.write_append]
    exact SortedMap.get_put_self ..
  · intro hzero
    obtain ⟨sm, hsm⟩ := List.exists_mem_of_ne_nil sms hne
    obtain ⟨sm', hmem, -⟩ : ∃ sm' ∈ firstOf ScoreMember.member sms, sm'.member = sm.member :=
      FirstOf.exists_mem_firstOf_iff.2 ⟨sm, hsm, rfl⟩
    rw [hzero] at hcount
    have hget : (m.write ((firstOf ScoreMember.member sms).map fun sm => .Put sm.member sm.score)).get sm'.member =
        some sm'.score := SortedMap.get_puts_of_mem hnodup hmem
    have hentries := List.length_pos_of_mem (SortedMap.get_eq_some_iff.1 hget)
    have htoInt : (0 : Int32).toInt = 0 := rfl
    omega
  · rw [hcount]
    exact_mod_cast hlength.symm
  · rw [SortedMap.write_append, hsame]
    exact hwrite.put_meta (ne_zero_of_pos hversion) _

theorem putMembers_ne_metaKey (hversion : version ≠ 0) (sms : List (ScoreMember S)) :
    ∀ op ∈ sms.flatMap (putMember scores key version), op.key ≠ metaKey scores key := by
  intro op hop
  obtain ⟨sm, -, hop⟩ := List.mem_flatMap.1 hop
  simp only [putMember, List.mem_cons, List.not_mem_nil, or_false] at hop
  rcases hop with rfl | rfl
  · exact memberKey_ne_metaKey hversion _
  · exact scoreKey_ne_metaKey hversion _ _

/-- The batch of `ZAdd` for a new sorted set, whose meta value comes first. -/
private theorem write_meta_first (hversion : version ≠ 0) (v : ZSetsValue S) (l : List (ScoreMember S)) :
    db.write (.Put (metaKey scores key) v :: l.flatMap (putMember scores key version)) =
      db.write (l.flatMap (addMember scores key version fun _ => none) ++ [.Put (metaKey scores key) v]) := by
  rw [SortedMap.write_append, ← flatMap_putMember]
  exact SortedMap.write_put_of_forall_ne (putMembers_ne_metaKey hversion l)

private theorem metaValue_encode (n : Nat) (time : Int) :
    ((BaseMetaValue.new (EncodeFixed32 (Int32.ofNat n).toUInt32)).UpdateVersion time).Encode =
      (⟨Int32.ofNat n, nextVersion 0 time, 0⟩ : MetaFields).encode := MetaFields.encode_new ..

private theorem metaValue_version (value : Slice) (time : Int) :
    ((BaseMetaValue.new value).UpdateVersion time).version = nextVersion 0 time := rfl

theorem zAdd_gives (h : RepKey scores now db key t) {time : Int} (htime : now ≤ time)
    {sms : List (ScoreMember S)} (hne : sms ≠ [])
    (hcond : MayAdd scores db key time later sms (db.get (metaKey scores key))) :
    Gives scores later key db (ZAdd scores db key time later sms).1 { t.live time with
        members := (t.live time).members.write
          ((firstOf ScoreMember.member sms).map fun sm => .Put sm.member sm.score) } ∧
      (ZAdd scores db key time later sms).2.2.toInt =
        ((firstOf ScoreMember.member sms).filter fun sm => ((t.live time).members.get sm.member).isNone).length := by
  unfold ZAdd
  have hfilter : ((firstOf ScoreMember.member sms).filter fun sm =>
      ((SortedMap.empty : SortedMap Slice S).get sm.member).isNone) = firstOf ScoreMember.member sms := by
    simp
  cases (h.mono htime).cases with
  | missing hget hlive hdead hfresh =>
    obtain ⟨htime', hlength⟩ : time < 2 ^ 31 ∧ (firstOf ScoreMember.member sms).length < 2 ^ 31 := by
      simpa only [hget, MayAdd] using hcond
    have hversion : (0 : Int32).toInt < (nextVersion 0 time).toInt := lt_nextVersion (by simp) htime'
    have hcount := Int32.toInt_ofNat_of_lt hlength
    simp only [hget, hlive, ScoredMap.empty, hfilter, metaValue_encode, metaValue_version,
      write_meta_first (ne_zero_of_pos hversion)]
    refine ⟨?_, hcount⟩
    exact addMembers_gives (f := ⟨0, nextVersion 0 time, 0⟩)
      (g := ⟨Int32.ofNat (firstOf ScoreMember.member sms).length, nextVersion 0 time, 0⟩) hversion
      (hfresh _ hversion) (hfresh.mono hversion.le) (fun _ => rfl) rfl (Or.inl ⟨rfl, rfl⟩) hne
      (by rw [hfilter]; exact hcount.trans (Int.zero_add _).symm)
  | dead f hget hlive hdead hstale hversion hfresh =>
    have hinit : (f.parsed.IsStale time || f.count == 0) = true := by simpa using hstale
    obtain ⟨⟨hmax, htime'⟩, hlength⟩ :
        MayRenew f.parsed later ∧ (firstOf ScoreMember.member sms).length < 2 ^ 31 := by
      simpa only [hget, MayAdd, parsedMeta_encode, MetaFields.parsed_count, hinit, if_true] using hcond
    have hnext : f.version.toInt < (nextVersion f.version later).toInt := lt_nextVersion hmax htime'
    have hcount : (0 + Int32.ofNat (firstOf ScoreMember.member sms).length).toInt =
        (firstOf ScoreMember.member sms).length := by
      rw [Int32.zero_add, Int32.toInt_ofNat_of_lt hlength]
    have hall : ((firstOf ScoreMember.member sms).filter fun _ => true) = firstOf ScoreMember.member sms := by simp
    simp only [hget, hlive, ScoredMap.empty, hfilter, parsedMeta_encode,
      MetaFields.parsed_count, hinit, Bool.not_true,
      Bool.false_eq_true, if_false, MetaFields.initialMetaValue_parsed, MetaFields.parsed_version,
      MetaFields.modifyCount_parsed, MetaFields.parsed_value, Option.isNone_none, hall]
    refine ⟨?_, Int32.toInt_ofNat_of_lt hlength⟩
    exact addMembers_gives (f := ⟨0, nextVersion f.version later, 0⟩) (hversion.trans hnext) (hfresh _ hnext)
      (hfresh.mono hnext.le) (fun _ => rfl) rfl (Or.inl ⟨rfl, rfl⟩) hne
      (by rw [hfilter]; exact hcount.trans (Int.zero_add _).symm)
  | live f hget hlive hstale hexpiry hversion hzero hcount hdata hfresh =>
    have hinit : (f.parsed.IsStale time || f.count == 0) = false := by simpa using ⟨hstale, hzero⟩
    have hold : ∀ member, (db.get (memberKey scores key f.version member)).map (ZSetsValue.double scores) =
        t.members.get member := by
      intro member
      rw [hdata.member]
      cases t.members.get member <;> rfl
    have hnone : ∀ member, (db.get (memberKey scores key f.version member)).isNone =
        (t.members.get member).isNone := by
      intro member
      rw [hdata.member, Option.isNone_map]
    have hmay : f.count.toInt + ((firstOf ScoreMember.member sms).filter fun sm =>
        (t.members.get sm.member).isNone).length < 2 ^ 31 := by
      simpa only [hget, MayAdd, parsedMeta_encode, MetaFields.parsed_count, hinit, Bool.false_eq_true, if_false,
        MetaFields.parsed_version, hnone] using hcond
    have hsum := toInt_add (by omega) hmay
    simp only [hget, hlive, parsedMeta_encode, MetaFields.parsed_count, hinit, Bool.not_false, if_true,
      MetaFields.parsed_version, MetaFields.modifyCount_parsed, MetaFields.parsed_value, hold]
    refine ⟨?_, Int32.toInt_ofNat_of_lt (by omega)⟩
    exact addMembers_gives hversion hdata hfresh (fun _ => rfl) rfl hexpiry hne (by rw [← hcount]; exact hsum)

/-- There is a meta value, and its count and its version stay in the range of their types. -/
def MayIncr (scores : Scores S) (db : ZsetDb S) (key : Slice) (time later : Int) (member : Slice) :
    Option (ZSetsValue S) → Prop
  | some metavalue =>
    let p := parsedMeta scores metavalue
    if p.IsStale time || p.count == 0 then MayRenew p later
    else db.get (memberKey scores key p.version member) = none → p.count.toInt + 1 < 2 ^ 31
  | none => False

/-- A member is added, with the meta value first. -/
private theorem insert_gives {f g : MetaFields} (sm : ScoreMember S) {expiry : Option Int}
    (hversion : 0 < f.version.toInt) (hdata : DataOf scores key db f.version m)
    (hfresh : Fresh scores key db f.version)
    (hnone : m.get sm.member = none) (hsame : g.version = f.version) (hexpiry : Expiry g ⟨m, expiry⟩)
    (hcount : g.count.toInt = m.entries.length + 1) :
    Gives scores now key db
      (db.write (.Put (metaKey scores key) (.bytes g.encode) :: putMember scores key f.version sm))
      ⟨m.put sm.member sm.score, expiry⟩ := by
  have hlocal : Local scores key f.version
      ([.Put (metaKey scores key) (.bytes g.encode)] ++ putMember scores key f.version sm) :=
    (local_meta _).append (local_putMember sm)
  refine hlocal.gives (.live g ?_ hexpiry (hsame ▸ hversion) ?_ ?_ ?_ (hsame ▸ hfresh.write hversion hlocal))
  · rw [SortedMap.write_append, get_putMember, if_neg (scoreKey_ne_metaKey (ne_zero_of_pos hversion) _ _).symm,
      if_neg (memberKey_ne_metaKey (ne_zero_of_pos hversion) _).symm]
    exact SortedMap.get_put_self ..
  · intro hzero
    rw [hzero] at hcount
    have htoInt : (0 : Int32).toInt = 0 := rfl
    omega
  · rw [hcount]
    exact_mod_cast (SortedMap.length_put_of_none sm.score hnone).symm
  · rw [SortedMap.write_append, hsame]
    exact (hdata.put_meta (ne_zero_of_pos hversion) _).insert (ne_zero_of_pos hversion) hnone

theorem zIncrby_gives (h : RepKey scores now db key t) {time : Int} (htime : now ≤ time)
    {member : Slice} (increment : S) (hcond : MayIncr scores db key time later member (db.get (metaKey scores key))) :
    ∃ db' status score, ZIncrby scores db key time later member increment = some (db', status, score) ∧
      Gives scores later key db db' (mapCall scores t time later (.ZIncrby member increment)).1 ∧
      .score score = (mapCall scores t time later (.ZIncrby member increment)).2 := by
  unfold ZIncrby
  cases (h.mono htime).cases with
  | missing hget hlive hdead hfresh => simp [hget, MayIncr] at hcond
  | dead f hget hlive hdead hstale hversion hfresh =>
    have hinit : (f.parsed.IsStale time || f.count == 0) = true := by simpa using hstale
    obtain ⟨hmax, htime'⟩ : MayRenew f.parsed later := by
      simpa only [hget, MayIncr, parsedMeta_encode, MetaFields.parsed_count, hinit, if_true] using hcond
    have hnext : f.version.toInt < (nextVersion f.version later).toInt := lt_nextVersion hmax htime'
    simp only [hget, hlive, ScoredMap.empty, parsedMeta_encode, MetaFields.parsed_count, hinit, if_true,
      MetaFields.initialMetaValue_parsed, MetaFields.parsed_version, (hfresh _ hnext).member, SortedMap.get_empty,
      Option.map_none, MetaFields.modifyCount_parsed, MetaFields.parsed_value, mapCall]
    refine ⟨_, _, _, rfl, ?_, rfl⟩
    exact insert_gives (f := ⟨0, nextVersion f.version later, 0⟩) ⟨increment, member⟩ (hversion.trans hnext)
      (hfresh _ hnext) (hfresh.mono hnext.le) rfl rfl (Or.inl ⟨rfl, rfl⟩) rfl
  | live f hget hlive hstale hexpiry hversion hzero hcount hdata hfresh =>
    have hinit : (f.parsed.IsStale time || f.count == 0) = false := by simpa using ⟨hstale, hzero⟩
    have hmay : t.members.get member = none → f.count.toInt + 1 < 2 ^ 31 := by
      simpa only [hget, MayIncr, parsedMeta_encode, MetaFields.parsed_count, hinit, Bool.false_eq_true, if_false,
        MetaFields.parsed_version, hdata.member, Option.map_eq_none_iff] using hcond
    simp only [hget, hlive, parsedMeta_encode, MetaFields.parsed_count, hinit, Bool.false_eq_true, if_false,
      MetaFields.parsed_version, hdata.member, mapCall]
    cases hmember : t.members.get member with
    | none =>
      have hsum : (f.count + 1).toInt = t.members.entries.length + 1 := by
        rw [← hcount]
        exact toInt_add (n := 1) (by omega) (hmay hmember)
      simp only [Option.map_none, MetaFields.modifyCount_parsed, MetaFields.parsed_value]
      refine ⟨_, _, _, rfl, ?_, rfl⟩
      exact insert_gives (g := { f with count := f.count + 1 }) ⟨increment, member⟩ hversion hdata hfresh hmember
        rfl hexpiry hsum
    | some oldscore =>
      simp only [Option.map_some, ZSetsValue.double]
      refine ⟨_, _, _, rfl, ?_, rfl⟩
      have hlocal : Local scores key f.version (.Delete ⟨key, f.version, oldscore, member⟩ ::
          putMember scores key f.version ⟨scores.add oldscore increment, member⟩) :=
        local_delete_cons (local_putMember _) oldscore member
      refine hlocal.gives (.live f ?_ hexpiry hversion hzero ?_ ?_ (hfresh.write hversion hlocal))
      · rw [SortedMap.write_cons, get_putMember, if_neg (scoreKey_ne_metaKey (ne_zero_of_pos hversion) _ _).symm,
          if_neg (memberKey_ne_metaKey (ne_zero_of_pos hversion) _).symm, SortedMap.apply, SortedMap.get_delete,
          if_neg (scoreKey_ne_metaKey (ne_zero_of_pos hversion) _ _).symm, hget]
      · rw [hcount]
        exact_mod_cast (SortedMap.length_put_of_some _ hmember).symm
      · exact hdata.replace (ne_zero_of_pos hversion) ⟨scores.add oldscore increment, member⟩ hmember

/-! ### Del and Expire -/

/-- The counter of the version of a sorted set with members can go on. -/
def MayDel (scores : Scores S) (time later : Int) : Option (ZSetsValue S) → Prop
  | some metavalue =>
    let p := parsedMeta scores metavalue
    (p.IsStale time || p.count == 0) = false → MayRenew p later
  | none => True

/-- The expiry time is one of the type, and is not taken for none. -/
def MayExpire (scores : Scores S) (time later : Int) (ttl : Int32) : Option (ZSetsValue S) → Prop
  | some metavalue =>
    let p := parsedMeta scores metavalue
    (p.IsStale time || p.count == 0) = false →
      if 0 < ttl then 0 < later + ttl.toInt ∧ later + ttl.toInt < 2 ^ 31 else MayRenew p later
  | none => True

omit [LinearOrder S] in
theorem dead_empty : Dead (ScoredMap.empty : ScoredMap S) now := Or.inr rfl

/-- The members of a sorted set are dropped. -/
private theorem initial_gives {f : MetaFields} (hversion : 0 < f.version.toInt)
    (hfresh : Fresh scores key db f.version)
    (hmay : MayRenew f.parsed later) :
    Gives scores later key db
      (db.put (metaKey scores key) (.bytes (⟨0, nextVersion f.version later, 0⟩ : MetaFields).encode)) .empty := by
  have hnext : f.version.toInt < (nextVersion f.version later).toInt := lt_nextVersion hmay.1 hmay.2
  have hlocal : Local scores key (nextVersion f.version later)
      [.Put (metaKey scores key) (.bytes (⟨0, nextVersion f.version later, 0⟩ : MetaFields).encode)] := local_meta _
  refine hlocal.gives (.dead ⟨0, nextVersion f.version later, 0⟩ (SortedMap.get_put_self ..) dead_empty (Or.inr rfl)
    (hversion.trans hnext) ?_)
  exact (hfresh.mono hnext.le).write (hversion.trans hnext) hlocal

/-- A scored map that is dead stays so. -/
private theorem dead_gives {f : MetaFields} {time : Int} (hget : db.get (metaKey scores key) = some (.bytes f.encode))
    (hstale : f.parsed.IsStale time = true ∨ f.count = 0) (hversion : 0 < f.version.toInt)
    (hfresh : Fresh scores key db f.version) (hlater : time ≤ later) : Gives scores later key db db .empty :=
  (RepKey.dead f hget dead_empty (hstale.imp_left fun hst => isStale_later hst hlater) hversion hfresh).gives

theorem del_gives (h : RepKey scores now db key t) {time : Int} (htime : now ≤ time) (hlater : time ≤ later)
    (hcond : MayDel scores time later (db.get (metaKey scores key))) :
    Gives scores later key db (Del scores db key time later).1 .empty := by
  unfold Del
  cases (h.mono htime).cases with
  | missing hget hlive hdead hfresh =>
    simp only [hget]
    exact (RepKey.missing hget dead_empty hfresh).gives
  | dead f hget hlive hdead hstale hversion hfresh =>
    have hgives := dead_gives hget hstale hversion hfresh hlater
    simp only [hget, parsedMeta_encode, MetaFields.parsed_count]
    rcases hstale with hst | hzero
    · simp only [hst, if_true]
      exact hgives
    · simp only [hzero, beq_self_eq_true, if_true]
      split <;> exact hgives
  | live f hget hlive hstale hexpiry hversion hzero hcount hdata hfresh =>
    have hzero' : (f.count == 0) = false := by simpa using hzero
    have hmay : MayRenew f.parsed later := by
      simpa only [hget, MayDel, parsedMeta_encode, MetaFields.parsed_count, hstale, hzero', Bool.or_self,
        true_implies] using hcond
    simp only [hget, parsedMeta_encode, MetaFields.parsed_count, hstale, hzero', Bool.false_eq_true, if_false,
      MetaFields.initialMetaValue_parsed, MetaFields.parsed_value]
    exact initial_gives hversion hfresh hmay

private theorem setRelativeTimestamp_parsed (f : MetaFields) (ttl : Int32) (time : Int) :
    f.parsed.SetRelativeTimestamp ttl time =
      { f with timestamp := Int32.ofInt (time + ttl.toInt) : MetaFields }.parsed := MetaFields.setTimestamp_parsed ..

private theorem mapCall_expire_of_dead {time : Int} (hlive : t.live time = .empty) (ttl : Int32) :
    (mapCall scores t time later (.Expire ttl)).1 = .empty := by
  simp only [mapCall, hlive]
  split <;> rfl

theorem expire_gives (h : RepKey scores now db key t) {time : Int}
    (htime : now ≤ time) (hlater : time ≤ later)
    {ttl : Int32} (hcond : MayExpire scores time later ttl (db.get (metaKey scores key))) :
    Gives scores later key db (Expire scores db key time later ttl).1
      (mapCall scores t time later (.Expire ttl)).1 := by
  unfold Expire
  cases (h.mono htime).cases with
  | missing hget hlive hdead hfresh =>
    rw [mapCall_expire_of_dead hlive]
    simp only [hget]
    exact (RepKey.missing hget dead_empty hfresh).gives
  | dead f hget hlive hdead hstale hversion hfresh =>
    have hgives := dead_gives hget hstale hversion hfresh hlater
    rw [mapCall_expire_of_dead hlive]
    simp only [hget, parsedMeta_encode, MetaFields.parsed_count]
    rcases hstale with hst | hzero
    · simp only [hst, if_true]
      exact hgives
    · simp only [hzero, beq_self_eq_true, if_true]
      split <;> exact hgives
  | live f hget hlive hstale hexpiry hversion hzero hcount hdata hfresh =>
    have hzero' : (f.count == 0) = false := by simpa using hzero
    have hmay : if 0 < ttl then 0 < later + ttl.toInt ∧ later + ttl.toInt < 2 ^ 31 else MayRenew f.parsed later := by
      simpa only [hget, MayExpire, parsedMeta_encode, MetaFields.parsed_count, hstale, hzero', Bool.or_self,
        true_implies] using hcond
    have hmembers : t.members.entries.isEmpty = false := by
      cases hentries : t.members.entries with
      | nil =>
        rw [hentries] at hcount
        exact absurd (Int32.toInt.inj hcount) hzero
      | cons e l => rfl
    simp only [hget, parsedMeta_encode, MetaFields.parsed_count, hstale, hzero',
      Bool.false_eq_true, if_false, mapCall,
      hlive, hmembers]
    by_cases httl : 0 < ttl
    · rw [if_pos httl] at hmay
      have htimestamp : (Int32.ofInt (later + ttl.toInt)).toInt = later + ttl.toInt :=
        Int32.toInt_ofInt_of_le (by omega) (by omega)
      have hlocal : Local scores key f.version [.Put (metaKey scores key)
          (.bytes ({ f with timestamp := Int32.ofInt (later + ttl.toInt) } : MetaFields).encode)] := local_meta _
      simp only [if_pos httl, setRelativeTimestamp_parsed, MetaFields.parsed_value]
      refine hlocal.gives (.live { f with timestamp := Int32.ofInt (later + ttl.toInt) } (SortedMap.get_put_self ..)
        (Or.inr ⟨?_, ?_⟩) hversion hzero hcount (hdata.put_meta (ne_zero_of_pos hversion) _)
        (hfresh.write hversion hlocal))
      · intro hnull
        have htoInt := congrArg Int32.toInt hnull
        rw [htimestamp] at htoInt
        exact absurd htoInt hmay.1.ne'
      · rw [htimestamp]
    · rw [if_neg httl] at hmay
      simp only [if_neg httl, MetaFields.initialMetaValue_parsed, MetaFields.parsed_value]
      exact initial_gives hversion hfresh hmay

end RedisZset

end RedisDb
