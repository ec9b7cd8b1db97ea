import SwissArmyKnife.RedisDb.RedisZset

/-!
# The entries of a sorted set

A scored map is stored under one version, twice for each member (`DataOf`), and nothing is stored under later versions
(`Fresh`), so that a key that is deleted or expired starts afresh.  `RepKey` says when the entries of a key stand for
a scored map, and a batch that writes to the entries of one version leaves the other keys as they are (`Local.gives`).
-/

namespace RedisDb

open FirstOf (firstOf nodup_firstOf)

variable {S : Type*} [LinearOrder S]

namespace RedisZset

variable {scores : Scores S} {db : ZsetDb S} {key : Slice} {version : Int32} {m : SortedMap Slice S} {t : ScoredMap S}

/-! ### Keys -/

theorem ne_zero_of_pos (h : 0 < version.toInt) : version ≠ 0 := by
  rintro rfl
  simp at h

theorem memberKey_inj {version' : Int32} {member member' : Slice} :
    memberKey scores key version member = memberKey scores key version' member' ↔
      version = version' ∧ member = member' := by
  simp [memberKey, scores.ofInt32_injective.eq_iff]

theorem memberKey_ne_metaKey (hversion : version ≠ 0) (member : Slice) :
    memberKey scores key version member ≠ metaKey scores key := by
  intro h
  exact hversion (scores.ofInt32_injective (congrArg ZSetsScoreKey.score h))

theorem scoreKey_ne_metaKey (hversion : version ≠ 0) (score : S) (member : Slice) :
    (⟨key, version, score, member⟩ : ZSetsScoreKey S) ≠ metaKey scores key := by
  intro h
  exact hversion (congrArg ZSetsScoreKey.version h)

theorem memberKey_ne_scoreKey (hversion : version ≠ 0) (version' : Int32) (score : S) (member member' : Slice) :
    memberKey scores key version' member ≠ ⟨key, version, score, member'⟩ := by
  intro h
  exact hversion (congrArg ZSetsScoreKey.version h).symm

/-- The keys of the meta value and of the entries of one version. -/
def Touches (scores : Scores S) (key : Slice) (version : Int32) (k : ZSetsScoreKey S) : Prop :=
  k = metaKey scores key ∨ (∃ member, k = memberKey scores key version member) ∨
    ∃ score member, k = ⟨key, version, score, member⟩

private theorem key_of_touches {k : ZSetsScoreKey S} (h : Touches scores key version k) : k.key = key := by
  rcases h with rfl | ⟨member, rfl⟩ | ⟨score, member, rfl⟩ <;> rfl

/-! ### Entries of a version -/

/-- Each member is stored under its member key, with its score, and under its score key. -/
structure DataOf (scores : Scores S) (key : Slice) (db : ZsetDb S) (version : Int32)
    (m : SortedMap Slice S) : Prop where
  member : ∀ member, db.get (memberKey scores key version member) = (m.get member).map .score
  score : ∀ score member,
    db.get ⟨key, version, score, member⟩ = if m.get member = some score then some (.bytes []) else none

/-- Nothing is stored under versions after this one. -/
def Fresh (scores : Scores S) (key : Slice) (db : ZsetDb S) (version : Int32) : Prop :=
  ∀ version', version.toInt < version'.toInt → DataOf scores key db version' .empty

theorem Fresh.mono {version' : Int32} (h : Fresh scores key db version)
    (hle : version.toInt ≤ version'.toInt) :
    Fresh scores key db version' := fun version'' hlt => h version'' (hle.trans_lt hlt)

private theorem DataOf.congr {db' : ZsetDb S} (h : DataOf scores key db version m)
    (hmember : ∀ member, db'.get (memberKey scores key version member) = db.get (memberKey scores key version member))
    (hscore : ∀ score member, db'.get ⟨key, version, score, member⟩ = db.get ⟨key, version, score, member⟩) :
    DataOf scores key db' version m :=
  ⟨fun member => (hmember member).trans (h.member member),
    fun score member => (hscore score member).trans (h.score score member)⟩

theorem DataOf.put_meta (h : DataOf scores key db version m) (hversion : version ≠ 0) (v : ZSetsValue S) :
    DataOf scores key (db.put (metaKey scores key) v) version m := by
  refine h.congr ?_ ?_
  · intro member
    rw [SortedMap.get_put, if_neg (memberKey_ne_metaKey hversion member)]
  · intro score member
    rw [SortedMap.get_put, if_neg (scoreKey_ne_metaKey hversion _ _)]

theorem get_putMember (db : ZsetDb S) (sm : ScoreMember S) (k : ZSetsScoreKey S) :
    (db.write (putMember scores key version sm)).get k =
      if k = ⟨key, version, sm.score, sm.member⟩ then some (.bytes [])
      else if k = memberKey scores key version sm.member then some (.score sm.score) else db.get k := by
  simp only [putMember, SortedMap.write_cons, SortedMap.write_nil, SortedMap.apply, SortedMap.get_put]

/-- The entries of a member are put when there is no entry under a score key of it. -/
private theorem dataOf_putMember {db' : ZsetDb S} (h : DataOf scores key db version m) (hversion : version ≠ 0)
    (sm : ScoreMember S)
    (hmember : ∀ member, db'.get (memberKey scores key version member) = db.get (memberKey scores key version member))
    (hscore : ∀ score member, db'.get ⟨key, version, score, member⟩ =
      if member = sm.member then none else db.get ⟨key, version, score, member⟩) :
    DataOf scores key (db'.write (putMember scores key version sm)) version (m.put sm.member sm.score) := by
  constructor
  · intro member
    rw [get_putMember, if_neg (memberKey_ne_scoreKey hversion _ _ _ _), hmember, h.member, SortedMap.get_put]
    by_cases heq : member = sm.member
    · rw [if_pos heq, if_pos (memberKey_inj.2 ⟨rfl, heq⟩)]
      rfl
    · rw [if_neg heq, if_neg fun hkey => heq (memberKey_inj.1 hkey).2]
  · intro score member
    rw [get_putMember, if_neg (memberKey_ne_scoreKey hversion _ _ _ _).symm, hscore, h.score, SortedMap.get_put]
    by_cases heq : member = sm.member
    · by_cases hs : score = sm.score
      · rw [if_pos (by rw [heq, hs]), if_pos heq, if_pos (by rw [hs])]
      · rw [if_neg fun hkey => hs (congrArg ZSetsScoreKey.score hkey), if_pos heq, if_pos heq,
          if_neg fun hsome => hs (Option.some_inj.1 hsome).symm]
    · rw [if_neg fun hkey => heq (congrArg ZSetsScoreKey.member hkey), if_neg heq, if_neg heq]

theorem DataOf.insert (h : DataOf scores key db version m) (hversion : version ≠ 0) {sm : ScoreMember S}
    (hnone : m.get sm.member = none) :
    DataOf scores key (db.write (putMember scores key version sm)) version (m.put sm.member sm.score) := by
  refine dataOf_putMember h hversion sm (fun _ => rfl) ?_
  intro score member
  split
  · rename_i heq
    rw [h.score, heq, hnone, if_neg (by simp)]
  · rfl

theorem DataOf.replace (h : DataOf scores key db version m) (hversion : version ≠ 0) (sm : ScoreMember S)
    {oldscore : S} (hsome : m.get sm.member = some oldscore) :
    DataOf scores key
      (db.write (.Delete ⟨key, version, oldscore, sm.member⟩ :: putMember scores key version sm)) version
      (m.put sm.member sm.score) := by
  rw [SortedMap.write_cons, SortedMap.apply]
  refine dataOf_putMember h hversion sm ?_ ?_
  · intro member
    rw [SortedMap.get_delete, if_neg (memberKey_ne_scoreKey hversion _ _ _ _)]
  · intro score member
    rw [SortedMap.get_delete]
    by_cases heq : member = sm.member
    · rw [if_pos heq]
      split
      · rfl
      · rename_i hne
        rw [h.score, heq, hsome, if_neg]
        intro hs
        exact hne (by rw [heq, Option.some_inj.1 hs])
    · rw [if_neg heq, if_neg fun hkey => heq (congrArg ZSetsScoreKey.member hkey)]

theorem DataOf.addMember (h : DataOf scores key db version m) (hversion : version ≠ 0)
    {old : Slice → Option S} {sm : ScoreMember S} (hold : old sm.member = m.get sm.member) :
    DataOf scores key (db.write (addMember scores key version old sm)) version (m.put sm.member sm.score) := by
  unfold RedisZset.addMember
  rw [hold]
  cases hget : m.get sm.member with
  | none => exact h.insert hversion hget
  | some oldscore =>
    simp only
    split
    · rename_i heq
      have hput : m.put sm.member sm.score = m := by
        apply SortedMap.ext_get
        intro k
        rw [SortedMap.get_put]
        split
        · rename_i hk
          rw [hk, hget, heq]
        · rfl
      rw [hput]
      exact h
    · exact h.replace hversion sm hget

/-- The loop of `ZAdd`; each member occurs once. -/
theorem DataOf.addMembers (h : DataOf scores key db version m) (hversion : version ≠ 0)
    {old : Slice → Option S} {l : List (ScoreMember S)} (hnodup : (l.map ScoreMember.member).Nodup)
    (hold : ∀ sm ∈ l, old sm.member = m.get sm.member) :
    DataOf scores key (db.write (l.flatMap (RedisZset.addMember scores key version old))) version
      (m.write (l.map fun sm => .Put sm.member sm.score)) := by
  induction l generalizing db m with
  | nil => exact h
  | cons sm l ih =>
    rw [List.map_cons, List.nodup_cons] at hnodup
    rw [List.flatMap_cons, SortedMap.write_append]
    refine ih (h.addMember hversion (hold sm (List.mem_cons_self ..))) hnodup.2 ?_
    intro sm' hmem
    have hne : sm'.member ≠ sm.member := by
      intro heq
      exact hnodup.1 (heq ▸ List.mem_map_of_mem hmem)
    rw [hold sm' (List.mem_cons_of_mem _ hmem), SortedMap.apply, SortedMap.get_put, if_neg hne]

/-! ### Writes to one version -/

/-- The batch writes to the entries of one version and the meta value. -/
def Local (scores : Scores S) (key : Slice) (version : Int32)
    (batch : List (SortedMap.Op (ZSetsScoreKey S) (ZSetsValue S))) :
    Prop := ∀ op ∈ batch, Touches scores key version op.key

variable {batch : List (SortedMap.Op (ZSetsScoreKey S) (ZSetsValue S))}

theorem local_putMember (sm : ScoreMember S) :
    Local scores key version (putMember scores key version sm) := by
  intro op hop
  simp only [putMember, List.mem_cons, List.not_mem_nil, or_false] at hop
  rcases hop with rfl | rfl
  · exact Or.inr (Or.inl ⟨_, rfl⟩)
  · exact Or.inr (Or.inr ⟨_, _, rfl⟩)

theorem local_delete_cons (h : Local scores key version batch) (score : S) (member : Slice) :
    Local scores key version (.Delete ⟨key, version, score, member⟩ :: batch) := by
  intro op hop
  rcases List.mem_cons.1 hop with rfl | hop
  · exact Or.inr (Or.inr ⟨_, _, rfl⟩)
  · exact h op hop

theorem local_meta (v : ZSetsValue S) : Local scores key version [.Put (metaKey scores key) v] := by
  intro op hop
  rw [List.mem_singleton] at hop
  exact hop ▸ Or.inl rfl

theorem Local.append {batch' : List (SortedMap.Op (ZSetsScoreKey S) (ZSetsValue S))}
    (h : Local scores key version batch) (h' : Local scores key version batch') :
    Local scores key version (batch ++ batch') := by
  intro op hop
  rcases List.mem_append.1 hop with hop | hop
  · exact h op hop
  · exact h' op hop

theorem local_addMembers (old : Slice → Option S) (l : List (ScoreMember S)) :
    Local scores key version (l.flatMap (addMember scores key version old)) := by
  intro op hop
  obtain ⟨sm, -, hop⟩ := List.mem_flatMap.1 hop
  unfold addMember at hop
  split at hop
  · split at hop
    · simp at hop
    · exact local_delete_cons (local_putMember sm) _ _ op hop
  · exact local_putMember sm op hop

theorem Local.get (h : Local scores key version batch) {k : ZSetsScoreKey S}
    (hk : ¬ Touches scores key version k) :
    (db.write batch).get k = db.get k :=
  SortedMap.get_write_of_forall_ne fun op hop heq => hk (heq ▸ h op hop)

theorem Fresh.write (hfresh : Fresh scores key db version) (hversion : 0 < version.toInt)
    (h : Local scores key version batch) : Fresh scores key (db.write batch) version := by
  intro version' hlt
  have hne : version' ≠ version := by
    rintro rfl
    exact lt_irrefl _ hlt
  have hne' := ne_zero_of_pos (hversion.trans hlt)
  refine (hfresh version' hlt).congr ?_ ?_
  · intro member
    apply h.get
    rintro (hk | ⟨member', hk⟩ | ⟨score, member', hk⟩)
    · exact memberKey_ne_metaKey hne' _ hk
    · exact hne (memberKey_inj.1 hk).1
    · exact memberKey_ne_scoreKey (ne_zero_of_pos hversion) _ _ _ _ hk
  · intro score member
    apply h.get
    rintro (hk | ⟨member', hk⟩ | ⟨score', member', hk⟩)
    · exact scoreKey_ne_metaKey hne' _ _ hk
    · exact memberKey_ne_scoreKey hne' _ _ _ _ hk.symm
    · exact hne (congrArg ZSetsScoreKey.version hk)

/-! ### Representation -/

/-- No members: they are expired, or there are none. -/
def Dead (t : ScoredMap S) (now : Int) : Prop := t.expired now = true ∨ t.members.entries = []

/-- The expiry time in the meta value is that of the scored map. -/
def Expiry (f : MetaFields) (t : ScoredMap S) : Prop :=
  (f.timestamp = 0 ∧ t.expiry = none) ∨ (f.timestamp ≠ 0 ∧ t.expiry = some f.timestamp.toInt)

inductive RepKey (scores : Scores S) (now : Int) (db : ZsetDb S) (key : Slice) (t : ScoredMap S) : Prop where
  | missing (hget : db.get (metaKey scores key) = none) (hdead : Dead t now) (hfresh : Fresh scores key db 0)
  | dead (f : MetaFields) (hget : db.get (metaKey scores key) = some (.bytes f.encode)) (hdead : Dead t now)
      (hstale : f.parsed.IsStale now = true ∨ f.count = 0) (hversion : 0 < f.version.toInt)
      (hfresh : Fresh scores key db f.version)
  | live (f : MetaFields) (hget : db.get (metaKey scores key) = some (.bytes f.encode)) (hexpiry : Expiry f t)
      (hversion : 0 < f.version.toInt) (hzero : f.count ≠ 0) (hcount : f.count.toInt = t.members.entries.length)
      (hdata : DataOf scores key db f.version t.members) (hfresh : Fresh scores key db f.version)

variable {now later : Int}

omit [LinearOrder S] in
private theorem live_of_dead (h : Dead t now) : t.live now = .empty := by
  unfold ScoredMap.live
  rw [if_pos]
  rcases h with h | h <;> simp [h]

omit [LinearOrder S] in
private theorem live_of_not_dead (h : ¬ Dead t now) : t.live now = t := by
  unfold ScoredMap.live
  rw [if_neg]
  rw [Dead, not_or] at h
  simpa using h

omit [LinearOrder S] in
theorem Dead.mono (h : Dead t now) (hle : now ≤ later) : Dead t later := by
  rcases h with h | h
  · left
    unfold ScoredMap.expired at *
    split at h
    · simp only [decide_eq_true_eq] at *
      omega
    · exact h
  · exact Or.inr h

theorem isStale_later {f : MetaFields} (h : f.parsed.IsStale now = true) (hle : now ≤ later) :
    f.parsed.IsStale later = true := by
  unfold ParsedBaseMetaValue.IsStale at *
  split at h
  · simp at h
  · rename_i hne
    rw [if_neg hne]
    simp only [decide_eq_true_eq] at *
    omega

theorem RepKey.mono (h : RepKey scores now db key t) (hle : now ≤ later) : RepKey scores later db key t := by
  cases h with
  | missing hget hdead hfresh => exact .missing hget (hdead.mono hle) hfresh
  | dead f hget hdead hstale hversion hfresh =>
    exact .dead f hget (hdead.mono hle) (hstale.imp_left fun h => isStale_later h hle) hversion hfresh
  | live f hget hexpiry hversion hzero hcount hdata hfresh =>
    exact .live f hget hexpiry hversion hzero hcount hdata hfresh

private theorem Fresh.congr {db' : ZsetDb S} (h : Fresh scores key db version)
    (heq : ∀ k, k.key = key → db'.get k = db.get k) : Fresh scores key db' version :=
  fun version' hlt => (h version' hlt).congr (fun _ => heq _ rfl) fun _ _ => heq _ rfl

private theorem RepKey.congr {db' : ZsetDb S} (h : RepKey scores now db key t)
    (heq : ∀ k, k.key = key → db'.get k = db.get k) : RepKey scores now db' key t := by
  cases h with
  | missing hget hdead hfresh => exact .missing ((heq _ rfl).trans hget) hdead (hfresh.congr heq)
  | dead f hget hdead hstale hversion hfresh =>
    exact .dead f ((heq _ rfl).trans hget) hdead hstale hversion (hfresh.congr heq)
  | live f hget hexpiry hversion hzero hcount hdata hfresh =>
    exact .live f ((heq _ rfl).trans hget) hexpiry hversion hzero hcount
      (hdata.congr (fun _ => heq _ rfl) fun _ _ => heq _ rfl) (hfresh.congr heq)

omit [LinearOrder S] in
private theorem isStale_eq {f : MetaFields} (h : Expiry f t) (now : Int) : f.parsed.IsStale now = t.expired now := by
  unfold ParsedBaseMetaValue.IsStale ScoredMap.expired
  rcases h with ⟨h, hnone⟩ | ⟨h, hsome⟩
  · rw [hnone, MetaFields.parsed_timestamp, if_pos h]
  · rw [hsome, MetaFields.parsed_timestamp, if_neg h]

theorem parsedMeta_encode (f : MetaFields) : parsedMeta scores (.bytes f.encode : ZSetsValue S) = f.parsed :=
  f.new_encode

/-- At some time there is no meta value, or the members in it are expired or none, or there are members. -/
private inductive Cases (scores : Scores S) (now : Int) (db : ZsetDb S) (key : Slice) (t : ScoredMap S) : Prop where
  | missing (hget : db.get (metaKey scores key) = none) (hlive : t.live now = .empty) (hdead : Dead t now)
      (hfresh : Fresh scores key db 0)
  | dead (f : MetaFields) (hget : db.get (metaKey scores key) = some (.bytes f.encode)) (hlive : t.live now = .empty)
      (hdead : Dead t now) (hstale : f.parsed.IsStale now = true ∨ f.count = 0) (hversion : 0 < f.version.toInt)
      (hfresh : Fresh scores key db f.version)
  | live (f : MetaFields) (hget : db.get (metaKey scores key) = some (.bytes f.encode)) (hlive : t.live now = t)
      (hstale : f.parsed.IsStale now = false) (hexpiry : Expiry f t)
      (hversion : 0 < f.version.toInt) (hzero : f.count ≠ 0) (hcount : f.count.toInt = t.members.entries.length)
      (hdata : DataOf scores key db f.version t.members) (hfresh : Fresh scores key db f.version)

theorem RepKey.cases (h : RepKey scores now db key t) : Cases scores now db key t := by
  cases h with
  | missing hget hdead hfresh => exact .missing hget (live_of_dead hdead) hdead hfresh
  | dead f hget hdead hstale hversion hfresh => exact .dead f hget (live_of_dead hdead) hdead hstale hversion hfresh
  | live f hget hexpiry hversion hzero hcount hdata hfresh =>
    cases hstale : f.parsed.IsStale now with
    | true =>
      have hdead : Dead t now := Or.inl ((isStale_eq hexpiry now).symm.trans hstale)
      exact .dead f hget (live_of_dead hdead) hdead (Or.inl hstale) hversion hfresh
    | false =>
      refine .live f hget (live_of_not_dead ?_) hstale hexpiry hversion hzero hcount hdata hfresh
      rintro (hexpired | hnil)
      · rw [← isStale_eq hexpiry, hstale] at hexpired
        exact absurd hexpired (by simp)
      · rw [hnil] at hcount
        exact hzero (Int32.toInt.inj hcount)

/-- After a call on a key its entries stand for a scored map, and those of the other keys are as before. -/
structure Gives (scores : Scores S) (now : Int) (key : Slice) (db db' : ZsetDb S)
    (t : ScoredMap S) : Prop where
  rep : RepKey scores now db' key t
  other : ∀ key' t', key' ≠ key → RepKey scores now db key' t' → RepKey scores now db' key' t'

theorem RepKey.gives (h : RepKey scores now db key t) : Gives scores now key db db t :=
  ⟨h, fun _ _ _ hrep => hrep⟩

theorem Local.gives (h : Local scores key version batch) (hrep : RepKey scores now (db.write batch) key t) :
    Gives scores now key db (db.write batch) t := by
  refine ⟨hrep, ?_⟩
  intro key' t' hne hrep'
  refine hrep'.congr fun k hk => h.get fun htouches => hne ?_
  rw [← hk, key_of_touches htouches]

end RedisZset

end RedisDb
