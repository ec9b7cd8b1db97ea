import SwissArmyKnife.RedisDb.RedisZsetMaps

/-!
# Calls that read a sorted set

From the lowest score on the members of a version come first, in order (`seek_eq`), unless one has a score below it.
So the loops of `ZRange` and `ZRank` count through the ranking of the scored map (`zRange_eq`, `zRank_eq`).
-/

namespace RedisDb

open Slices (slice position slice_eq_nil slice_eq_take_drop)

variable {S : Type*} [LinearOrder S]

namespace RedisZset

variable {scores : Scores S} {db : ZsetDb S} {key : Slice} {version : Int32} {t : ScoredMap S} {now later : Int}

/-! ### Reads -/

/-- No member of the sorted set has a score below the one from which the members are read. -/
def MayRead (scores : Scores S) (db : ZsetDb S) (key : Slice) (time : Int) : Option (ZSetsValue S) → Prop
  | some metavalue =>
    let p := parsedMeta scores metavalue
    (p.IsStale time || p.count == 0) = false →
      ∀ e ∈ db.entries, e.1.key = key → e.1.version = p.version → scores.lowest ≤ e.1.score
  | none => True

theorem zCard_eq (h : RepKey scores now db key t) {time : Int} (htime : now ≤ time) :
    (ZCard scores db key time).2.toInt = (t.live time).members.entries.length := by
  unfold ZCard
  cases (h.mono htime).cases with
  | missing hget hlive hdead hfresh => simp [hget, hlive, ScoredMap.empty, SortedMap.empty]
  | dead f hget hlive hdead hstale hversion hfresh =>
    rcases hstale with hst | hzero
    · simp [hget, hlive, ScoredMap.empty, SortedMap.empty, parsedMeta_encode, hst]
    · simp only [hget, hlive, ScoredMap.empty, SortedMap.empty, parsedMeta_encode, MetaFields.parsed_count, hzero,
        beq_self_eq_true, if_true]
      split <;> rfl
  | live f hget hlive hstale hexpiry hversion hzero hcount hdata hfresh =>
    simp [hget, hlive, parsedMeta_encode, hstale, hzero, hcount]

/-- The members in order, as a sorted map. -/
private def sortedMembers (t : ScoredMap S) : SortedMap (S ×ₗ Slice) Unit :=
  SortedMap.empty.write (t.members.entries.map fun e => .Put (toLex (e.2, e.1)) ())

omit [LinearOrder S] in
private theorem nodup_scores (m : SortedMap Slice S) :
    (m.entries.map fun e => (toLex (e.2, e.1) : S ×ₗ Slice)).Nodup := by
  rw [List.nodup_iff_pairwise_ne, List.pairwise_map]
  exact m.sorted.imp fun hlt heq => hlt.ne (Prod.mk.inj (toLex.injective heq)).2

private theorem mem_sortedMembers {e : (S ×ₗ Slice) × Unit} :
    e ∈ (sortedMembers t).entries ↔ t.members.get (ofLex e.1).2 = some (ofLex e.1).1 := by
  obtain ⟨k, u⟩ := e
  constructor
  · intro h
    have hget : (sortedMembers t).get k = some u := SortedMap.get_eq_some_iff.2 h
    by_contra hnot
    rw [sortedMembers, SortedMap.get_puts_of_forall_ne] at hget
    · simp at hget
    · intro e he heq
      rw [← heq] at hnot
      exact hnot (SortedMap.get_eq_some_iff.2 he)
  · intro h
    have hput : (sortedMembers t).get (toLex ((ofLex k).1, (ofLex k).2)) = some () :=
      SortedMap.get_puts_of_mem (g := fun _ : Slice × S => ()) (nodup_scores t.members)
        (SortedMap.get_eq_some_iff.1 h)
    exact SortedMap.get_eq_some_iff.1 hput

private theorem length_sortedMembers (t : ScoredMap S) :
    (sortedMembers t).entries.length = t.members.entries.length := by
  have h := SortedMap.length_puts (m := SortedMap.empty) (g := fun _ : Slice × S => ()) (nodup_scores t.members)
  have hall : (t.members.entries.filter fun x =>
      ((SortedMap.empty : SortedMap (S ×ₗ Slice) Unit).get (toLex (x.2, x.1))).isNone) = t.members.entries := by simp
  rw [hall] at h
  exact h.trans (Nat.zero_add _)

private theorem le_iff_of_same {score score' : S} {member member' : Slice} :
    (⟨key, version, score, member⟩ : ZSetsScoreKey S) ≤ ⟨key, version, score', member'⟩ ↔
      score < score' ∨ score = score' ∧ member ≤ member' := by
  rw [← not_lt, ZSetsScoreKey.lt_iff]
  simp only [ZSetsScoreKey.prefixBytes, lt_irrefl, false_or, true_and, not_or, not_and, not_lt]
  constructor
  · rintro ⟨hle, hmember⟩
    rcases lt_or_eq_of_le hle with hlt | heq
    · exact Or.inl hlt
    · exact Or.inr ⟨heq, hmember heq.symm⟩
  · rintro (hlt | ⟨rfl, hle⟩)
    · exact ⟨hlt.le, fun heq => absurd heq hlt.ne'⟩
    · exact ⟨le_rfl, fun _ => hle⟩

private theorem nil_le (x : Slice) : ([] : Slice) ≤ x := le_append [] x

/-- The score keys of a version from the lowest score on. -/
private def inVersion (scores : Scores S) (key : Slice) (version : Int32) (k : ZSetsScoreKey S) : Bool :=
  decide (k.key = key ∧ k.version = version ∧ scores.lowest ≤ k.score)

private theorem le_of_inVersion {k : ZSetsScoreKey S} (h : inVersion scores key version k = true) :
    ⟨key, version, scores.lowest, []⟩ ≤ k := by
  obtain ⟨key', version', score, member⟩ := k
  simp only [inVersion, decide_eq_true_eq] at h
  obtain ⟨rfl, rfl, hle⟩ := h
  rw [le_iff_of_same]
  rcases lt_or_eq_of_le hle with hlt | heq
  · exact Or.inl hlt
  · exact Or.inr ⟨heq, nil_le member⟩

/-- There is no other key between the score keys of a version. -/
private theorem inVersion_of_le {a b : ZSetsScoreKey S} (ha : ⟨key, version, scores.lowest, []⟩ ≤ a) (hab : a ≤ b)
    (hb : inVersion scores key version b = true) : inVersion scores key version a = true := by
  simp only [inVersion, decide_eq_true_eq] at hb
  have hpb : b.prefixBytes = (⟨key, version, scores.lowest, []⟩ : ZSetsScoreKey S).prefixBytes :=
    ZSetsScoreKey.prefixBytes_inj.2 ⟨hb.1, hb.2.1⟩
  have hpa : a.prefixBytes = (⟨key, version, scores.lowest, []⟩ : ZSetsScoreKey S).prefixBytes := by
    rw [← not_lt, ZSetsScoreKey.lt_iff, not_or, not_lt] at ha hab
    exact le_antisymm (hpb ▸ hab.1) ha.1
  obtain ⟨key', version', score, member⟩ := a
  obtain ⟨rfl, rfl⟩ := ZSetsScoreKey.prefixBytes_inj.1 hpa
  rw [le_iff_of_same] at ha
  simp only [inVersion, true_and, decide_eq_true_eq]
  rcases ha with hlt | ⟨heq, -⟩
  · exact hlt.le
  · exact heq.le

/-- Going on from the lowest score, the members of the version come first, in order. -/
private theorem seek_eq (hdata : DataOf scores key db version t.members)
    (hlow : ∀ e ∈ db.entries, e.1.key = key → e.1.version = version → scores.lowest ≤ e.1.score) :
    ∃ block rest, db.seek ⟨key, version, scores.lowest, []⟩ = block ++ rest ∧
      block.map (fun e => (⟨e.1.score, e.1.member⟩ : ScoreMember S)) = t.ranking ∧
      block.length = t.members.entries.length := by
  have hscan := db.scan_eq_filter (p := inVersion scores key version) (fun k hk => le_of_inVersion hk)
    fun a b ha hab hb => inVersion_of_le ha hab hb
  have hmap := db.filter_eq_map (sortedMembers t) (p := inVersion scores key version)
    (f := fun e => (⟨key, version, (ofLex e.1).1, (ofLex e.1).2⟩, .bytes [])) (by
      intro a b hab
      rw [ZSetsScoreKey.lt_iff]
      exact Or.inr ⟨rfl, Prod.Lex.lt_iff.1 hab⟩) (by
      rintro ⟨⟨key', version', score, member⟩, v⟩
      constructor
      · rintro ⟨hmem, hin⟩
        simp only [inVersion, decide_eq_true_eq] at hin
        obtain ⟨rfl, rfl, -⟩ := hin
        have hget := SortedMap.get_eq_some_iff.2 hmem
        rw [hdata.score] at hget
        split at hget
        · rename_i hsome
          cases hget
          exact ⟨(toLex (score, member), ()), mem_sortedMembers.2 hsome, rfl⟩
        · cases hget
      · rintro ⟨e, he, heq⟩
        cases heq
        have hmem : ((⟨key, version, (ofLex e.1).1, (ofLex e.1).2⟩ : ZSetsScoreKey S), ZSetsValue.bytes []) ∈
            db.entries := by
          rw [← SortedMap.get_eq_some_iff, hdata.score, if_pos (mem_sortedMembers.1 he)]
        refine ⟨hmem, ?_⟩
        simp only [inVersion, true_and, decide_eq_true_eq]
        exact hlow _ hmem rfl rfl)
  rw [← hscan] at hmap
  refine ⟨_, _, (List.takeWhile_append_dropWhile (p := fun e => inVersion scores key version e.1)).symm, ?_, ?_⟩
  · rw [hmap, List.map_map]
    rfl
  · rw [hmap, List.length_map, length_sortedMembers]

/-! ### Loops -/

/-- Up to the last index the counter does not overflow. -/
private theorem toInt_succ {stop cur : Int32} {j c : Nat} (hj : stop.toInt = j)
    (hc : cur.toInt = c) (hlt : j + 1 < 2 ^ 31)
    (hle : cur ≤ stop) : c ≤ j ∧ (cur + 1).toInt = ((c + 1 : ℕ) : ℤ) := by
  have hle' := Int32.le_iff_toInt_le.1 hle
  refine ⟨by omega, ?_⟩
  rw [Int32.toInt_add, Int32.toInt_one, Int.bmod_eq_of_le (by omega) (by omega), hc]
  rfl

omit [LinearOrder S] in
private theorem rangeLoop_eq {start stop cur : Int32} {i j c : Nat} (hi : start.toInt = i) (hj : stop.toInt = j)
    (hc : cur.toInt = c) (hlt : j + 1 < 2 ^ 31) (iter : List (ZSetsScoreKey S × ZSetsValue S)) :
    rangeLoop start stop iter cur =
      (((iter.map fun e => (⟨e.1.score, e.1.member⟩ : ScoreMember S)).take (j + 1 - c)).drop (i - c)) := by
  induction iter generalizing cur c with
  | nil => simp [rangeLoop]
  | cons e iter ih =>
    unfold rangeLoop
    by_cases hle : cur ≤ stop
    · obtain ⟨hle', hsucc⟩ := toInt_succ hj hc hlt hle
      rw [if_pos hle, ih hsucc, List.map_cons, show j + 1 - c = (j + 1 - (c + 1)) + 1 by omega, List.take_succ_cons]
      by_cases hstart : start ≤ cur
      · have hstart' := Int32.le_iff_toInt_le.1 hstart
        rw [if_pos hstart, show i - c = 0 by omega, show i - (c + 1) = 0 by omega]
        rfl
      · have hstart' := mt Int32.le_iff_toInt_le.2 hstart
        rw [if_neg hstart, show i - c = (i - (c + 1)) + 1 by omega, List.drop_succ_cons]
    · have hle' := mt Int32.le_iff_toInt_le.2 hle
      rw [if_neg hle, show j + 1 - c = 0 by omega, List.take_zero, List.drop_nil]

omit [LinearOrder S] in
private theorem rankLoop_eq {stop cur : Int32} {j c : Nat} (hj : stop.toInt = j) (hc : cur.toInt = c)
    (hlt : j + 1 < 2 ^ 31) (member : Slice) (iter : List (ZSetsScoreKey S × ZSetsValue S)) :
    (rankLoop stop member iter cur).map Int32.toInt =
      (((iter.map fun e => (⟨e.1.score, e.1.member⟩ : ScoreMember S)).take (j + 1 - c)).findIdx? fun sm =>
        sm.member = member).map fun n => ((n + c : ℕ) : ℤ) := by
  induction iter generalizing cur c with
  | nil => simp [rankLoop]
  | cons e iter ih =>
    unfold rankLoop
    by_cases hle : cur ≤ stop
    · obtain ⟨hle', hsucc⟩ := toInt_succ hj hc hlt hle
      rw [if_pos hle, List.map_cons, show j + 1 - c = (j + 1 - (c + 1)) + 1 by omega, List.take_succ_cons,
        List.findIdx?_cons]
      by_cases hmember : e.1.member = member
      · simp [hmember, hc]
      · rw [if_neg hmember, ih hsucc]
        simp only [hmember, decide_false, Bool.false_eq_true, if_false, Option.map_map, Function.comp_def,
          Nat.add_assoc, Nat.add_comm 1 c]
    · have hle' := mt Int32.le_iff_toInt_le.2 hle
      rw [if_neg hle, show j + 1 - c = 0 by omega]
      rfl

/-! ### ZRange and ZRank -/

private theorem length_ranking (t : ScoredMap S) : t.ranking.length = t.members.entries.length := by
  rw [← length_sortedMembers]
  exact List.length_map ..

/-- A read of the members finds them in order, as many as the count says. -/
private theorem seek_ranking {f : MetaFields} {time : Int}
    (hget : db.get (metaKey scores key) = some (.bytes f.encode))
    (hstale : f.parsed.IsStale time = false) (hzero : f.count ≠ 0) (hcount : f.count.toInt = t.members.entries.length)
    (hdata : DataOf scores key db f.version t.members)
    (hcond : MayRead scores db key time (db.get (metaKey scores key))) :
    ∃ block rest, db.seek ⟨key, f.version, scores.lowest, []⟩ = block ++ rest ∧
      block.map (fun e => (⟨e.1.score, e.1.member⟩ : ScoreMember S)) = t.ranking ∧
      block.length = t.ranking.length ∧ f.count.toInt = t.ranking.length ∧ 0 < f.count.toInt := by
  have hzero' : (f.count == 0) = false := by simpa using hzero
  have hlow : ∀ e ∈ db.entries, e.1.key = key → e.1.version = f.version → scores.lowest ≤ e.1.score := by
    simpa only [hget, MayRead, parsedMeta_encode, MetaFields.parsed_count, hstale, hzero', Bool.or_self, true_implies,
      MetaFields.parsed_version] using hcond
  obtain ⟨block, rest, hseek, hblock, hlength⟩ := seek_eq hdata hlow
  have hn : t.ranking.length = t.members.entries.length := length_ranking t
  have hne : f.count.toInt ≠ 0 := fun hnull => hzero (Int32.toInt.inj hnull)
  exact ⟨block, rest, hseek, hblock, hlength.trans hn.symm, by rw [hn]; exact hcount, by omega⟩

/-- Negative positions count from the end. -/
private theorem position_eq {count : Int32} {n : Nat} (hcount : count.toInt = n) (x : Int32) :
    (if 0 ≤ x then x else count + x).toInt = position n x.toInt := by
  have hnonneg : 0 ≤ x ↔ 0 ≤ x.toInt := Int32.le_iff_toInt_le
  have hlt := count.toInt_lt
  have hle := x.le_toInt
  unfold position
  by_cases h : 0 ≤ x
  · have := hnonneg.1 h
    rw [if_pos h, if_neg (by omega)]
  · have := mt hnonneg.2 h
    rw [if_neg h, if_pos (by omega), Int32.toInt_add, Int.bmod_eq_of_le (by omega) (by omega), hcount]
    omega

private theorem toInt_max_zero (x : Int32) : (if x ≤ 0 then 0 else x).toInt = max x.toInt 0 := by
  have hle : x ≤ 0 ↔ x.toInt ≤ 0 := Int32.le_iff_toInt_le
  by_cases h : x ≤ 0
  · rw [if_pos h, max_eq_right (hle.1 h)]
    rfl
  · have := mt hle.2 h
    rw [if_neg h, max_eq_left (by omega)]

private theorem toInt_min_last {count : Int32} (hpos : 0 < count.toInt) (x : Int32) :
    (if count ≤ x then count - 1 else x).toInt = min x.toInt (count.toInt - 1) := by
  have hle : count ≤ x ↔ count.toInt ≤ x.toInt := Int32.le_iff_toInt_le
  have hlt := count.toInt_lt
  by_cases h : count ≤ x
  · have := hle.1 h
    rw [if_pos h, Int32.toInt_sub, Int32.toInt_one, Int.bmod_eq_of_le (by omega) (by omega)]
    omega
  · have := mt hle.2 h
    rw [if_neg h]
    omega

theorem zRange_eq (h : RepKey scores now db key t) {time : Int} (htime : now ≤ time) (start stop : Int32)
    (hcond : MayRead scores db key time (db.get (metaKey scores key))) :
    (ZRange scores db key time start stop).2 = slice (t.live time).ranking start.toInt stop.toInt := by
  have hnil : slice (ScoredMap.empty : ScoredMap S).ranking start.toInt stop.toInt = [] := Slices.slice_nil ..
  unfold ZRange
  cases (h.mono htime).cases with
  | missing hget hlive hdead hfresh =>
    rw [hlive, hnil]
    simp only [hget]
  | dead f hget hlive hdead hstale hversion hfresh =>
    rw [hlive, hnil]
    simp only [hget, parsedMeta_encode, MetaFields.parsed_count]
    rcases hstale with hst | hzero
    · simp only [hst, if_true]
    · simp only [hzero, beq_self_eq_true, if_true]
      split <;> rfl
  | live f hget hlive hstale hexpiry hversion hzero hcount hdata hfresh =>
    have hzero' : (f.count == 0) = false := by simpa using hzero
    obtain ⟨block, rest, hseek, hblock, hlength, hcount, hpos⟩ := seek_ranking hget hstale hzero hcount hdata hcond
    have hlt := f.count.toInt_lt
    simp only [hget, hlive, parsedMeta_encode, MetaFields.parsed_count, hstale, hzero', Bool.false_eq_true, if_false,
      MetaFields.parsed_version, Bool.or_eq_true, decide_eq_true_eq]
    have hstart := position_eq hcount start
    have hstop := position_eq hcount stop
    generalize (if 0 ≤ start then start else f.count + start) = startindex at hstart ⊢
    generalize (if 0 ≤ stop then stop else f.count + stop) = stopindex at hstop ⊢
    have hfirst := toInt_max_zero startindex
    have hlast := toInt_min_last hpos stopindex
    generalize (if startindex ≤ 0 then 0 else startindex) = first at hfirst ⊢
    generalize (if f.count ≤ stopindex then f.count - 1 else stopindex) = last at hlast ⊢
    have hzeroInt : (0 : Int32).toInt = 0 := rfl
    by_cases hempty : (last < first ∨ f.count ≤ first) ∨ last < 0
    · rw [if_pos hempty, slice_eq_nil]
      simp only [Int32.lt_iff_toInt_lt, Int32.le_iff_toInt_le] at hempty
      omega
    · rw [if_neg hempty]
      simp only [Int32.lt_iff_toInt_lt, Int32.le_iff_toInt_le, not_or, not_lt, not_le] at hempty
      obtain ⟨i, hi⟩ := Int.eq_ofNat_of_zero_le (show 0 ≤ first.toInt by omega)
      obtain ⟨j, hj⟩ := Int.eq_ofNat_of_zero_le (show 0 ≤ last.toInt by omega)
      rw [hseek, rangeLoop_eq hi hj (c := 0) rfl (by omega), List.map_append, hblock,
        List.take_append_of_le_length (by omega), slice_eq_take_drop (i := i) (j := j) (by omega) (by omega),
        List.drop_take]
      rfl

theorem zRank_eq (h : RepKey scores now db key t) {time : Int} (htime : now ≤ time) (member : Slice)
    (hcond : MayRead scores db key time (db.get (metaKey scores key))) :
    (ZRank scores db key time member).2.toInt =
      (((t.live time).ranking.findIdx? fun sm => sm.member = member).map fun n : ℕ => (n : ℤ)).getD (-1) := by
  have hnil : (ScoredMap.empty : ScoredMap S).ranking = [] := rfl
  unfold ZRank
  cases (h.mono htime).cases with
  | missing hget hlive hdead hfresh =>
    rw [hlive, hnil]
    simp only [hget]
    rfl
  | dead f hget hlive hdead hstale hversion hfresh =>
    rw [hlive, hnil]
    simp only [hget, parsedMeta_encode, MetaFields.parsed_count]
    rcases hstale with hst | hzero
    · simp only [hst, if_true]
      rfl
    · simp only [hzero, beq_self_eq_true, if_true]
      split <;> rfl
  | live f hget hlive hstale hexpiry hversion hzero hcount hdata hfresh =>
    have hzero' : (f.count == 0) = false := by simpa using hzero
    obtain ⟨block, rest, hseek, hblock, hlength, hcount, hpos⟩ := seek_ranking hget hstale hzero hcount hdata hcond
    have hlt := f.count.toInt_lt
    have hlast : (f.count - 1).toInt = ((t.ranking.length - 1 : ℕ) : ℤ) := by
      rw [Int32.toInt_sub, Int32.toInt_one, Int.bmod_eq_of_le (by omega) (by omega)]
      omega
    have hrank := rankLoop_eq hlast (show (0 : Int32).toInt = (0 : ℕ) from rfl) (by omega) member (block ++ rest)
    rw [List.map_append, hblock, show t.ranking.length - 1 + 1 - 0 = t.ranking.length by omega,
      List.take_left] at hrank
    simp only [hget, hlive, parsedMeta_encode, MetaFields.parsed_count, hstale, hzero', Bool.false_eq_true, if_false,
      MetaFields.parsed_version, hseek]
    have hmap : ((t.ranking.findIdx? fun sm => sm.member = member).map fun n : ℕ => (n : ℤ)) =
        (rankLoop (f.count - 1) member (block ++ rest) 0).map Int32.toInt := hrank.symm
    rw [hmap]
    cases rankLoop (f.count - 1) member (block ++ rest) 0 <;> rfl

end RedisZset

end RedisDb
