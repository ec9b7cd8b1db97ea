import Mathlib.Algebra.Order.Monoid.Unbundled.WithTop
import SwissArmyKnife.RedisDb.RedisZsetReads
import SwissArmyKnife.RedisDb.RedisZsetUpdates

/-!
# Runs on sorted sets

A run of calls on any keys replies what scored maps by key reply, on a condition that keeps clear of `ZIncrby` on a
key without meta value, of reads in order of a sorted set with a member of score −∞, and of the ends of the integer
types.
-/

namespace RedisDb

open FirstOf (firstOf)
open Replies (Meets replies)

variable {S : Type*} [LinearOrder S]

namespace RedisZset

variable {scores : Scores S} {db : ZsetDb S} {key : Slice} {t : ScoredMap S} {later : Int}

/-! ### Runs -/

/-- The call keeps clear of what goes wrong. -/
def CallOk (scores : Scores S) (s : State S) (a : Action S) : Prop :=
  let time := s.clock + a.wait
  let later := time + a.lag
  let metavalue := s.db.get (metaKey scores a.key)
  match a.call with
  | .ZAdd first rest => MayAdd scores s.db a.key time later (first :: rest) metavalue
  | .ZIncrby member _ => MayIncr scores s.db a.key time later member metavalue
  | .Del => MayDel scores time later metavalue
  | .Expire ttl => MayExpire scores time later ttl metavalue
  | .ZCard => True
  | .ZRange _ _ => MayRead scores s.db a.key time metavalue
  | .ZRank _ => MayRead scores s.db a.key time metavalue

/-- The entries of every key stand for its scored map. -/
def Represents (scores : Scores S) (s : State S) (t : Int × (Slice → ScoredMap S)) : Prop :=
  s.clock = t.1 ∧ ∀ key, RepKey scores s.clock s.db key (t.2 key)

private theorem represents_of_gives {s : State S} {maps : Slice → ScoredMap S}
    (h : ∀ key, RepKey scores s.clock s.db key (maps key)) (hle : s.clock ≤ later) {db' : ZsetDb S}
    (hgives : Gives scores later key s.db db' t) :
    Represents scores ⟨later, db'⟩ (later, fun key' => if key' = key then t else maps key') := by
  refine ⟨rfl, ?_⟩
  intro key'
  by_cases hkey : key' = key
  · simp only [if_pos hkey]
    exact hkey ▸ hgives.rep
  · simp only [if_neg hkey]
    exact hgives.other key' _ hkey ((h key').mono hle)

private theorem step_simulates {s : State S} {t : Int × (Slice → ScoredMap S)} {a : Action S}
    (h : Represents scores s t) (hcond : CallOk scores s a) :
    Represents scores (step scores s a).1 (mapStep scores t a).1 ∧ (step scores s a).2 = (mapStep scores t a).2 := by
  obtain ⟨clock, db⟩ := s
  obtain ⟨clock', maps⟩ := t
  obtain ⟨rfl, hrep⟩ := h
  obtain ⟨key, call, wait, lag⟩ := a
  have htime : clock ≤ clock + wait := by omega
  have hlater : clock + wait ≤ clock + wait + lag := by omega
  have hkey : RepKey scores clock db key (maps key) := hrep key
  have hsame := ((hkey.mono htime).mono hlater).gives
  cases call with
  | ZAdd first rest =>
    obtain ⟨hgives, hreply⟩ := zAdd_gives hkey htime (List.cons_ne_nil first rest) hcond
    refine ⟨represents_of_gives hrep (htime.trans hlater) hgives, ?_⟩
    simp only [step, RedisZset.call, hreply, mapStep, mapCall]
  | ZIncrby member increment =>
    obtain ⟨db', status, score, hincr, hgives, hreply⟩ := zIncrby_gives hkey htime increment hcond
    simp only [step, RedisZset.call, hincr, mapStep]
    exact ⟨represents_of_gives hrep (htime.trans hlater) hgives, hreply⟩
  | Del => exact ⟨represents_of_gives hrep (htime.trans hlater) (del_gives hkey htime hlater hcond), rfl⟩
  | Expire ttl => exact ⟨represents_of_gives hrep (htime.trans hlater) (expire_gives hkey htime hlater hcond), rfl⟩
  | ZCard =>
    refine ⟨represents_of_gives hrep (htime.trans hlater) hsame, ?_⟩
    simp only [step, RedisZset.call, zCard_eq hkey htime, mapStep, mapCall]
  | ZRange start stop =>
    refine ⟨represents_of_gives hrep (htime.trans hlater) hsame, ?_⟩
    simp only [step, RedisZset.call, zRange_eq hkey htime start stop hcond, mapStep, mapCall]
  | ZRank member =>
    have hrank := zRank_eq hkey htime member hcond
    simp only [step, RedisZset.call, mapStep, mapCall, hrank]
    cases ((maps key).live (clock + wait)).ranking.findIdx? fun sm => sm.member = member with
    | none => exact ⟨represents_of_gives hrep (htime.trans hlater) hsame, rfl⟩
    | some n => exact ⟨represents_of_gives hrep (htime.trans hlater) hsame, rfl⟩

theorem represents_init (scores : Scores S) (clock : Int) :
    Represents scores ⟨clock, .empty⟩ (clock, fun _ => .empty) :=
  ⟨rfl, fun _ => .missing rfl dead_empty fun _ _ => ⟨fun _ => rfl, fun _ _ => rfl⟩⟩

/-- In a run whose calls keep clear of what goes wrong, the replies are those of scored maps by key. -/
theorem replies_eq_maps (scores : Scores S) (clock : Int) (actions : List (Action S))
    (hmeets : Meets (step scores) (CallOk scores) ⟨clock, .empty⟩ actions) :
    replies (step scores) ⟨clock, .empty⟩ actions = replies (mapStep scores) (clock, fun _ => .empty) actions :=
  Replies.replies_eq (fun _ _ a hrep hcond => step_simulates (a := a) hrep hcond)
    (represents_init scores clock) hmeets

/-- The doubles with integer values, and −∞. -/
def integerScores : Scores (WithBot ℤ) where
  add a b := a + b
  negInf := ⊥
  lowest := ((2 ^ 971 - 2 ^ 1024 : ℤ) : WithBot ℤ)
  ofInt32 v := (v.toInt : WithBot ℤ)
  bits
    | ⊥ => 0xFFF0000000000000
    | (n : ℤ) =>
      let e := n.natAbs.log2
      if n = 0 then 0
      else UInt64.ofNat ((if n < 0 then 2 ^ 63 else 0) + (e + 1023) * 2 ^ 52 + n.natAbs * 2 ^ (52 - e) % 2 ^ 52)
  ofBits b :=
    let e := b.toNat / 2 ^ 52 % 2 ^ 11
    let n : ℕ := (2 ^ 52 + b.toNat % 2 ^ 52) / 2 ^ (1075 - e)
    if b.toNat < 2 ^ 63 then ((n : ℤ) : WithBot ℤ) else if e = 2047 then ⊥ else ((-n : ℤ) : WithBot ℤ)
  negInf_le _ := bot_le
  negInf_lt_lowest := WithBot.bot_lt_coe _
  ofInt32_injective := WithBot.coe_injective.comp fun _ _ => Int32.toInt.inj

instance (time later : Int) (sms : List (ScoreMember S)) :
    ∀ o, Decidable (MayAdd scores db key time later sms o)
  | some metavalue =>
    inferInstanceAs (Decidable (if (parsedMeta scores metavalue).IsStale time ||
        (parsedMeta scores metavalue).count == 0 then
      ((parsedMeta scores metavalue).version.toInt < 2 ^ 31 - 1 ∧ later < 2 ^ 31) ∧
        (firstOf ScoreMember.member sms).length < 2 ^ 31
      else (parsedMeta scores metavalue).count.toInt + ((firstOf ScoreMember.member sms).filter fun sm =>
        (db.get (memberKey scores key (parsedMeta scores metavalue).version sm.member)).isNone).length < 2 ^ 31))
  | none => inferInstanceAs (Decidable (_ ∧ _))

instance (p : ParsedBaseMetaValue) (later : Int) : Decidable (MayRenew p later) := inferInstanceAs (Decidable (_ ∧ _))

instance (time later : Int) (member : Slice) : ∀ o, Decidable (MayIncr scores db key time later member o)
  | some metavalue =>
    have : Decidable (db.get (memberKey scores key (parsedMeta scores metavalue).version member) = none) :=
      decidable_of_iff _ Option.isNone_iff_eq_none
    inferInstanceAs (Decidable (if (parsedMeta scores metavalue).IsStale time ||
        (parsedMeta scores metavalue).count == 0 then MayRenew (parsedMeta scores metavalue) later
      else db.get (memberKey scores key (parsedMeta scores metavalue).version member) = none →
        (parsedMeta scores metavalue).count.toInt + 1 < 2 ^ 31))
  | none => isFalse id

instance (time later : Int) : ∀ o, Decidable (MayDel scores time later o)
  | some _ => inferInstanceAs (Decidable (_ = false → MayRenew _ later))
  | none => isTrue trivial

instance (time later : Int) (ttl : Int32) : ∀ o, Decidable (MayExpire scores time later ttl o)
  | some metavalue =>
    inferInstanceAs (Decidable (_ = false → if 0 < ttl then 0 < later + ttl.toInt ∧ later + ttl.toInt < 2 ^ 31
      else MayRenew (parsedMeta scores metavalue) later))
  | none => isTrue trivial

instance (time : Int) : ∀ o, Decidable (MayRead scores db key time o)
  | some metavalue =>
    inferInstanceAs (Decidable (_ = false → ∀ e ∈ db.entries, e.1.key = key →
      e.1.version = (parsedMeta scores metavalue).version → scores.lowest ≤ e.1.score))
  | none => isTrue trivial

instance (s : State S) : ∀ a, Decidable (CallOk scores s a)
  | ⟨key, .ZAdd first rest, wait, lag⟩ =>
    inferInstanceAs (Decidable (MayAdd scores s.db key (s.clock + wait) (s.clock + wait + lag) (first :: rest) _))
  | ⟨key, .ZIncrby member _, wait, lag⟩ =>
    inferInstanceAs (Decidable (MayIncr scores s.db key (s.clock + wait) (s.clock + wait + lag) member _))
  | ⟨_, .Del, wait, lag⟩ => inferInstanceAs (Decidable (MayDel scores (s.clock + wait) (s.clock + wait + lag) _))
  | ⟨_, .Expire ttl, wait, lag⟩ =>
    inferInstanceAs (Decidable (MayExpire scores (s.clock + wait) (s.clock + wait + lag) ttl _))
  | ⟨_, .ZCard, _, _⟩ => isTrue trivial
  | ⟨key, .ZRange _ _, wait, _⟩ => inferInstanceAs (Decidable (MayRead scores s.db key (s.clock + wait) _))
  | ⟨key, .ZRank _, wait, _⟩ => inferInstanceAs (Decidable (MayRead scores s.db key (s.clock + wait) _))

/-- Members that are added, rescored, ranked, expired, deleted and added again. -/
theorem replies_eq_maps_example :
    let actions : List (Action (WithBot ℤ)) :=
      [⟨[1], .ZAdd ⟨3, [7]⟩ [⟨1, [8]⟩, ⟨5, [7]⟩], 0, 0⟩, ⟨[1], .ZIncrby [8] 4, 0, 0⟩, ⟨[1], .ZIncrby [9] 3, 0, 0⟩,
        ⟨[1], .ZRange 0 (-1), 0, 0⟩, ⟨[1], .ZRank [9], 0, 0⟩, ⟨[1], .Expire 10, 0, 1⟩, ⟨[1], .ZCard, 5, 0⟩,
        ⟨[1], .ZAdd ⟨2, [6]⟩ [], 20, 1⟩, ⟨[1], .ZRange 0 5, 0, 0⟩, ⟨[2], .ZAdd ⟨2, [6]⟩ [], 0, 0⟩, ⟨[1], .Del, 0, 0⟩,
        ⟨[1], .ZAdd ⟨4, [5]⟩ [], 0, 0⟩, ⟨[1], .ZRange (-2) 0, 0, 0⟩]
    replies (step integerScores) ⟨100, .empty⟩ actions =
      replies (mapStep integerScores) (100, fun _ => .empty) actions :=
  replies_eq_maps integerScores 100 _ (by decide +kernel)

/-- A member of score −∞ is not in the range of all members. -/
theorem replies_ne_maps :
    ¬ ∀ (S : Type) [LinearOrder S] (scores : Scores S) (clock : Int) (actions : List (Action S)),
      replies (step scores) ⟨clock, .empty⟩ actions = replies (mapStep scores) (clock, fun _ => .empty) actions := by
  intro h
  have := h (WithBot ℤ) integerScores 100 [⟨[1], .ZAdd ⟨⊥, [7]⟩ [], 0, 0⟩, ⟨[1], .ZRange 0 (-1), 0, 0⟩]
  revert this
  decide +kernel

end RedisZset

end RedisDb
