import SwissArmyKnife.RedisDb.DeadLists
import SwissArmyKnife.RedisDb.DeadZsets

/-!
# Dead keys of every type

A call on any type is run in stores in which the key has a dead meta value of the type, and in the stores without it.
The other types and the other keys are there in both.  `RedisDB.alike_iff_conceals` tells when the answers are alike.
-/

namespace RedisDb

/-- A call is run in a part of a store, and the rest stays as it is. -/
theorem alike_part_iff {σ τ ω ρ γ δ : Type*} {contents : σ → Int → γ} {whole : τ → Int → δ} {later : Int}
    {put : σ → τ} {out : ω → ρ} (hout : Function.Injective out)
    (hput : ∀ a b now, whole (put a) now = whole (put b) now ↔ contents a now = contents b now)
    (x y : Option (Response σ ω)) :
    Alike whole later (x.map fun a => ⟨put a.db, a.status, out a.output⟩)
        (y.map fun a => ⟨put a.db, a.status, out a.output⟩) ↔ Alike contents later x y := by
  cases x with
  | none => cases y <;> simp [Alike]
  | some a =>
    cases y with
    | none => simp [Alike]
    | some b => simp [Alike, hput, hout.eq_iff]

variable {L S : Type*} [LinearOrder S] (e : Setting L) (scores : Scores S)

namespace RedisDB

/-- A call on a key of one of the types. -/
inductive Command (S : Type*) where
  | strings (c : RedisString.Command)
  | hashes (c : RedisHash.Command)
  | sets (c : RedisSet.Command)
  | zsets (c : RedisZset.Command S)
  | lists (c : RedisList.Command)

inductive Output (S : Type*) where
  | strings (o : RedisString.Output)
  | hashes (o : RedisHash.Output)
  | sets (o : RedisSet.Output)
  | zsets (o : RedisZset.Output S)
  | lists (o : RedisList.Output)

def Command.type : Command S → DataType
  | .strings _ => .kStrings
  | .hashes _ => .kHashes
  | .sets _ => .kSets
  | .zsets _ => .kZSets
  | .lists _ => .kLists

def run (s : Stores S) (key : Slice) : Command S → Option (Response (Stores S) (Output S))
  | .strings c =>
      (RedisString.run e s.strings key c).map fun a => ⟨{ s with strings := a.db }, a.status, .strings a.output⟩
  | .hashes c => (RedisHash.run e s.hashes key c).map fun a => ⟨{ s with hashes := a.db }, a.status, .hashes a.output⟩
  | .sets c => (RedisSet.run e s.sets key c).map fun a => ⟨{ s with sets := a.db }, a.status, .sets a.output⟩
  | .zsets c =>
      (RedisZset.run e scores s.zsets key c).map fun a => ⟨{ s with zsets := a.db }, a.status, .zsets a.output⟩
  | .lists c => (RedisList.run e s.lists key c).map fun a => ⟨{ s with lists := a.db }, a.status, .lists a.output⟩

/-- What the key holds in every type. -/
structure Contents (S : Type*) where
  strings : Option (Slice × Int32)
  hashes : Option (Slice → Option Slice)
  sets : Option (Int32 × (Slice → Bool))
  zsets : Option (Int32 × RedisZset.Ranking S)
  lists : Option (UInt64 × List (Option Slice))

def contents (key : Slice) (s : Stores S) (now : Int) : Contents S where
  strings := RedisString.contents key s.strings now
  hashes := RedisHash.contents key s.hashes now
  sets := RedisSet.contents key s.sets now
  zsets := RedisZset.contents scores key s.zsets now
  lists := RedisList.contents key s.lists now

/-- The key has a meta value of the type, and it is dead. -/
def DeadIn (s : Stores S) (key : Slice) (time : Int) : DataType → Prop
  | .kStrings => RedisString.Dead s.strings key time
  | .kHashes => DeadMeta s.hashes key time
  | .kLists => RedisList.DeadMeta s.lists key time
  | .kZSets => RedisZset.DeadMeta scores s.zsets key time
  | .kSets => DeadMeta s.sets key time

/-- The stores without the meta value of the type. -/
def without (s : Stores S) (key : Slice) : DataType → Stores S
  | .kStrings => { s with strings := s.strings.delete key }
  | .kHashes => { s with hashes := s.hashes.delete key }
  | .kLists => { s with lists := s.lists.delete (RedisList.metaKey key) }
  | .kZSets => { s with zsets := s.zsets.delete (RedisZset.metaKey scores key) }
  | .kSets => { s with sets := s.sets.delete key }

/-- When the answers to a call are alike, for a dead key and for one without a meta value. -/
def Command.Conceals (s : Stores S) (key : Slice) : Command S → Prop
  | .strings c => c.Conceals e s.strings key
  | .hashes c => c.Conceals e s.hashes key
  | .sets c => c.Conceals e s.sets key
  | .zsets c => c.Conceals e scores s.zsets key
  | .lists c => c.Conceals e s.lists key

/-- A call on a dead key answers as on one that is not there, under the condition of the call. -/
theorem alike_iff_conceals (s : Stores S) (key : Slice) (c : Command S) (h : DeadIn scores s key e.time c.type) :
    Alike (contents scores key) e.later (run e scores s key c) (run e scores (without scores s key c.type) key c) ↔
      c.Conceals e scores s key := by
  cases c with
  | strings c =>
    have hput (a b : Db) (now : Int) : contents scores key { s with strings := a } now =
        contents scores key { s with strings := b } now ↔
          RedisString.contents key a now = RedisString.contents key b now := by
      simp [contents]
    exact (alike_part_iff (fun _ _ heq => Output.strings.inj heq) hput _ _).trans (RedisString.alike_iff e h c)
  | hashes c =>
    have hput (a b : Db) (now : Int) : contents scores key { s with hashes := a } now =
        contents scores key { s with hashes := b } now ↔
          RedisHash.contents key a now = RedisHash.contents key b now := by
      simp [contents]
    exact (alike_part_iff (fun _ _ heq => Output.hashes.inj heq) hput _ _).trans (RedisHash.alike_iff e h c)
  | sets c =>
    have hput (a b : Db) (now : Int) : contents scores key { s with sets := a } now =
        contents scores key { s with sets := b } now ↔
          RedisSet.contents key a now = RedisSet.contents key b now := by
      simp [contents]
    exact (alike_part_iff (fun _ _ heq => Output.sets.inj heq) hput _ _).trans (RedisSet.alike_iff e h c)
  | zsets c =>
    have hput (a b : ZsetDb S) (now : Int) : contents scores key { s with zsets := a } now =
        contents scores key { s with zsets := b } now ↔
          RedisZset.contents scores key a now = RedisZset.contents scores key b now := by
      simp [contents]
    exact (alike_part_iff (fun _ _ heq => Output.zsets.inj heq) hput _ _).trans (RedisZset.alike_iff e h c)
  | lists c =>
    have hput (a b : ListDb) (now : Int) : contents scores key { s with lists := a } now =
        contents scores key { s with lists := b } now ↔
          RedisList.contents key a now = RedisList.contents key b now := by
      simp [contents]
    exact (alike_part_iff (fun _ _ heq => Output.lists.inj heq) hput _ _).trans (RedisList.alike_iff e h c)

/-- A string whose expiry time is 5, under the key 1. -/
def staleString : Stores (WithBot ℤ) where
  strings := SortedMap.empty.put [1] ([7] ++ EncodeFixed32 5)
  hashes := .empty
  sets := .empty
  lists := .empty
  zsets := .empty

/-- Reads that do not fail, at the time 100. -/
def at100 : Setting ℤ where
  io := noErrors
  time := 100
  later := 100
  memory := 0
  freed := fun _ _ => 0
  beyond := fun _ _ => 0
  doubles := ⟨(· + ·), fun _ => false, fun _ => false, fun _ => (0, 0), fun _ => []⟩
  time_pos := by decide
  time_le_later := le_rfl
  later_lt := by decide

theorem alike_iff_conceals_example :
    let c : Command (WithBot ℤ) := .strings (.Get [8])
    Alike (contents RedisZset.integerScores [1]) 100 (run at100 RedisZset.integerScores staleString [1] c)
      (run at100 RedisZset.integerScores (without RedisZset.integerScores staleString [1] .kStrings) [1] c) :=
  (alike_iff_conceals at100 RedisZset.integerScores staleString [1] (.strings (.Get [8])) ⟨_, rfl, rfl⟩).2 trivial

/-- `Setxx` answers `OK` for a string that has expired, and `NotFound` for one that is not there. -/
theorem not_alike_setxx :
    ¬ ∀ (e : Setting ℤ) (s : Stores (WithBot ℤ)) (key : Slice) (c : Command (WithBot ℤ)),
      DeadIn RedisZset.integerScores s key e.time c.type →
        Alike (contents RedisZset.integerScores key) e.later (run e RedisZset.integerScores s key c)
          (run e RedisZset.integerScores (without RedisZset.integerScores s key c.type) key c) := by
  intro h
  have halike := h at100 staleString [1] (.strings (.Setxx [8] 0 10)) ⟨_, rfl, rfl⟩
  have hclass : (Status.OK).toClass = (Status.NotFound "").toClass := halike.1
  exact absurd hclass (by decide)

end RedisDB

end RedisDb
