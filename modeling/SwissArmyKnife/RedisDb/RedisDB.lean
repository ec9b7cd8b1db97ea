import SwissArmyKnife.RedisDb.RedisHash
import SwissArmyKnife.RedisDb.RedisKeys
import SwissArmyKnife.RedisDb.RedisList
import SwissArmyKnife.RedisDb.RedisString
import SwissArmyKnife.RedisDb.RedisZset

/-!
# Keys of every type

`RedisDB` has a store for each type of data, and a key may have a value in each of them.  `Del` and `Expire` go
through the types and count those that answer `OK`.
-/

namespace RedisDb

inductive DataType where
  | kStrings
  | kHashes
  | kLists
  | kZSets
  | kSets
deriving DecidableEq

def Status.IsNotFound : Status → Bool
  | .NotFound _ => true
  | _ => false

/-- `Expire` of a hash, which does nothing. -/
def RedisHash.Expire (db : Db) (_key : Slice) (_ttl : Int32) : Db × Status := (db, .OK)

/-- `Expire` of a set, which does nothing. -/
def RedisSet.Expire (db : Db) (_key : Slice) (_ttl : Int32) : Db × Status := (db, .OK)

/-- `Expire` of a list, which does nothing. -/
def RedisList.Expire (db : ListDb) (_key : Slice) (_ttl : Int32) : ListDb × Status := (db, .OK)

structure Stores (S : Type*) [LinearOrder S] where
  strings : Db
  hashes : Db
  sets : Db
  lists : ListDb
  zsets : ZsetDb S

/-- No read of a call meets an error. -/
def noErrors : Nat → Option Failure := fun _ => none

namespace RedisDB

variable {S : Type*} [LinearOrder S] (scores : Scores S)

/-- What `Del` and `Expire` keep of the statuses. -/
structure Tally where
  count : Int
  iscorruption : Bool
  typestatus : DataType → Option Status

namespace Tally

def init : Tally := ⟨0, false, fun _ => none⟩

def account (r : Tally) (t : DataType) (s : Status) : Tally :=
  if s.ok then { r with count := r.count + 1 }
  else if !s.IsNotFound then
    { r with iscorruption := true, typestatus := fun t' => if t' = t then some s else r.typestatus t' }
  else r

def result (r : Tally) : Int := if r.iscorruption then -1 else r.count

end Tally

/-- What `Del` does with a key. -/
def delKey (now : Int) (s : Stores S × Tally) (key : Slice) : Stores S × Tally :=
  let strings := RedisString.Del none s.1.strings key now
  let hashes := RedisHash.Del noErrors s.1.hashes key now
  let sets := RedisSet.Del s.1.sets key now now
  let lists := RedisList.Del s.1.lists key now now
  let zsets := RedisZset.Del scores s.1.zsets key now now
  let r := s.2.account .kStrings strings.2
  let r := r.account .kHashes hashes.status
  let r := r.account .kSets sets.2
  let r := r.account .kLists lists.2
  let r := r.account .kZSets zsets.2
  (⟨strings.1, hashes.db, sets.1, lists.1, zsets.1⟩, r)

/-- `Del`; `now` is what the clock shows during the call. -/
def Del (now : Int) (s : Stores S) (keys : List Slice) : Stores S × Tally :=
  keys.foldl (delKey scores now) (s, Tally.init)

def Expire (now : Int) (s : Stores S) (key : Slice) (ttl : Int32) : Stores S × Tally :=
  let strings := RedisString.Expire none s.strings key now now ttl
  let hashes := RedisHash.Expire s.hashes key ttl
  let sets := RedisSet.Expire s.sets key ttl
  let lists := RedisList.Expire s.lists key ttl
  let zsets := RedisZset.Expire scores s.zsets key now now ttl
  let r := Tally.init.account .kStrings strings.2
  let r := r.account .kHashes hashes.2
  let r := r.account .kSets sets.2
  let r := r.account .kLists lists.2
  let r := r.account .kZSets zsets.2
  (⟨strings.1, hashes.1, sets.1, lists.1, zsets.1⟩, r)

end RedisDB

/-! ### Live keys -/

/-- A meta value that has not expired and counts some elements. -/
def ParsedBaseMetaValue.live (now : Int) : Option Slice → Bool
  | some metavalue =>
    !((ParsedBaseMetaValue.new metavalue).IsStale now || (ParsedBaseMetaValue.new metavalue).count == 0)
  | none => false

def ParsedListsMetaValue.live (now : Int) : Option Slice → Bool
  | some metavalue =>
    !((ParsedListsMetaValue.new metavalue).IsStale now || (ParsedListsMetaValue.new metavalue).count == 0)
  | none => false

namespace RedisDB

variable {S : Type*} [LinearOrder S] (scores : Scores S)

/-- The key is present in the type, has not expired and is not empty. -/
def live (s : Stores S) (now : Int) (key : Slice) : DataType → Bool
  | .kStrings => RedisString.live now (s.strings.get key)
  | .kHashes => ParsedBaseMetaValue.live now (s.hashes.get key)
  | .kLists => ParsedListsMetaValue.live now (s.lists.get (RedisList.metaKey key))
  | .kZSets =>
      ParsedBaseMetaValue.live now ((s.zsets.get (RedisZset.metaKey scores key)).map (ZSetsValue.data scores))
  | .kSets => ParsedBaseMetaValue.live now (s.sets.get key)

def types : List DataType := [.kStrings, .kHashes, .kLists, .kZSets, .kSets]

end RedisDB

/-! ### Dead keys -/

section Dead

variable {key : Slice} {now time : Int}

theorem RedisString.live_some {v : Slice} :
    RedisString.live time (some v) = false ↔ (ParsedStringsMetaValue.new v).IsStale time = true := by
  simp [RedisString.live]

theorem ParsedBaseMetaValue.live_some {v : Slice} : ParsedBaseMetaValue.live time (some v) = false ↔
    (ParsedBaseMetaValue.new v).IsStale time = true ∨ (ParsedBaseMetaValue.new v).count = 0 := by
  rw [live, Bool.not_eq_false', Bool.or_eq_true, beq_iff_eq]

theorem ParsedListsMetaValue.live_some {v : Slice} : ParsedListsMetaValue.live time (some v) = false ↔
    (ParsedListsMetaValue.new v).IsStale time = true ∨ (ParsedListsMetaValue.new v).count = 0 := by
  rw [live, Bool.not_eq_false', Bool.or_eq_true, beq_iff_eq]

/-- What has expired stays so. -/
theorem stale_mono {timestamp : Int32} (htime : now ≤ time)
    (h : (if timestamp = 0 then false else decide (timestamp.toInt < now)) = true) :
    (if timestamp = 0 then false else decide (timestamp.toInt < time)) = true := by
  split at h
  · cases h
  · rename_i hne
    rw [if_neg hne, decide_eq_true_eq]
    have := of_decide_eq_true h
    omega

theorem RedisString.dead_mono {o : Option Slice} (h : RedisString.live now o = false) (htime : now ≤ time) :
    RedisString.live time o = false := by
  cases o with
  | none => rfl
  | some v => exact live_some.2 (stale_mono htime (live_some.1 h))

theorem ParsedBaseMetaValue.dead_mono {o : Option Slice} (h : ParsedBaseMetaValue.live now o = false)
    (htime : now ≤ time) : ParsedBaseMetaValue.live time o = false := by
  cases o with
  | none => rfl
  | some v => exact live_some.2 ((live_some.1 h).imp_left (stale_mono htime))

theorem ParsedListsMetaValue.dead_mono {o : Option Slice} (h : ParsedListsMetaValue.live now o = false)
    (htime : now ≤ time) : ParsedListsMetaValue.live time o = false := by
  cases o with
  | none => rfl
  | some v => exact live_some.2 ((live_some.1 h).imp_left (stale_mono htime))

end Dead

end RedisDb
