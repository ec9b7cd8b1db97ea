import Mathlib.Data.Prod.Lex
import SwissArmyKnife.RedisDb.MetaValue

/-!
# Score keys

The store under sorted sets is ordered by the comparator of score keys: by key and version as bytes, then by score,
then by member.  Scores are doubles; they are taken from any linear order, with the operations on doubles that are
used (`Scores`).
-/

namespace RedisDb

/-- The doubles, as far as they are used; no NaN is among them. -/
structure Scores (S : Type*) [LinearOrder S] where
  add : S → S → S
  negInf : S
  /-- `std::numeric_limits<double>::lowest()`. -/
  lowest : S
  ofInt32 : Int32 → S
  bits : S → UInt64
  ofBits : UInt64 → S
  negInf_le : ∀ s, negInf ≤ s
  negInf_lt_lowest : negInf < lowest
  ofInt32_injective : Function.Injective ofInt32

/-- A score key; a member that is made of a null pointer is the empty one. -/
@[ext]
structure ZSetsScoreKey (S : Type*) where
  key : Slice
  version : Int32
  score : S
  member : Slice

namespace ZSetsScoreKey

variable {S : Type*}

def Encode [LinearOrder S] (scores : Scores S) (k : ZSetsScoreKey S) : Slice :=
  BaseDataKey k.key k.version (EncodeFixed64 (scores.bits k.score) ++ k.member)

/-- The length of the key, the key and the version, which are compared as bytes. -/
def prefixBytes (k : ZSetsScoreKey S) : Slice := BaseDataKey k.key k.version []

theorem prefixBytes_inj {a b : ZSetsScoreKey S} :
    a.prefixBytes = b.prefixBytes ↔ a.key = b.key ∧ a.version = b.version := by
  constructor
  · intro h
    have hlength : a.key.length = b.key.length := by
      have := congrArg List.length h
      simp only [prefixBytes, BaseDataKey, List.length_append, length_encodeFixed32, List.length_nil] at this
      omega
    have hrest := (List.append_inj h rfl).2
    have hkey := (List.append_inj hrest hlength).1
    refine ⟨hkey, ?_⟩
    rw [prefixBytes, prefixBytes, hkey] at h
    exact (baseDataKey_injective h).1
  · rintro ⟨hkey, hversion⟩
    rw [prefixBytes, prefixBytes, hkey, hversion]

private def toTuple (k : ZSetsScoreKey S) : Slice ×ₗ S ×ₗ Slice := toLex (k.prefixBytes, toLex (k.score, k.member))

private theorem toTuple_injective : Function.Injective (toTuple (S := S)) := by
  intro a b h
  simp only [toTuple, EmbeddingLike.apply_eq_iff_eq, Prod.mk.injEq] at h
  obtain ⟨hkey, hversion⟩ := prefixBytes_inj.1 h.1
  exact ZSetsScoreKey.ext hkey hversion h.2.1 h.2.2

variable [LinearOrder S]

instance : LinearOrder (ZSetsScoreKey S) := LinearOrder.lift' toTuple toTuple_injective

theorem lt_iff {a b : ZSetsScoreKey S} : a < b ↔ a.prefixBytes < b.prefixBytes ∨ a.prefixBytes = b.prefixBytes ∧
    (a.score < b.score ∨ a.score = b.score ∧ a.member < b.member) := by
  change toTuple a < toTuple b ↔ _
  simp [toTuple, Prod.Lex.toLex_lt_toLex]

end ZSetsScoreKey

end RedisDb
