import Mathlib.Algebra.BigOperators.Group.Multiset.Basic
import Mathlib.Algebra.Order.Group.Multiset

/-!
# Winning hands

The tiles, the groups they are put into, and the hands that are a union of groups with a bounded number of pairs
(`Wins`).  Only the groups that hold the smallest tile of a hand have to be tried (`wins_iff_of_least`).
-/

namespace Mahjong

def suits : List (List Int8) :=
  [[1, 2, 3, 4, 5, 6, 7, 8, 9], [11, 12, 13, 14, 15, 16, 17, 18, 19], [21, 22, 23, 24, 25, 26, 27, 28, 29]]

def honours : List Int8 := [31, 32, 33, 34, 35, 36, 37]

def tiles : List Int8 := suits.flatten ++ honours

/-- Three consecutive tiles of one suit begin at `t`. -/
def RunFrom (t : Int8) : Prop := ∃ suit ∈ suits, t ∈ suit ∧ t + 1 ∈ suit ∧ t + 2 ∈ suit

instance (t : Int8) : Decidable (RunFrom t) := inferInstanceAs (Decidable (∃ suit ∈ suits, _))

/-- What a hand is partitioned into. -/
inductive Group where
  | triplet (t : Int8)
  | pair (t : Int8)
  | run (t : Int8)

namespace Group

def tiles : Group → Multiset Int8
  | .triplet t => Multiset.replicate 3 t
  | .pair t => Multiset.replicate 2 t
  | .run t => {t, t + 1, t + 2}

def Valid : Group → Prop
  | .run t => RunFrom t
  | _ => True

def isPair : Group → Bool
  | .pair _ => true
  | _ => false

end Group

/-- The hand is a union of groups, and at most `pairs` of them are pairs. -/
def Wins (pairs : ℕ) (hand : Multiset Int8) : Prop :=
  ∃ groups : List Group, (∀ group ∈ groups, group.Valid) ∧ (groups.map Group.tiles).sum = hand ∧
    groups.countP Group.isPair ≤ pairs

theorem wins_zero (pairs : ℕ) : Wins pairs 0 := ⟨[], by simp, rfl, Nat.zero_le _⟩

theorem Wins.cons {pairs pairs' : ℕ} {hand : Multiset Int8} (h : Wins pairs hand)
    {group : Group} (hvalid : group.Valid)
    (hpairs : pairs + (if group.isPair then 1 else 0) ≤ pairs') : Wins pairs' (group.tiles + hand) := by
  obtain ⟨groups, hall, rfl, hcount⟩ := h
  refine ⟨group :: groups, ?_, by simp, ?_⟩
  · intro g hg
    rcases List.mem_cons.1 hg with rfl | hg
    · exact hvalid
    · exact hall g hg
  · rw [List.countP_cons]
    omega

private theorem mem_sum_tiles {groups : List Group} {t : Int8} (h : t ∈ (groups.map Group.tiles).sum) :
    ∃ group ∈ groups, t ∈ group.tiles := by
  induction groups with
  | nil => simp at h
  | cons group groups ih =>
    rw [List.map_cons, List.sum_cons, Multiset.mem_add] at h
    rcases h with h | h
    · exact ⟨group, by simp, h⟩
    · obtain ⟨g, hg, ht⟩ := ih h
      exact ⟨g, by simp [hg], ht⟩

/-- A tile of the hand is in one of its groups. -/
theorem Wins.exists_group {pairs : ℕ} {hand : Multiset Int8} (h : Wins pairs hand) {t : Int8} (ht : t ∈ hand) :
    ∃ group : Group, group.Valid ∧ t ∈ group.tiles ∧ ∃ pairs' rest, hand = group.tiles + rest ∧ Wins pairs' rest ∧
      pairs' + (if group.isPair then 1 else 0) = pairs := by
  obtain ⟨groups, hall, rfl, hcount⟩ := h
  obtain ⟨group, hgroup, hmem⟩ := mem_sum_tiles ht
  obtain ⟨l, r, rfl⟩ := List.append_of_mem hgroup
  have hle : (l ++ r).countP Group.isPair + (if group.isPair then 1 else 0) ≤ pairs := by
    rw [List.countP_append, List.countP_cons] at hcount
    rw [List.countP_append]
    omega
  refine ⟨group, hall group (by simp), hmem, pairs - (if group.isPair then 1 else 0),
    ((l ++ r).map Group.tiles).sum, ?_,
    ⟨l ++ r, fun g hg => hall g (by simp at hg ⊢; tauto), rfl, by omega⟩, by omega⟩
  simp only [List.map_append, List.map_cons, List.sum_append, List.sum_cons]
  rw [add_left_comm]

private theorem run_order {t : Int8} (h : RunFrom t) : t < t + 1 ∧ t < t + 2 := by
  obtain ⟨suit, hsuit, ht, -⟩ := h
  have hall : (suits.all fun suit => suit.all fun t => t < t + 1 ∧ t < t + 2) = true := by decide
  exact of_decide_eq_true (List.all_eq_true.1 (List.all_eq_true.1 hall suit hsuit) t ht)

/-- A valid group that holds the smallest tile of its hand is a triplet or a pair of it, or a run that it begins. -/
private theorem group_of_least {group : Group} (hvalid : group.Valid) {t : Int8} (ht : t ∈ group.tiles)
    (hleast : ∀ u ∈ group.tiles, t ≤ u) : group = .triplet t ∨ group = .pair t ∨ group = .run t := by
  cases group with
  | triplet u => exact .inl (by rw [Multiset.eq_of_mem_replicate ht])
  | pair u => exact .inr (.inl (by rw [Multiset.eq_of_mem_replicate ht]))
  | run u =>
    obtain ⟨h1, h2⟩ := run_order hvalid
    have hle : t ≤ u := hleast u (by simp [Group.tiles])
    rw [Int8.lt_iff_toInt_lt] at h1 h2
    rw [Int8.le_iff_toInt_le] at hle
    simp only [Group.tiles, Multiset.insert_eq_cons, Multiset.mem_cons, Multiset.mem_singleton] at ht
    rcases ht with rfl | rfl | rfl
    · exact .inr (.inr rfl)
    · omega
    · omega

/-- The ways to take a group away that begins with `t`. -/
def Begins (pairs : ℕ) (hand : Multiset Int8) (t : Int8) : Prop :=
  (∃ rest, hand = (Group.triplet t).tiles + rest ∧ Wins pairs rest) ∨
  (∃ rest, 0 < pairs ∧ hand = (Group.pair t).tiles + rest ∧ Wins (pairs - 1) rest) ∨
  (∃ rest, RunFrom t ∧ hand = (Group.run t).tiles + rest ∧ Wins pairs rest)

theorem Begins.wins {pairs : ℕ} {hand : Multiset Int8} {t : Int8} (h : Begins pairs hand t) : Wins pairs hand := by
  rcases h with ⟨rest, rfl, h⟩ | ⟨rest, hpos, rfl, h⟩ | ⟨rest, hrun, rfl, h⟩
  · exact h.cons trivial le_rfl
  · exact h.cons trivial (by simp [Group.isPair]; omega)
  · exact h.cons hrun le_rfl

/-- Only the groups that hold the smallest tile have to be tried. -/
theorem wins_iff_of_least {pairs : ℕ} {hand : Multiset Int8} {t : Int8} (ht : t ∈ hand) (hleast : ∀ u ∈ hand, t ≤ u) :
    Wins pairs hand ↔ Begins pairs hand t := by
  refine ⟨fun h => ?_, Begins.wins⟩
  obtain ⟨group, hvalid, hmem, pairs', rest, rfl, hrest, hpairs⟩ := h.exists_group ht
  rcases group_of_least hvalid hmem (fun u hu => hleast u (Multiset.mem_add.2 (.inl hu))) with rfl | rfl | rfl
  · have : pairs' = pairs := hpairs
    exact .inl ⟨rest, rfl, this ▸ hrest⟩
  · have : pairs' + 1 = pairs := hpairs
    exact .inr (.inl ⟨rest, by omega, rfl, by rwa [← this]⟩)
  · have : pairs' = pairs := hpairs
    exact .inr (.inr ⟨rest, hvalid, rfl, this ▸ hrest⟩)

end Mahjong
