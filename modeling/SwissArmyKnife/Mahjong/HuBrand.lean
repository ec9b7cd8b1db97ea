import SwissArmyKnife.Mahjong.Hand

/-!
# The test of a winning hand

`huBrand` takes triplets, pairs and runs away from the counts of a hand and puts them back.  It gives up at the first
tile that begins no group, and otherwise goes on to the tiles behind it.  Since only the groups of the smallest tile
matter, it finds a partition if there is one, and the counts are as before (`huBrand_iff`).
-/

namespace Mahjong

/-- `std::map<char,char>`: the tiles and their counts, in the order of the tiles. -/
abbrev Brand := List (Int8 × Int8)

def getRemainRand (brand : Brand) : Int8 := brand.foldl (fun remain it => remain + it.2) 0

namespace Brand

/-- `it->second -= n`, for the iterator at position `i`. -/
def sub (brand : Brand) (i : ℕ) (n : Int8) : Brand := brand.modify i fun it => (it.1, it.2 - n)

/-- `it->second += n`, for the iterator at position `i`. -/
def add (brand : Brand) (i : ℕ) (n : Int8) : Brand := brand.modify i fun it => (it.1, it.2 + n)

def subAll (brand : Brand) (parts : List (ℕ × Int8)) : Brand :=
  parts.foldl (fun brand part => brand.sub part.1 part.2) brand

def addAll (brand : Brand) (parts : List (ℕ × Int8)) : Brand :=
  parts.foldl (fun brand part => brand.add part.1 part.2) brand

end Brand

/-- What a statement of the loop has returned, if it has, and the map. -/
abbrev Turn := Option (Option Bool × Brand)

/-- The next statement, unless one has returned. -/
def unlessReturned (turn : Turn) (next : Brand → Turn) : Turn :=
  match turn with
  | some (some won, brand) => some (some won, brand)
  | some (none, brand) => next brand
  | none => none

section

-- The recursive call.
variable (hu : Brand → Bool → Option (Bool × Brand))

/-- The counts are lowered, the hand that is left is tested, and the counts are raised again. -/
def attempt (parts : List (ℕ × Int8)) (will : Bool) (brand : Brand) : Turn :=
  (hu (brand.subAll parts) will).map fun r =>
    (if r.1 then some true else none, r.2.addAll parts)

def takeTriplet (will : Bool) (i : ℕ) (brand : Brand) : Turn :=
  match brand[i]? with
  | some it => if it.2 ≥ 3 then attempt hu [(i, 3)] will brand else some (none, brand)
  | none => some (none, brand)

def takePair (will : Bool) (i : ℕ) (brand : Brand) : Turn :=
  match brand[i]? with
  | some it => if will = false ∧ it.2 ≥ 2 then attempt hu [(i, 2)] true brand else some (none, brand)
  | none => some (none, brand)

def takeRun (will : Bool) (i : ℕ) (brand : Brand) : Turn :=
  match brand[i]?, brand[i + 1]?, brand[i + 2]? with
  | some it, next1, next2 =>
    if it.1 > 30 then some (some false, brand)
    else if it.1 % 10 ≠ 8 ∧ it.1 % 10 ≠ 9 then
      match next1, next2 with
      | some next1, some next2 =>
        if next1.2 ≤ 0 ∨ next2.2 ≤ 0 then some (some false, brand)
        else if it.1 + 1 ≠ next1.1 ∨ next1.1 + 1 ≠ next2.1 then some (some false, brand)
        else attempt hu [(i, 1), (i + 1, 1), (i + 2, 1)] will brand
      | _, _ => some (some false, brand)
    else some (none, brand)
  | none, _, _ => some (none, brand)

/-- The body of the loop. -/
def huTile (will : Bool) (i : ℕ) (brand : Brand) : Turn :=
  match brand[i]? with
  | some it =>
    if it.2 = 0 then some (none, brand)
    else unlessReturned (takeTriplet hu will i brand) fun brand =>
      unlessReturned (takePair hu will i brand) fun brand => takeRun hu will i brand
  | none => some (none, brand)

def huLoop (will : Bool) : List ℕ → Brand → Option (Bool × Brand)
  | [], brand => some (false, brand)
  | i :: is, brand =>
    match huTile hu will i brand with
    | some (some won, brand) => some (won, brand)
    | some (none, brand) => huLoop will is brand
    | none => none

end

/-- At most `fuel` calls are nested. -/
def huBrand : ℕ → Brand → Bool → Option (Bool × Brand)
  | 0, _, _ => none
  | fuel + 1, brand, will =>
    if getRemainRand brand ≤ 0 then some (true, brand)
    else huLoop (huBrand fuel) will (List.range brand.length) brand

/-! ### The hand of a map -/

namespace Brand

/-- The tiles, each as often as it is counted. -/
def hand : Brand → Multiset Int8
  | [] => 0
  | it :: brand => Multiset.replicate it.2.toNatClampNeg it.1 + hand brand

/-- What the callers of `huBrand` promise. -/
structure Valid (brand : Brand) : Prop where
  sorted : brand.Pairwise fun it next => it.1 < next.1
  tile : ∀ it ∈ brand, it.1 ∈ tiles
  nonneg : ∀ it ∈ brand, 0 ≤ it.2
  total : Multiset.card brand.hand ≤ 127

end Brand

variable {brand : Brand} {i : ℕ} {it : Int8 × Int8}

private theorem toNatClampNeg_eq_zero {n : Int8} (h : 0 ≤ n) : n.toNatClampNeg = 0 ↔ n = 0 := by
  rw [← Int8.toInt_inj, Int8.toNatClampNeg]
  rw [Int8.le_iff_toInt_le] at h
  have hzero : (0 : Int8).toInt = 0 := rfl
  omega

theorem Brand.mem_hand (hnonneg : ∀ it ∈ brand, 0 ≤ it.2) {t : Int8} :
    t ∈ brand.hand ↔ ∃ n, (t, n) ∈ brand ∧ n ≠ 0 := by
  induction brand with
  | nil => simp [hand]
  | cons it brand ih =>
    have hit := hnonneg it (by simp)
    rw [hand, Multiset.mem_add, Multiset.mem_replicate, ih fun it h => hnonneg it (by simp [h]), Ne,
      toNatClampNeg_eq_zero hit]
    constructor
    · rintro (⟨hne, rfl⟩ | ⟨n, hmem, hne⟩)
      · exact ⟨it.2, by simp, hne⟩
      · exact ⟨n, by simp [hmem], hne⟩
    · rintro ⟨n, hmem, hne⟩
      rcases List.mem_cons.1 hmem with rfl | hmem
      · exact .inl ⟨hne, rfl⟩
      · exact .inr ⟨n, hmem, hne⟩

private theorem count_hand_eq_zero {t : Int8} (h : ∀ it ∈ brand, it.1 ≠ t) : brand.hand.count t = 0 := by
  induction brand with
  | nil => rfl
  | cons it brand ih =>
    rw [Brand.hand, Multiset.count_add, ih fun it hit => h it (by simp [hit]), Multiset.count_replicate,
      if_neg (h it (by simp))]

theorem Brand.count_hand (hsorted : brand.Pairwise fun it next => it.1 < next.1) (hit : it ∈ brand) :
    brand.hand.count it.1 = it.2.toNatClampNeg := by
  induction brand with
  | nil => simp at hit
  | cons first brand ih =>
    rw [List.pairwise_cons] at hsorted
    rw [hand, Multiset.count_add, Multiset.count_replicate]
    rcases List.mem_cons.1 hit with rfl | hit
    · rw [if_pos rfl, count_hand_eq_zero fun next hnext => (Int8.ne_of_lt (hsorted.1 next hnext)).symm, Nat.add_zero]
    · rw [if_neg (Int8.ne_of_lt (hsorted.1 it hit)), ih hsorted.2 hit, Nat.zero_add]

/-- The sum does not wrap, so that it is the number of tiles. -/
theorem getRemainRand_eq (h : brand.Valid) : (getRemainRand brand).toInt = Multiset.card brand.hand := by
  have hfrom : ∀ (brand : Brand) (remain : Int8), 0 ≤ remain.toInt → (∀ it ∈ brand, 0 ≤ it.2) →
      remain.toInt + Multiset.card brand.hand ≤ 127 →
      (brand.foldl (fun remain it => remain + it.2) remain).toInt = remain.toInt + Multiset.card brand.hand := by
    intro brand
    induction brand with
    | nil =>
      intro remain _ _ _
      simp [Brand.hand]
    | cons it brand ih =>
      intro remain hremain hnonneg hle
      have hit := hnonneg it (by simp)
      rw [Brand.hand, Multiset.card_add, Multiset.card_replicate] at hle ⊢
      have hcast : (it.2.toNatClampNeg : ℤ) = it.2.toInt := Int8.cast_toNatClampNeg _ hit
      rw [Int8.le_iff_toInt_le] at hit
      have hzero : (0 : Int8).toInt = 0 := rfl
      have hadd : (remain + it.2).toInt = remain.toInt + it.2.toInt := by
        rw [Int8.toInt_add]
        exact Int.bmod_eq_of_le (by omega) (by omega)
      rw [List.foldl_cons, ih (remain + it.2) (by omega) (fun it h => hnonneg it (by simp [h])) (by omega)]
      push_cast
      omega
  have := hfrom brand 0 le_rfl h.nonneg (by have := h.total; simp; omega)
  rwa [show (0 : Int8).toInt = 0 from rfl, Int.zero_add] at this

/-! ### Counts that are lowered and raised -/

namespace Brand

theorem getElem?_sub (brand : Brand) (i : ℕ) (n : Int8) (j : ℕ) :
    (brand.sub i n)[j]? = brand[j]?.map fun it => if i = j then (it.1, it.2 - n) else it := by
  rw [sub, List.getElem?_modify]
  by_cases h : i = j <;> simp [h]

theorem getElem?_add (brand : Brand) (i : ℕ) (n : Int8) (j : ℕ) :
    (brand.add i n)[j]? = brand[j]?.map fun it => if i = j then (it.1, it.2 + n) else it := by
  rw [add, List.getElem?_modify]
  by_cases h : i = j <;> simp [h]

private theorem add_sub_comm (brand : Brand) (i j : ℕ) (n m : Int8) :
    (brand.sub j m).add i n = (brand.add i n).sub j m := by
  apply List.ext_getElem?
  intro k
  simp only [getElem?_sub, getElem?_add, Option.map_map]
  congr 1
  funext it
  simp only [Function.comp_apply]
  split_ifs
  · rw [show it.2 - m + n = it.2 + n - m by grind]
  all_goals rfl

private theorem add_sub (brand : Brand) (i : ℕ) (n : Int8) : (brand.sub i n).add i n = brand := by
  apply List.ext_getElem?
  intro k
  rw [getElem?_add, getElem?_sub, Option.map_map]
  have : ((fun it : Int8 × Int8 => if i = k then (it.1, it.2 + n) else it) ∘
      fun it => if i = k then (it.1, it.2 - n) else it) = id := by
    funext it
    by_cases h : i = k <;> simp [h]
  rw [this, Option.map_id, id]

/-- What is lowered by the subtractions is raised by the additions. -/
theorem addAll_subAll (brand : Brand) (parts : List (ℕ × Int8)) : (brand.subAll parts).addAll parts = brand := by
  induction parts generalizing brand with
  | nil => rfl
  | cons part parts ih =>
    have hpush : ∀ (parts : List (ℕ × Int8)) (brand : Brand),
        (brand.subAll parts).add part.1 part.2 = (brand.add part.1 part.2).subAll parts := by
      intro parts
      induction parts with
      | nil =>
        intro brand
        rfl
      | cons other parts ih =>
        intro brand
        have hcons : ∀ brand : Brand, brand.subAll (other :: parts) = (brand.sub other.1 other.2).subAll parts :=
          fun _ => rfl
        rw [hcons, hcons, ih, add_sub_comm]
    have hcons : (brand.subAll (part :: parts)).addAll (part :: parts) =
        (((brand.sub part.1 part.2).subAll parts).add part.1 part.2).addAll parts := rfl
    rw [hcons, hpush, add_sub, ih]

private theorem map_fst_sub (brand : Brand) (i : ℕ) (n : Int8) :
    (brand.sub i n).map Prod.fst = brand.map Prod.fst := by
  apply List.ext_getElem?
  intro k
  rw [List.getElem?_map, List.getElem?_map, getElem?_sub, Option.map_map]
  congr 1
  funext it
  by_cases h : i = k <;> simp [h]

private theorem toInt_sub_of_le {a n : Int8} (hn : 0 ≤ n) (hle : n ≤ a) : (a - n).toInt = a.toInt - n.toInt := by
  rw [Int8.le_iff_toInt_le] at hn hle
  have hzero : (0 : Int8).toInt = 0 := rfl
  have hlt := a.toInt_lt
  rw [Int8.toInt_sub]
  exact Int.bmod_eq_of_le (by omega) (by omega)

theorem hand_sub (hit : brand[i]? = some it) {n : Int8} (hn : 0 ≤ n) (hle : n ≤ it.2) :
    brand.hand = Multiset.replicate n.toNatClampNeg it.1 + (brand.sub i n).hand := by
  induction brand generalizing i with
  | nil => simp at hit
  | cons first brand ih =>
    cases i with
    | zero =>
      obtain rfl : first = it := by simpa using hit
      have hsub := toInt_sub_of_le hn hle
      rw [Int8.le_iff_toInt_le] at hn hle
      have hzero : (0 : Int8).toInt = 0 := rfl
      have hsum : first.2.toNatClampNeg = n.toNatClampNeg + (first.2 - n).toNatClampNeg := by
        simp only [Int8.toNatClampNeg, hsub]
        omega
      rw [hand, hsum, Multiset.replicate_add, add_assoc]
      rfl
    | succ i =>
      have ih := ih (i := i) (by simpa using hit)
      rw [hand, ih, add_left_comm]
      rfl

theorem Valid.sub (h : brand.Valid) (hit : brand[i]? = some it) {n : Int8} (hn : 0 ≤ n) (hle : n ≤ it.2) :
    (brand.sub i n).Valid := by
  have hsorted := List.pairwise_map.2 h.sorted
  have htile := List.forall_mem_map.2 h.tile
  constructor
  · rw [← map_fst_sub brand i n] at hsorted
    exact List.pairwise_map.1 hsorted
  · rw [← map_fst_sub brand i n] at htile
    exact List.forall_mem_map.1 htile
  · intro next hnext
    obtain ⟨k, hk⟩ := List.mem_iff_getElem?.1 hnext
    rw [getElem?_sub] at hk
    obtain ⟨old, hold, rfl⟩ := Option.map_eq_some_iff.1 hk
    have hnonneg := h.nonneg old (List.mem_of_getElem? hold)
    by_cases hik : i = k
    · subst hik
      obtain rfl : it = old := Option.some.inj (hit.symm.trans hold)
      rw [if_pos rfl, Int8.le_iff_toInt_le, toInt_sub_of_le hn hle]
      rw [Int8.le_iff_toInt_le] at hle
      have hzero : (0 : Int8).toInt = 0 := rfl
      omega
    · rwa [if_neg hik]
  · have htotal := h.total
    rw [hand_sub hit hn hle, Multiset.card_add] at htotal
    omega

end Brand

/-! ### One turn -/

/-- How many pairs may still be taken. -/
def pairs (will : Bool) : ℕ := if will then 0 else 1

/-- The recursive calls tell of the hands with fewer than `n` tiles whether they win, and leave their counts. -/
def Solves (hu : Brand → Bool → Option (Bool × Brand)) (n : ℕ) : Prop :=
  ∀ (brand : Brand) (will : Bool), brand.Valid → Multiset.card brand.hand < n →
    ∃ won, hu brand will = some (won, brand) ∧ (won = true ↔ Wins (pairs will) brand.hand)

/-- The turn returns true if `wins` holds, and goes on if it does not. -/
def Tries (turn : Turn) (brand : Brand) (wins : Prop) : Prop :=
  (wins → turn = some (some true, brand)) ∧ (¬ wins → turn = some (none, brand))

/-- The turn returns true just if `wins` holds. -/
def Tells (turn : Turn) (brand : Brand) (wins : Prop) : Prop :=
  (wins → turn = some (some true, brand)) ∧ (¬ wins → turn = some (none, brand) ∨ turn = some (some false, brand))

theorem Tries.tells {turn : Turn} {wins : Prop} (h : Tries turn brand wins) : Tells turn brand wins :=
  ⟨h.1, fun hno => .inl (h.2 hno)⟩

theorem tells_false (brand : Brand) {wins : Prop} (h : ¬ wins) : Tells (some (some false, brand)) brand wins :=
  ⟨fun hwins => absurd hwins h, fun _ => .inr rfl⟩

theorem tries_none (brand : Brand) {wins : Prop} (h : ¬ wins) : Tries (some (none, brand)) brand wins :=
  ⟨fun hwins => absurd hwins h, fun _ => rfl⟩

theorem Tries.orElse {turn : Turn} {wins wins' : Prop} (h : Tries turn brand wins) {next : Brand → Turn}
    (h' : Tells (next brand) brand wins') : Tells (unlessReturned turn next) brand (wins ∨ wins') := by
  by_cases hwins : wins
  · rw [h.1 hwins]
    exact ⟨fun _ => rfl, fun hno => absurd (.inl hwins) hno⟩
  · rw [h.2 hwins, or_iff_right hwins]
    exact h'

section

variable {hu : Brand → Bool → Option (Bool × Brand)} {will : Bool}

theorem attempt_tries (hu_solves : Solves hu (Multiset.card brand.hand)) (parts : List (ℕ × Int8))
    (hvalid : (brand.subAll parts).Valid) {group : Group}
    (hhand : brand.hand = group.tiles + (brand.subAll parts).hand) :
    Tries (attempt hu parts will brand) brand
      (∃ rest, brand.hand = group.tiles + rest ∧ Wins (pairs will) rest) := by
  have hcard : Multiset.card group.tiles ≠ 0 := by cases group <;> simp [Group.tiles]
  obtain ⟨won, hcall, hwon⟩ := hu_solves _ will hvalid (by rw [hhand, Multiset.card_add]; omega)
  have hrest : (∃ rest, brand.hand = group.tiles + rest ∧ Wins (pairs will) rest) ↔ won = true := by
    rw [hwon]
    constructor
    · rintro ⟨rest, heq, h⟩
      rwa [add_left_cancel (hhand.symm.trans heq)]
    · intro h
      exact ⟨_, hhand, h⟩
  have hattempt : attempt hu parts will brand = some (if won then some true else none, brand) := by
    rw [attempt, hcall, Option.map_some, Brand.addAll_subAll]
  rw [hrest, hattempt]
  constructor
  · intro h
    rw [if_pos h]
  · intro h
    rw [if_neg h]

/-- There are fewer tiles than the group needs. -/
private theorem no_rest {n : ℕ} {t : Int8} (h : brand.hand.count t < n) {wins : Multiset Int8 → Prop} :
    ¬ ∃ rest, brand.hand = Multiset.replicate n t + rest ∧ wins rest := by
  rintro ⟨rest, heq, -⟩
  rw [heq, Multiset.count_add, Multiset.count_replicate_self] at h
  omega

theorem takeTriplet_tries (h : brand.Valid) (hu_solves : Solves hu (Multiset.card brand.hand))
    (hit : brand[i]? = some it) : Tries (takeTriplet hu will i brand) brand
      (∃ rest, brand.hand = (Group.triplet it.1).tiles + rest ∧ Wins (pairs will) rest) := by
  rw [takeTriplet, hit]
  dsimp only
  by_cases hge : it.2 ≥ 3
  · have hzero : (0 : Int8) ≤ 3 := by decide
    rw [if_pos hge]
    exact attempt_tries hu_solves [(i, 3)] (h.sub hit hzero hge) (Brand.hand_sub hit hzero hge)
  · rw [if_neg hge]
    apply tries_none
    apply no_rest
    rw [Brand.count_hand h.sorted (List.mem_of_getElem? hit), Int8.toNatClampNeg]
    rw [ge_iff_le, Int8.not_le, Int8.lt_iff_toInt_lt] at hge
    have hthree : (3 : Int8).toInt = 3 := rfl
    omega

theorem takePair_tries (h : brand.Valid) (hu_solves : Solves hu (Multiset.card brand.hand))
    (hit : brand[i]? = some it) : Tries (takePair hu will i brand) brand
      (∃ rest, 0 < pairs will ∧ brand.hand = (Group.pair it.1).tiles + rest ∧ Wins (pairs will - 1) rest) := by
  rw [takePair, hit]
  dsimp only
  cases will with
  | true =>
    apply tries_none
    rintro ⟨-, hpos, -⟩
    exact absurd hpos (by decide)
  | false =>
    have hpairs : (∃ rest, 0 < pairs false ∧ brand.hand = (Group.pair it.1).tiles + rest ∧
        Wins (pairs false - 1) rest) ↔
        ∃ rest, brand.hand = (Group.pair it.1).tiles + rest ∧ Wins (pairs true) rest := by
      simp [pairs]
    rw [hpairs]
    by_cases hge : it.2 ≥ 2
    · have hzero : (0 : Int8) ≤ 2 := by decide
      rw [if_pos ⟨rfl, hge⟩]
      exact attempt_tries hu_solves [(i, 2)] (h.sub hit hzero hge) (Brand.hand_sub hit hzero hge)
    · rw [if_neg fun hand => hge hand.2]
      apply tries_none
      apply no_rest
      rw [Brand.count_hand h.sorted (List.mem_of_getElem? hit), Int8.toNatClampNeg]
      rw [ge_iff_le, Int8.not_le, Int8.lt_iff_toInt_lt] at hge
      have htwo : (2 : Int8).toInt = 2 := rfl
      omega

/-- The entry of the next tile is the next entry. -/
theorem next_entry (h : brand.Valid) (hit : brand[i]? = some it) {next : Int8 × Int8} (hnext : next ∈ brand)
    (hkey : next.1.toInt = it.1.toInt + 1) : brand[i + 1]? = some next := by
  obtain ⟨j, hj⟩ := List.mem_iff_getElem?.1 hnext
  obtain ⟨hi, rfl⟩ := List.getElem?_eq_some_iff.1 hit
  obtain ⟨hj', rfl⟩ := List.getElem?_eq_some_iff.1 hj
  have hsorted : ∀ a b (ha : a < brand.length) (hb : b < brand.length), a < b →
      (brand[a]).1.toInt < (brand[b]).1.toInt := by
    intro a b ha hb hab
    exact Int8.lt_iff_toInt_lt.1 (List.pairwise_iff_getElem.1 h.sorted a b ha hb hab)
  rcases Nat.lt_trichotomy j (i + 1) with hlt | rfl | hgt
  · rcases Nat.lt_or_eq_of_le (Nat.le_of_lt_succ hlt) with hlt | rfl
    · have := hsorted j i hj' hi hlt
      omega
    · omega
  · exact hj
  · have h1 := hsorted i (i + 1) hi (by omega) (by omega)
    have h2 := hsorted (i + 1) j (by omega) hj' hgt
    omega

/-- The tests of the number of a tile. -/
private theorem runFrom_iff {t : Int8} (ht : t ∈ tiles) : RunFrom t ↔ ¬ t > 30 ∧ t % 10 ≠ 8 ∧ t % 10 ≠ 9 := by
  have hall : (tiles.all fun t => RunFrom t ↔ ¬ t > 30 ∧ t % 10 ≠ 8 ∧ t % 10 ≠ 9) = true := by decide
  exact of_decide_eq_true (List.all_eq_true.1 hall t ht)

private theorem toInt_succ {t : Int8} (ht : t ∈ tiles) :
    (t + 1).toInt = t.toInt + 1 ∧ (t + 2).toInt = (t + 1).toInt + 1 := by
  have hall : (tiles.all fun t => (t + 1).toInt = t.toInt + 1 ∧ (t + 2).toInt = (t + 1).toInt + 1) = true := by decide
  exact of_decide_eq_true (List.all_eq_true.1 hall t ht)

/-- The entries of a run that is in the hand are one after another. -/
private theorem run_entries (h : brand.Valid) (hit : brand[i]? = some it) {rest : Multiset Int8}
    (hrest : brand.hand = (Group.run it.1).tiles + rest) :
    ∃ n m, 0 < n ∧ 0 < m ∧ brand[i + 1]? = some (it.1 + 1, n) ∧ brand[i + 2]? = some (it.1 + 2, m) := by
  obtain ⟨h1, h2⟩ := toInt_succ (h.tile it (List.mem_of_getElem? hit))
  have hpos : ∀ {t n}, (t, n) ∈ brand → n ≠ 0 → 0 < n := by
    intro t n hmem hne
    have hle := h.nonneg (t, n) hmem
    rw [Int8.le_iff_toInt_le] at hle
    rw [Ne, ← Int8.toInt_inj] at hne
    rw [Int8.lt_iff_toInt_lt]
    have hle : (0 : Int8).toInt ≤ n.toInt := hle
    omega
  obtain ⟨n, hn, hn0⟩ := (Brand.mem_hand h.nonneg).1 (show it.1 + 1 ∈ brand.hand by simp [hrest, Group.tiles])
  obtain ⟨m, hm, hm0⟩ := (Brand.mem_hand h.nonneg).1 (show it.1 + 2 ∈ brand.hand by simp [hrest, Group.tiles])
  have hnext := next_entry h hit hn h1
  exact ⟨n, m, hpos hn hn0, hpos hm hm0, hnext, next_entry h hnext hm h2⟩

/-- The three counts of a run are lowered. -/
private theorem sub_run {next1 next2 : Int8 × Int8} (h : brand.Valid) (hit : brand[i]? = some it) (hpos : 1 ≤ it.2)
    (hnext1 : brand[i + 1]? = some next1) (hnext2 : brand[i + 2]? = some next2)
    (hpos1 : 0 < next1.2) (hpos2 : 0 < next2.2)
    (hkey1 : it.1 + 1 = next1.1) (hkey2 : next1.1 + 1 = next2.1) :
    (brand.subAll [(i, 1), (i + 1, 1), (i + 2, 1)]).Valid ∧
      brand.hand = (Group.run it.1).tiles + (brand.subAll [(i, 1), (i + 1, 1), (i + 2, 1)]).hand := by
  have hzero : (0 : Int8) ≤ 1 := by decide
  have hone : ∀ {n : Int8}, 0 < n → 1 ≤ n := by
    intro n hn
    rw [Int8.lt_iff_toInt_lt] at hn
    rw [Int8.le_iff_toInt_le]
    exact hn
  have hnext1' : (brand.sub i 1)[i + 1]? = some next1 := by
    rw [Brand.getElem?_sub, hnext1, Option.map_some, if_neg (by omega)]
  have hnext2' : ((brand.sub i 1).sub (i + 1) 1)[i + 2]? = some next2 := by
    rw [Brand.getElem?_sub, Brand.getElem?_sub, hnext2, Option.map_some, Option.map_some, if_neg (by omega),
      if_neg (by omega)]
  have hvalid := h.sub hit hzero hpos
  have hvalid1 := hvalid.sub hnext1' hzero (hone hpos1)
  refine ⟨hvalid1.sub hnext2' hzero (hone hpos2), ?_⟩
  rw [Brand.hand_sub hit hzero hpos, Brand.hand_sub hnext1' hzero (hone hpos1),
    Brand.hand_sub hnext2' hzero (hone hpos2),
    ← hkey2, ← hkey1, Int8.add_assoc, ← add_assoc, ← add_assoc]
  rfl

theorem takeRun_tells (h : brand.Valid) (hu_solves : Solves hu (Multiset.card brand.hand))
    (hit : brand[i]? = some it) (hpos : 1 ≤ it.2) : Tells (takeRun hu will i brand) brand
      (∃ rest, RunFrom it.1 ∧ brand.hand = (Group.run it.1).tiles + rest ∧ Wins (pairs will) rest) := by
  have hrun := runFrom_iff (h.tile it (List.mem_of_getElem? hit))
  rw [takeRun, hit]
  dsimp only
  by_cases hbig : it.1 > 30
  · rw [if_pos hbig]
    apply tells_false
    rintro ⟨rest, hfrom, -⟩
    exact (hrun.1 hfrom).1 hbig
  rw [if_neg hbig]
  by_cases hnum : it.1 % 10 ≠ 8 ∧ it.1 % 10 ≠ 9
  swap
  · rw [if_neg hnum]
    apply Tries.tells
    apply tries_none
    rintro ⟨rest, hfrom, -⟩
    exact hnum (hrun.1 hfrom).2
  rw [if_pos hnum]
  have hfrom : RunFrom it.1 := hrun.2 ⟨hbig, hnum⟩
  have hentries : (∃ rest, RunFrom it.1 ∧ brand.hand = (Group.run it.1).tiles + rest ∧ Wins (pairs will) rest) →
      ∃ n m, 0 < n ∧ 0 < m ∧ brand[i + 1]? = some (it.1 + 1, n) ∧ brand[i + 2]? = some (it.1 + 2, m) := by
    rintro ⟨rest, -, hrest, -⟩
    exact run_entries h hit hrest
  cases hnext1 : brand[i + 1]? with
  | none =>
    apply tells_false
    intro hwins
    obtain ⟨n, m, -, -, hn, -⟩ := hentries hwins
    exact absurd (hnext1.symm.trans hn) (by simp)
  | some next1 =>
    cases hnext2 : brand[i + 2]? with
    | none =>
      apply tells_false
      intro hwins
      obtain ⟨n, m, -, -, -, hm⟩ := hentries hwins
      exact absurd (hnext2.symm.trans hm) (by simp)
    | some next2 =>
      dsimp only
      rw [hnext1, hnext2] at hentries
      split_ifs with hcounts hkeys
      · apply tells_false
        intro hwins
        obtain ⟨n, m, hn, hm, h1, h2⟩ := hentries hwins
        obtain rfl := Option.some.inj h1
        obtain rfl := Option.some.inj h2
        rcases hcounts with hle | hle
        · exact Int8.not_le.2 hn hle
        · exact Int8.not_le.2 hm hle
      · apply tells_false
        intro hwins
        obtain ⟨n, m, -, -, h1, h2⟩ := hentries hwins
        obtain rfl := Option.some.inj h1
        obtain rfl := Option.some.inj h2
        rcases hkeys with hne | hne
        · exact hne rfl
        · exact hne (by rw [Int8.add_assoc]; rfl)
      · rw [not_or, Int8.not_le, Int8.not_le] at hcounts
        rw [not_or, not_not, not_not] at hkeys
        obtain ⟨hsub, hhand⟩ := sub_run h hit hpos hnext1 hnext2 hcounts.1 hcounts.2 hkeys.1 hkeys.2
        have htries : Tries (attempt hu [(i, 1), (i + 1, 1), (i + 2, 1)] will brand) brand _ :=
          attempt_tries hu_solves _ hsub hhand
        have hwins : (∃ rest, RunFrom it.1 ∧ brand.hand = (Group.run it.1).tiles + rest ∧ Wins (pairs will) rest) ↔
            ∃ rest, brand.hand = (Group.run it.1).tiles + rest ∧ Wins (pairs will) rest := by
          simp only [hfrom, true_and]
        rw [hwins]
        exact htries.tells

theorem huTile_zero (hit : brand[i]? = some it) (hzero : it.2 = 0) : huTile hu will i brand = some (none, brand) := by
  rw [huTile, hit]
  dsimp only
  rw [if_pos hzero]

theorem huTile_tells (h : brand.Valid) (hu_solves : Solves hu (Multiset.card brand.hand))
    (hit : brand[i]? = some it) (hne : it.2 ≠ 0) :
    Tells (huTile hu will i brand) brand (Begins (pairs will) brand.hand it.1) := by
  have hpos : 1 ≤ it.2 := by
    have hle := h.nonneg it (List.mem_of_getElem? hit)
    rw [Ne, ← Int8.toInt_inj] at hne
    rw [Int8.le_iff_toInt_le] at hle ⊢
    have hzero : (0 : Int8).toInt = 0 := rfl
    have hone : (1 : Int8).toInt = 1 := rfl
    omega
  rw [huTile, hit]
  dsimp only
  rw [if_neg hne]
  exact (takeTriplet_tries h hu_solves hit).orElse
    ((takePair_tries h hu_solves hit).orElse (takeRun_tells h hu_solves hit hpos))

/-! ### The loop -/

/-- The first tile that is counted is the smallest one. -/
private theorem least_of_first (h : brand.Valid) (hit : brand[i]? = some it)
    (hzero : ∀ j < i, ∀ it', brand[j]? = some it' → it'.2 = 0) {t : Int8} (ht : t ∈ brand.hand) : it.1 ≤ t := by
  obtain ⟨n, hmem, hn⟩ := (Brand.mem_hand h.nonneg).1 ht
  obtain ⟨j, hj⟩ := List.mem_iff_getElem?.1 hmem
  have hij : i ≤ j := by
    by_contra hlt
    exact hn (hzero j (by omega) _ hj)
  rcases Nat.lt_or_eq_of_le hij with hlt | rfl
  · obtain ⟨hi, rfl⟩ := List.getElem?_eq_some_iff.1 hit
    obtain ⟨hj', heq⟩ := List.getElem?_eq_some_iff.1 hj
    have := List.pairwise_iff_getElem.1 h.sorted i j hi hj' hlt
    rw [heq] at this
    exact Int8.le_of_lt this
  · obtain rfl := Option.some.inj (hit.symm.trans hj)
    exact Int8.le_refl _

/-- From any position on, only winning hands are found; and if nothing is counted before it, all of them. -/
theorem huLoop_tells (h : brand.Valid) (hu_solves : Solves hu (Multiset.card brand.hand)) {n : ℕ}
    (hn : i + n = brand.length) : ∃ won, huLoop hu will (List.range' i n) brand = some (won, brand) ∧
      (won = true → Wins (pairs will) brand.hand) ∧
      ((∀ j < i, ∀ it, brand[j]? = some it → it.2 = 0) → brand.hand ≠ 0 →
        Wins (pairs will) brand.hand → won = true) := by
  induction n generalizing i with
  | zero =>
    refine ⟨false, rfl, by simp, ?_⟩
    intro hzero hne
    obtain ⟨t, ht⟩ := Multiset.exists_mem_of_ne_zero hne
    obtain ⟨m, hmem, hm⟩ := (Brand.mem_hand h.nonneg).1 ht
    obtain ⟨j, hj⟩ := List.mem_iff_getElem?.1 hmem
    have hlt := (List.getElem?_eq_some_iff.1 hj).1
    exact absurd (hzero j (by omega) _ hj) hm
  | succ n ih =>
    obtain ⟨won, hloop, hsound, hcomplete⟩ := ih (i := i + 1) (by omega)
    have hit : brand[i]? = some brand[i] := List.getElem?_eq_getElem (by omega)
    rw [List.range'_succ, huLoop]
    by_cases hcount : brand[i].2 = 0
    · rw [huTile_zero hit hcount]
      refine ⟨won, hloop, hsound, ?_⟩
      intro hzero
      apply hcomplete
      intro j hj it hjt
      rcases Nat.lt_or_eq_of_le (Nat.le_of_lt_succ hj) with hj | rfl
      · exact hzero j hj it hjt
      · obtain rfl := Option.some.inj (hit.symm.trans hjt)
        exact hcount
    · have htile : Tells (huTile hu will i brand) brand _ := huTile_tells h hu_solves hit hcount
      by_cases hbegins : Begins (pairs will) brand.hand brand[i].1
      · rw [htile.1 hbegins]
        exact ⟨true, rfl, fun _ => hbegins.wins, fun _ _ _ => rfl⟩
      · have hlost : (∀ j < i, ∀ it, brand[j]? = some it → it.2 = 0) → ¬ Wins (pairs will) brand.hand := by
          intro hzero hwins
          have hmem : brand[i].1 ∈ brand.hand := (Brand.mem_hand h.nonneg).2 ⟨_, List.getElem_mem _, hcount⟩
          exact hbegins ((wins_iff_of_least hmem fun u hu => least_of_first h hit hzero hu).1 hwins)
        rcases htile.2 hbegins with heq | heq <;> rw [heq]
        · exact ⟨won, hloop, hsound, fun hzero _ hwins => absurd hwins (hlost hzero)⟩
        · exact ⟨false, rfl, by simp, fun hzero _ hwins => absurd hwins (hlost hzero)⟩

end

private theorem huBrand_solves (n : ℕ) : Solves (huBrand n) n := by
  induction n with
  | zero => exact fun _ _ _ hlt => absurd hlt (Nat.not_lt_zero _)
  | succ n ih =>
    intro brand will h hlt
    have hsum := getRemainRand_eq h
    rw [huBrand]
    by_cases hremain : getRemainRand brand ≤ 0
    · rw [if_pos hremain]
      rw [Int8.le_iff_toInt_le, hsum] at hremain
      have hcard : Multiset.card brand.hand = 0 := by
        have hzero : (0 : Int8).toInt = 0 := rfl
        omega
      refine ⟨true, rfl, fun _ => ?_, fun _ => rfl⟩
      rw [Multiset.card_eq_zero.1 hcard]
      exact wins_zero _
    · rw [if_neg hremain]
      have hne : brand.hand ≠ 0 := by
        intro hnil
        apply hremain
        rw [Int8.le_iff_toInt_le, hsum, hnil]
        exact le_rfl
      have hsolves : Solves (huBrand n) (Multiset.card brand.hand) := by
        intro brand' will' h' hlt'
        exact ih brand' will' h' (by omega)
      obtain ⟨won, hloop, hsound, hcomplete⟩ : ∃ won, huLoop (huBrand n) will _ brand = some (won, brand) ∧ _ ∧ _ :=
        huLoop_tells h hsolves (Nat.zero_add brand.length)
      rw [List.range_eq_range']
      exact ⟨won, hloop, hsound, hcomplete (fun j hj => absurd hj (Nat.not_lt_zero _)) hne⟩

/-- The call returns, true just for the winning hands, and the counts are as before. -/
theorem huBrand_iff (h : brand.Valid) (will : Bool) {fuel : ℕ} (hfuel : Multiset.card brand.hand < fuel) :
    ∃ won, huBrand fuel brand will = some (won, brand) ∧ (won = true ↔ Wins (if will then 0 else 1) brand.hand) :=
  huBrand_solves fuel brand will h hfuel

theorem huBrand_iff_run_and_pair :
    huBrand 6 [(1, 1), (2, 1), (3, 1), (31, 2)] false = some (true, [(1, 1), (2, 1), (3, 1), (31, 2)]) := by
  have hall : (([(1, 1), (2, 1), (3, 1), (31, 2)] : Brand).all fun it => it.1 ∈ tiles ∧ 0 ≤ it.2) = true := by decide
  have hvalid : ∀ it ∈ ([(1, 1), (2, 1), (3, 1), (31, 2)] : Brand), it.1 ∈ tiles ∧ 0 ≤ it.2 :=
    fun it hit => of_decide_eq_true (List.all_eq_true.1 hall it hit)
  obtain ⟨won, hcall, hwon⟩ := @huBrand_iff [(1, 1), (2, 1), (3, 1), (31, 2)]
    ⟨by decide, fun it hit => (hvalid it hit).1, fun it hit => (hvalid it hit).2, by decide⟩ false 6 (by decide)
  have hwins : Wins 1 (Brand.hand [(1, 1), (2, 1), (3, 1), (31, 2)]) := by
    refine ⟨[.run 1, .pair 31], ?_, by decide, by decide⟩
    intro group hgroup
    simp only [List.mem_cons, List.not_mem_nil, or_false] at hgroup
    rcases hgroup with rfl | rfl
    · exact (by decide : RunFrom 1)
    · trivial
  rw [hcall, hwon.2 hwins]

end Mahjong
