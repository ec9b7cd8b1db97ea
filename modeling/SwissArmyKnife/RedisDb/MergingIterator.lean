import Mathlib.Data.List.FinRange
import Mathlib.Data.List.Induction
import Mathlib.Logic.Function.Basic
import SwissArmyKnife.RedisDb.DbIter
import SwissArmyKnife.RedisDb.Iterator

/-!
# The merging iterator

`MergingIterator` walks through the entries of all its children in the order of their keys.  Going forward every child
is at its first entry from the current key on, going backward at its last entry up to the current key; when the
direction changes, the children other than the current one are moved over the current key.  It shows the sorted union
of what the children show (`run_mergingIterator`).
-/

namespace RedisDb

open Cursor (Place Call Increasing seek seekBack)

variable {σ κ ν : Type*} {n : ℕ}

/-- The results of a loop over all children, when each of them has one. -/
def forAll {α : Type*} (f : Fin n → Option α) : Option (Fin n → α) :=
  if h : ∀ i, (f i).isSome then some fun i => (f i).get (h i) else none

theorem forAll_eq_some {α : Type*} {f : Fin n → Option α} {g : Fin n → α} :
    forAll f = some g ↔ ∀ i, f i = some (g i) := by
  unfold forAll
  constructor
  · intro h i
    split at h
    · cases h
      simp
    · simp at h
  · intro h
    have hsome : ∀ i, (f i).isSome := fun i => by simp [h i]
    rw [dif_pos hsome]
    refine congrArg some (funext fun i => ?_)
    simp [h i]

structure MergingIterator (n : ℕ) (σ κ : Type*) where
  children : Fin n → IteratorWrapper σ κ
  current : Option (Fin n)
  direction : Direction

namespace MergingIterator

variable (it : Iterator σ κ ν) (cmp : κ → κ → Ordering)

def new (child : Fin n → σ) : MergingIterator n σ κ := ⟨fun i => .new it (child i), none, .kForward⟩

def Valid (m : MergingIterator n σ κ) : Bool := m.current.isSome

def key (m : MergingIterator n σ κ) : Option κ := m.current.bind fun i => (m.children i).key

def value (m : MergingIterator n σ κ) : Option ν := m.current.bind fun i => (m.children i).value it

/-- The status of the first child that has one that is not OK. -/
def status (m : MergingIterator n σ κ) : Status :=
  ((List.finRange n).findSome? fun i => ((m.children i).status it).filter fun s => !s.ok).getD .OK

/-- The loop of `findSmallest` and `findLargest`: of the valid children in the order given the first one that no later
one is better than. -/
def findBest (better : κ → κ → Bool) (children : Fin n → IteratorWrapper σ κ) (order : List (Fin n)) :
    Option (Fin n) :=
  order.foldl (fun best i =>
    if (children i).Valid then
      match best with
      | none => some i
      | some b =>
        match (children i).key, (children b).key with
        | some k, some k' => if better k k' then some i else some b
        | _, _ => some b
    else best) none

def findSmallest (children : Fin n → IteratorWrapper σ κ) : Option (Fin n) :=
  findBest (fun k k' => (cmp k k').isLT) children (List.finRange n)

def findLargest (children : Fin n → IteratorWrapper σ κ) : Option (Fin n) :=
  findBest (fun k k' => (cmp k k').isGT) children (List.finRange n).reverse

def SeekToFirst (m : MergingIterator n σ κ) : Option (MergingIterator n σ κ) :=
  (forAll fun i => (m.children i).SeekToFirst it).map fun children =>
    ⟨children, findSmallest cmp children, .kForward⟩

def SeekToLast (m : MergingIterator n σ κ) : Option (MergingIterator n σ κ) :=
  (forAll fun i => (m.children i).SeekToLast it).map fun children =>
    ⟨children, findLargest cmp children, .kReverse⟩

def Seek (m : MergingIterator n σ κ) (target : κ) : Option (MergingIterator n σ κ) :=
  (forAll fun i => (m.children i).Seek it target).map fun children =>
    ⟨children, findSmallest cmp children, .kForward⟩

/-- Moves a child behind the key. -/
def moveAfter (key : κ) (child : IteratorWrapper σ κ) : Option (IteratorWrapper σ κ) :=
  (child.Seek it key).bind fun child =>
    if child.Valid then
      child.key.bind fun k => if cmp key k = .eq then child.Next it else some child
    else some child

/-- Moves a child before the key. -/
def moveBefore (key : κ) (child : IteratorWrapper σ κ) : Option (IteratorWrapper σ κ) :=
  (child.Seek it key).bind fun child =>
    -- The child is at its first entry from the key on, or has none.
    if child.Valid then child.Prev it else child.SeekToLast it

/-- The loop over the children other than the current one. -/
def moveOthers (move : IteratorWrapper σ κ → Option (IteratorWrapper σ κ)) (i : Fin n)
    (children : Fin n → IteratorWrapper σ κ) : Option (Fin n → IteratorWrapper σ κ) :=
  forAll fun j => if j = i then some (children j) else move (children j)

/-- `Next`; there is no result when an assertion fails. -/
def Next (m : MergingIterator n σ κ) : Option (MergingIterator n σ κ) :=
  m.current.bind fun i =>
    (if m.direction = .kForward then some m.children
      else m.key.bind fun key => moveOthers (moveAfter it cmp key) i m.children).bind fun children =>
        ((children i).Next it).map fun child =>
          let children := Function.update children i child
          ⟨children, findSmallest cmp children, .kForward⟩

/-- `Prev`; there is no result when an assertion fails. -/
def Prev (m : MergingIterator n σ κ) : Option (MergingIterator n σ κ) :=
  m.current.bind fun i =>
    (if m.direction = .kReverse then some m.children
      else m.key.bind fun key => moveOthers (moveBefore it key) i m.children).bind fun children =>
        ((children i).Prev it).map fun child =>
          let children := Function.update children i child
          ⟨children, findLargest cmp children, .kReverse⟩

/-- The merging iterator is an iterator again. -/
def iterator : Iterator (MergingIterator n σ κ) κ ν where
  Valid := Valid
  key := key
  value := value it
  status := status it
  Seek m target := m.Seek it cmp target
  SeekToFirst m := m.SeekToFirst it cmp
  SeekToLast m := m.SeekToLast it cmp
  Next m := m.Next it cmp
  Prev m := m.Prev it cmp

/-- The entries of all lists in the order of their keys. -/
def sortedUnion (lists : Fin n → List (κ × ν)) : List (κ × ν) :=
  (List.ofFn lists).flatten.mergeSort fun a b => (cmp a.1 b.1).isLE

/-! ### The best of the children -/

section Best

variable {better : κ → κ → Bool} {children : Fin n → IteratorWrapper σ κ}

/-- None of the children has a key that is better than that of the best one. -/
private def IsBest (better : κ → κ → Bool) (children : Fin n → IteratorWrapper σ κ) (order : List (Fin n)) :
    Option (Fin n) → Prop
  | none => ∀ i ∈ order, (children i).key = none
  | some b => ∃ k, (children b).key = some k ∧ ∀ i ∈ order, ∀ k' ∈ (children i).key, better k' k = false

private theorem isBest_findBest (htrans : ∀ a b c, better a b = true → better b c = true → better a c = true)
    (hirrefl : ∀ a, better a a = false) (hvalid : ∀ i, (children i).Valid = (children i).key.isSome)
    (order : List (Fin n)) : IsBest better children order (findBest better children order) := by
  induction order using List.reverseRecOn with
  | nil => simp [findBest, IsBest]
  | append_singleton order i ih =>
    rw [findBest, List.foldl_append, List.foldl_cons, List.foldl_nil, ← findBest, hvalid]
    cases hkey : (children i).key with
    | none =>
      -- A child without a key changes nothing.
      cases hbest : findBest better children order with
      | none =>
        rw [hbest] at ih
        exact List.forall_mem_append.2 ⟨ih, by simpa using hkey⟩
      | some b =>
        rw [hbest] at ih
        obtain ⟨k, hk, hleast⟩ := ih
        exact ⟨k, hk, List.forall_mem_append.2 ⟨hleast, by simp [hkey]⟩⟩
    | some k =>
      cases hbest : findBest better children order with
      | none =>
        rw [hbest] at ih
        refine ⟨k, hkey, List.forall_mem_append.2 ⟨fun j hj k' hk' => ?_, by simp [hkey, hirrefl]⟩⟩
        simp [ih j hj] at hk'
      | some b =>
        rw [hbest] at ih
        obtain ⟨kb, hkb, hleast⟩ := ih
        simp only [Option.isSome_some, if_true, hkb]
        by_cases hbetter : better k kb = true
        · rw [if_pos hbetter]
          refine ⟨k, hkey, List.forall_mem_append.2 ⟨fun j hj k' hk' => ?_, by simp [hkey, hirrefl]⟩⟩
          by_contra hnot
          have := htrans k' k kb (by simpa using hnot) hbetter
          simp [hleast j hj k' hk'] at this
        · rw [if_neg hbetter]
          exact ⟨kb, hkb, List.forall_mem_append.2 ⟨hleast, by simpa [hkey] using hbetter⟩⟩

end Best

/-! ### The sorted union -/

section Union

variable {cmp} [Std.TransCmp cmp] {lists : Fin n → List (κ × ν)}

omit [Std.TransCmp cmp] in
theorem mem_sortedUnion {e : κ × ν} : e ∈ sortedUnion cmp lists ↔ ∃ i, e ∈ lists i := by
  simp [sortedUnion]

theorem increasing_sortedUnion (hsorted : ∀ i, Increasing cmp (lists i))
    (hdistinct : ∀ i j, i ≠ j → ∀ a ∈ lists i, ∀ b ∈ lists j, cmp a.1 b.1 ≠ .eq) :
    Increasing cmp (sortedUnion cmp lists) := by
  have hle : (sortedUnion cmp lists).Pairwise fun a b => (cmp a.1 b.1).isLE = true := by
    refine List.pairwise_mergeSort (fun a b c hab hbc => ?_) (fun a b => ?_) _
    · have htrans : (cmp a.1 c.1).isLE = true := Std.TransCmp.isLE_trans hab hbc
      exact htrans
    · have hswap : (cmp b.1 a.1).isLE = (cmp a.1 b.1).isGE := Std.OrientedCmp.isGE_eq_isLE.symm
      rw [hswap]
      cases cmp a.1 b.1 <;> rfl
  have hne : (sortedUnion cmp lists).Pairwise fun a b => cmp a.1 b.1 ≠ .eq := by
    have hsymm : ∀ {a b : κ × ν}, cmp a.1 b.1 ≠ .eq → cmp b.1 a.1 ≠ .eq :=
      fun hab hba => hab (Std.OrientedCmp.eq_symm hba)
    refine ((List.mergeSort_perm _ _).pairwise_iff hsymm).2 (List.pairwise_flatten.2 ⟨?_, ?_⟩)
    · intro l hl
      obtain ⟨i, rfl⟩ := List.mem_ofFn.1 hl
      exact (hsorted i).imp fun hlt heq => by simp [hlt] at heq
    · exact List.pairwise_ofFn.2 fun i j hij => hdistinct i j hij.ne
  refine (hle.and hne).imp fun {a b} h => ?_
  rcases Ordering.isLE_iff_eq_lt_or_eq_eq.1 h.1 with hlt | heq
  · exact hlt
  · exact absurd heq h.2

end Union

/-! ### Where the children stand -/

section Stands

open IteratorWrapper (At)

variable {it cmp} [Std.TransCmp cmp] {lists : Fin n → List (κ × ν)} {R : Fin n → σ → Option (Place (κ × ν)) → Prop}

/-- The children are in order, and no two of them share a key. -/
structure Apart (cmp : κ → κ → Ordering) (lists : Fin n → List (κ × ν)) : Prop where
  sorted : ∀ i, Increasing cmp (lists i)
  distinct : ∀ i j, i ≠ j → ∀ a ∈ lists i, ∀ b ∈ lists j, cmp a.1 b.1 ≠ .eq

/-- Entries of the union with equal keys are one entry. -/
private theorem Apart.eq_of_key (h : Apart cmp lists) {a b : κ × ν} (ha : a ∈ sortedUnion cmp lists)
    (hb : b ∈ sortedUnion cmp lists) (hkey : cmp a.1 b.1 = .eq) : a = b := by
  have hinc := increasing_sortedUnion h.sorted h.distinct
  have : Std.Symm fun a b : κ × ν => cmp a.1 b.1 ≠ .eq := ⟨fun _ _ hab hba => hab (Std.OrientedCmp.eq_symm hba)⟩
  have hapart : (sortedUnion cmp lists).Pairwise fun a b => cmp a.1 b.1 ≠ .eq :=
    hinc.imp fun hlt heq => by simp [hlt] at heq
  by_contra hne
  exact hapart.forall ha hb hne hkey

/-- The child holds the entry of the place. -/
private def Holds (lists : Fin n → List (κ × ν)) (ps : Fin n → Option (Place (κ × ν))) :
    Option (Place (κ × ν)) → Option (Fin n) → Prop
  | none, i => i = none
  | some P, i => ∃ j pj, i = some j ∧ ps j = some pj ∧ pj.toList = lists j ∧ pj.current = P.current

/-- The best of the children is the best of the union. -/
private theorem findBest_at (h : Apart cmp lists) (rel : κ → κ → Ordering) [Std.TransCmp rel]
    (hrel : ∀ a b, rel a b = .eq ↔ cmp a b = .eq) {q : κ × ν → Bool} {children : Fin n → IteratorWrapper σ κ}
    {ps : Fin n → Option (Place (κ × ν))} (hat : ∀ i, At (R i) (children i) (ps i))
    (hps : ∀ i, Cursor.Finds rel q (lists i) (ps i)) {p : Option (Place (κ × ν))}
    (hp : Cursor.Finds rel q (sortedUnion cmp lists) p) {order : List (Fin n)} (hall : ∀ i, i ∈ order) :
    Holds lists ps p (findBest (fun k k' => (rel k k').isLT) children order) := by
  have hkeys : ∀ i, (children i).key = (ps i).map fun p => p.current.1 := by
    intro i
    cases hpi : ps i with
    | none => simp [IteratorWrapper.key, (hat i).vali, hpi]
    | some pi =>
      have hi := hat i
      rw [hpi] at hi
      exact hi.key_eq
  have hbest : IsBest (fun k k' => (rel k k').isLT) children order
      (findBest (fun k k' => (rel k k').isLT) children order) :=
    isBest_findBest (fun a b c hab hbc => ?_) (fun a => ?_) (fun i => ?_) order
  · cases hfound : findBest (fun k k' => (rel k k').isLT) children order with
    | none =>
      rw [hfound] at hbest
      cases p with
      | none => rfl
      | some P =>
        obtain ⟨-, hPmem, hq⟩ := hp.current
        obtain ⟨i, hi⟩ := mem_sortedUnion.1 hPmem
        obtain ⟨pi, hpi, -⟩ := (hps i).exists_place hi hq
        have hnone : ps i = none := by simpa [hkeys] using hbest i (hall i)
        rw [hnone] at hpi
        cases hpi
    | some i =>
      rw [hfound] at hbest
      obtain ⟨k, hk, hleast⟩ := hbest
      rw [hkeys, Option.map_eq_some_iff] at hk
      obtain ⟨pi, hpi, rfl⟩ := hk
      obtain ⟨hlisti, hmemi, hqi⟩ := Cursor.Finds.current (hpi ▸ hps i)
      have hmem : pi.current ∈ sortedUnion cmp lists := mem_sortedUnion.2 ⟨i, hmemi⟩
      obtain ⟨P, rfl, hfirst⟩ := hp.exists_place hmem hqi
      obtain ⟨-, hPmem, hq⟩ := hp.current
      obtain ⟨j, hj⟩ := mem_sortedUnion.1 hPmem
      refine ⟨i, pi, rfl, hpi, hlisti, h.eq_of_key hmem hPmem ?_⟩
      -- The best entry of the child of `P` is not after `P`, and not before the best entry of all.
      obtain ⟨pj, hpj, hbefore⟩ := (hps j).exists_place hj hq
      have hnot : (rel pj.current.1 pi.current.1).isLT = false := hleast j (hall j) _ (by simp [hkeys, hpj])
      have hge : (rel pi.current.1 pj.current.1).isLE := by
        rw [← Std.OrientedCmp.isGE_eq_isLE, ← Ordering.not_isLT_eq_isGE, hnot]
        rfl
      have hle := Std.TransCmp.isLE_trans hge hbefore
      refine (hrel _ _).1 (Ordering.eq_eq_of_isLE_of_isGE hle ?_)
      rwa [Std.OrientedCmp.isGE_eq_isLE]
  · simp only [Ordering.isLT_iff_eq_lt] at *
    exact Std.TransCmp.lt_trans hab hbc
  · have hself : rel a a = .eq := Std.ReflCmp.compare_self
    simp [hself]
  · cases hpi : ps i with
    | none => simp [hkeys, hpi, IteratorWrapper.Valid, (hat i).vali]
    | some pi => simp [hkeys, hpi, IteratorWrapper.Valid, (hat i).vali]

/-- At a place forward every child is at its first entry from the current key on, backward at its last one up to
it. -/
structure Placed (cmp : κ → κ → Ordering) (lists : Fin n → List (κ × ν))
    (R : Fin n → σ → Option (Place (κ × ν)) → Prop) (m : MergingIterator n σ κ) (P : Place (κ × ν))
    (ps : Fin n → Option (Place (κ × ν))) : Prop where
  list : P.toList = sortedUnion cmp lists
  children : ∀ i, At (R i) (m.children i) (ps i)
  current : ∃ i pi, m.current = some i ∧ ps i = some pi ∧ pi.toList = lists i ∧ pi.current = P.current
  forward : m.direction = .kForward → ∀ j, ps j = seek (fun e => (cmp e.1 P.current.1).isGE) (lists j)
  reverse : m.direction = .kReverse → ∀ j, ps j = seekBack (fun e => (cmp e.1 P.current.1).isLE) (lists j)

/-- Where the children stand when the merging iterator is at the place. -/
def Stands (cmp : κ → κ → Ordering) (lists : Fin n → List (κ × ν))
    (R : Fin n → σ → Option (Place (κ × ν)) → Prop) (m : MergingIterator n σ κ) : Option (Place (κ × ν)) → Prop
  | none => m.current = none ∧ ∃ ps : Fin n → Option (Place (κ × ν)), ∀ i, At (R i) (m.children i) (ps i)
  | some P => ∃ ps, Placed cmp lists R m P ps

private theorem stands_findSmallest (h : Apart cmp lists) {q : κ × ν → Bool}
    (hq : ∀ a b : κ × ν, (cmp a.1 b.1).isLE = true → q a = true → q b = true)
    {children : Fin n → IteratorWrapper σ κ} (hat : ∀ i, At (R i) (children i) (seek q (lists i))) :
    Stands cmp lists R ⟨children, findSmallest cmp children, .kForward⟩ (seek q (sortedUnion cmp lists)) := by
  have hfinds := Cursor.finds_seek (increasing_sortedUnion h.sorted h.distinct) q
  have hbest := findBest_at h cmp (fun _ _ => Iff.rfl) hat (fun i => Cursor.finds_seek (h.sorted i) q)
    hfinds List.mem_finRange
  cases hp : seek q (sortedUnion cmp lists) with
  | none =>
    rw [hp] at hbest
    exact ⟨hbest, _, hat⟩
  | some P =>
    rw [hp] at hbest hfinds
    obtain ⟨hlist, hqP, hleast⟩ := hfinds
    refine ⟨_, hlist, hat, hbest, fun _ j => Cursor.seek_congr fun a ha => ?_, by rintro ⟨⟩⟩
    rw [Bool.eq_iff_iff, Std.OrientedCmp.isGE_eq_isLE]
    exact ⟨hleast a (mem_sortedUnion.2 ⟨j, ha⟩), fun hle => hq _ _ hle hqP⟩

private theorem stands_findLargest (h : Apart cmp lists) {q : κ × ν → Bool}
    (hq : ∀ a b : κ × ν, (cmp b.1 a.1).isLE = true → q a = true → q b = true)
    {children : Fin n → IteratorWrapper σ κ} (hat : ∀ i, At (R i) (children i) (seekBack q (lists i))) :
    Stands cmp lists R ⟨children, findLargest cmp children, .kReverse⟩ (seekBack q (sortedUnion cmp lists)) := by
  have hfinds := Cursor.finds_seekBack (increasing_sortedUnion h.sorted h.distinct) q
  have hbest := findBest_at h (fun a b => cmp b a) (fun _ _ => Std.OrientedCmp.eq_comm) hat
    (fun i => Cursor.finds_seekBack (h.sorted i) q) hfinds fun i => List.mem_reverse.2 (List.mem_finRange i)
  have hflip : findLargest cmp children =
      findBest (fun k k' => (cmp k' k).isLT) children (List.finRange n).reverse := by
    unfold findLargest
    congr 1
    funext k k'
    exact Std.OrientedCmp.isGT_eq_isLT
  rw [← hflip] at hbest
  cases hp : seekBack q (sortedUnion cmp lists) with
  | none =>
    rw [hp] at hbest
    exact ⟨hbest, _, hat⟩
  | some P =>
    rw [hp] at hbest hfinds
    obtain ⟨hlist, hqP, hmost⟩ := hfinds
    refine ⟨_, hlist, hat, hbest, by rintro ⟨⟩, fun _ j => Cursor.seekBack_congr fun a ha => ?_⟩
    rw [Bool.eq_iff_iff]
    exact ⟨hmost a (mem_sortedUnion.2 ⟨j, ha⟩), fun hle => hq _ _ hle hqP⟩

/-! ### The calls -/

private theorem forAll_at {f : Fin n → Option (IteratorWrapper σ κ)} {ps : Fin n → Option (Place (κ × ν))}
    (h : ∀ i, ∃ w, f i = some w ∧ At (R i) w (ps i)) :
    ∃ children, forAll f = some children ∧ ∀ i, At (R i) (children i) (ps i) := by
  choose children hf hat using h
  exact ⟨children, forAll_eq_some.2 hf, hat⟩

private theorem exists_moveOthers {move : IteratorWrapper σ κ → Option (IteratorWrapper σ κ)} {i : Fin n}
    {children : Fin n → IteratorWrapper σ κ} {qs : Fin n → Option (Place (κ × ν))}
    (h : ∀ j, j ≠ i → ∃ w, move (children j) = some w ∧ At (R j) w (qs j)) :
    ∃ children', moveOthers move i children = some children' ∧ children' i = children i ∧
      ∀ j, j ≠ i → At (R j) (children' j) (qs j) := by
  have hall : ∀ j, ∃ w, (if j = i then some (children j) else move (children j)) = some w ∧
      (j = i → w = children j) ∧ (j ≠ i → At (R j) w (qs j)) := by
    intro j
    by_cases hj : j = i
    · exact ⟨children j, if_pos hj, fun _ => rfl, fun h => absurd hj h⟩
    · obtain ⟨w, hw, hat⟩ := h j hj
      exact ⟨w, (if_neg hj).trans hw, fun h => absurd h hj, fun _ => hat⟩
  choose children' hf hsame hat using hall
  exact ⟨children', forAll_eq_some.2 hf, hsame i rfl, hat⟩

variable {child : IteratorWrapper σ κ} {l : List (κ × ν)} {S : σ → Option (Place (κ × ν)) → Prop}
  {p : Option (Place (κ × ν))}

/-- A child that is moved after the key is at its first larger key. -/
private theorem moveAfter_at (hit : it.Shows cmp l S) (hl : Increasing cmp l) (hw : At S child p) (key : κ) :
    ∃ w, moveAfter it cmp key child = some w ∧ At S w (seek (fun e => (cmp e.1 key).isGT) l) := by
  obtain ⟨w, hcall, hat⟩ := hw.call hit (c := .Seek key) rfl
  have hseek : child.Seek it key = some w := hcall
  rw [moveAfter, hseek, Option.bind_some]
  cases hp : seek (fun e => (cmp e.1 key).isGE) l with
  | none =>
    rw [hp] at hat
    have hnone : seek (fun e => (cmp e.1 key).isGT) l = none := by
      rw [Cursor.seek_eq_none] at hp ⊢
      intro e he
      have := hp e he
      cases hcmp : cmp e.1 key <;> simp_all
    rw [hnone]
    exact ⟨w, by simp [IteratorWrapper.Valid, hat.vali], hat⟩
  | some P =>
    rw [hp] at hat
    obtain ⟨hlist, hge⟩ := Cursor.seek_some hp
    simp only [IteratorWrapper.Valid, hat.vali, Option.isSome_some, if_true, hat.key_eq, Option.bind_some]
    by_cases heq : cmp key P.current.1 = .eq
    · rw [if_pos heq]
      obtain ⟨w', hcall', hat'⟩ := hat.call hit (c := .Next) rfl
      refine ⟨w', hcall', ?_⟩
      rw [Cursor.next_eq_seek hl hlist] at hat'
      rwa [Cursor.seek_congr fun a _ => congrArg Ordering.isGT (Std.TransCmp.congr_right heq)]
    · rw [if_neg heq]
      refine ⟨w, rfl, ?_⟩
      have hsame : ∀ a ∈ l, (cmp a.1 key).isGT = (cmp a.1 key).isGE := by
        intro a ha
        cases hcmp : cmp a.1 key with
        | lt => rfl
        | gt => rfl
        | eq =>
          -- The first entry from the key on is up to `a`, so it has the key too.
          have hfinds := Cursor.finds_seek hl fun e => (cmp e.1 key).isGE
          rw [hp] at hfinds
          have hle := hfinds.2.2 a ha (by simp [hcmp])
          rw [Std.TransCmp.congr_right hcmp] at hle
          exact absurd (Std.OrientedCmp.eq_symm (Ordering.eq_eq_of_isLE_of_isGE hle hge)) heq
      rwa [Cursor.seek_congr hsame, hp]

/-- A child that is moved before the key is at its last smaller key. -/
private theorem moveBefore_at (hit : it.Shows cmp l S) (hl : Increasing cmp l) (hw : At S child p)
    (key : κ) : ∃ w, moveBefore it key child = some w ∧ At S w (seekBack (fun e => (cmp e.1 key).isLT) l) := by
  obtain ⟨w, hcall, hat⟩ := hw.call hit (c := .Seek key) rfl
  have hseek : child.Seek it key = some w := hcall
  have hflip : seekBack (fun e => !(cmp e.1 key).isGE) l = seekBack (fun e => (cmp e.1 key).isLT) l :=
    Cursor.seekBack_congr fun a _ => Ordering.not_isGE_eq_isLT
  rw [moveBefore, hseek, Option.bind_some]
  cases hp : seek (fun e => (cmp e.1 key).isGE) l with
  | none =>
    rw [hp] at hat
    obtain ⟨w', hcall', hat'⟩ := hat.call hit (c := .SeekToLast) rfl
    rw [Cursor.last_of_seek_none (hl.cut_isGE key) hp, hflip] at hat'
    exact ⟨w', by simpa [IteratorWrapper.Valid, IteratorWrapper.call, hat.vali] using hcall', hat'⟩
  | some P =>
    rw [hp] at hat
    obtain ⟨w', hcall', hat'⟩ := hat.call hit (c := .Prev) rfl
    rw [Cursor.seek_prev (hl.cut_isGE key) hp, hflip] at hat'
    exact ⟨w', by simpa [IteratorWrapper.Valid, IteratorWrapper.call, hat.vali] using hcall', hat'⟩

omit [Std.TransCmp cmp] in
/-- The key of the current child is none of the keys of the others. -/
private theorem Apart.ne_of_mem (h : Apart cmp lists) {i j : Fin n} (hj : j ≠ i) {pi : Place (κ × ν)}
    (hlist : pi.toList = lists i) {a : κ × ν} (ha : a ∈ lists j) : cmp a.1 pi.current.1 ≠ .eq :=
  h.distinct j i hj a ha pi.current (hlist ▸ by simp [Place.toList])

private theorem update_at {i : Fin n} {children : Fin n → IteratorWrapper σ κ} {qs : Fin n → Option (Place (κ × ν))}
    (hothers : ∀ j, j ≠ i → At (R j) (children j) (qs j)) (hchild : At (R i) child (qs i)) :
    ∀ j, At (R j) (Function.update children i child j) (qs j) := by
  intro j
  by_cases hj : j = i
  · subst hj
    simpa using hchild
  · simpa [hj] using hothers j hj

variable {m : MergingIterator n σ κ} {P : Place (κ × ν)}

private theorem next_stands (h : Apart cmp lists) (hit : ∀ i, it.Shows cmp (lists i) (R i))
    (hm : Stands cmp lists R m (some P)) :
    ∃ m', m.Next it cmp = some m' ∧ Stands cmp lists R m' P.next := by
  obtain ⟨ps, hm⟩ := hm
  obtain ⟨i, pi, hcur, hpi, hlist, hkey⟩ := hm.current
  have hat := hm.children i
  rw [hpi] at hat
  obtain ⟨children, hmoved, hsame, hothers⟩ : ∃ children : Fin n → IteratorWrapper σ κ,
      (if m.direction = .kForward then some m.children
        else m.key.bind fun key => moveOthers (moveAfter it cmp key) i m.children) = some children ∧
      children i = m.children i ∧
      ∀ j, j ≠ i → At (R j) (children j) (seek (fun e => (cmp e.1 P.current.1).isGT) (lists j)) := by
    by_cases hdir : m.direction = .kForward
    · refine ⟨m.children, if_pos hdir, rfl, fun j hj => ?_⟩
      have hatj := hm.children j
      rw [hm.forward hdir j] at hatj
      rwa [Cursor.seek_congr fun a ha => ?_]
      have hne := h.ne_of_mem hj hlist ha
      rw [hkey] at hne
      revert hne
      cases cmp a.1 P.current.1 <;> simp
    · rw [if_neg hdir, key, hcur, Option.bind_some, hat.key_eq, Option.bind_some, hkey]
      exact exists_moveOthers fun j _ => moveAfter_at (hit j) (h.sorted j) (hm.children j) _
  obtain ⟨child, hcall, hchild⟩ := hat.call (hit i) (c := .Next) rfl
  rw [Cursor.next_eq_seek (h.sorted i) hlist, hkey] at hchild
  refine ⟨⟨Function.update children i child, findSmallest cmp (Function.update children i child), .kForward⟩, ?_, ?_⟩
  · rw [Next, hcur, Option.bind_some, hmoved, Option.bind_some, hsame]
    exact congrArg (Option.map _) hcall
  · rw [Cursor.next_eq_seek (increasing_sortedUnion h.sorted h.distinct) hm.list]
    refine stands_findSmallest h (fun a b hab ha => ?_) (update_at hothers hchild)
    rw [Ordering.isGT_iff_eq_gt] at ha ⊢
    exact Std.TransCmp.gt_of_isGE_of_gt (Std.OrientedCmp.isGE_of_isLE hab) ha

private theorem prev_stands (h : Apart cmp lists) (hit : ∀ i, it.Shows cmp (lists i) (R i))
    (hm : Stands cmp lists R m (some P)) :
    ∃ m', m.Prev it cmp = some m' ∧ Stands cmp lists R m' P.prev := by
  obtain ⟨ps, hm⟩ := hm
  obtain ⟨i, pi, hcur, hpi, hlist, hkey⟩ := hm.current
  have hat := hm.children i
  rw [hpi] at hat
  obtain ⟨children, hmoved, hsame, hothers⟩ : ∃ children : Fin n → IteratorWrapper σ κ,
      (if m.direction = .kReverse then some m.children
        else m.key.bind fun key => moveOthers (moveBefore it key) i m.children) = some children ∧
      children i = m.children i ∧
      ∀ j, j ≠ i → At (R j) (children j) (seekBack (fun e => (cmp e.1 P.current.1).isLT) (lists j)) := by
    by_cases hdir : m.direction = .kReverse
    · refine ⟨m.children, if_pos hdir, rfl, fun j hj => ?_⟩
      have hatj := hm.children j
      rw [hm.reverse hdir j] at hatj
      rwa [Cursor.seekBack_congr fun a ha => ?_]
      have hne := h.ne_of_mem hj hlist ha
      rw [hkey] at hne
      revert hne
      cases cmp a.1 P.current.1 <;> simp
    · rw [if_neg hdir, key, hcur, Option.bind_some, hat.key_eq, Option.bind_some, hkey]
      exact exists_moveOthers fun j _ => moveBefore_at (hit j) (h.sorted j) (hm.children j) _
  obtain ⟨child, hcall, hchild⟩ := hat.call (hit i) (c := .Prev) rfl
  rw [Cursor.prev_eq_seekBack (h.sorted i) hlist, hkey] at hchild
  refine ⟨⟨Function.update children i child, findLargest cmp (Function.update children i child), .kReverse⟩, ?_, ?_⟩
  · rw [Prev, hcur, Option.bind_some, hmoved, Option.bind_some, hsame]
    exact congrArg (Option.map _) hcall
  · rw [Cursor.prev_eq_seekBack (increasing_sortedUnion h.sorted h.distinct) hm.list]
    refine stands_findLargest h (fun a b hba ha => ?_) (update_at hothers hchild)
    rw [Ordering.isLT_iff_eq_lt] at ha ⊢
    exact Std.TransCmp.lt_of_isLE_of_lt hba ha

/-- The merging iterator shows the sorted union of what its children show. -/
theorem iterator_shows (h : Apart cmp lists) (hit : ∀ i, it.Shows cmp (lists i) (R i)) :
    (iterator (n := n) it cmp).Shows cmp (sortedUnion cmp lists) (Stands cmp lists R) where
  valid := by
    rintro m (_ | P) hm
    · simp [iterator, Valid, hm.1]
    · obtain ⟨ps, hm⟩ := hm
      obtain ⟨i, pi, hcur, -⟩ := hm.current
      simp [iterator, Valid, hcur]
  key := by
    rintro m P ⟨ps, hm⟩
    obtain ⟨i, pi, hcur, hpi, -, hkey⟩ := hm.current
    have hat := hm.children i
    rw [hpi] at hat
    simp [iterator, key, hcur, hat.key_eq, hkey]
  value := by
    rintro m P ⟨ps, hm⟩
    obtain ⟨i, pi, hcur, hpi, -, hkey⟩ := hm.current
    have hat := hm.children i
    rw [hpi] at hat
    simp [iterator, value, hcur, hat.value_eq (hit i), hkey]
  call := by
    intro m p c p' hm hcall
    have hchildren : ∃ ps : Fin n → Option (Place (κ × ν)), ∀ i, At (R i) (m.children i) (ps i) := by
      cases p with
      | none => exact hm.2
      | some P => exact hm.imp fun ps hm => hm.children
    obtain ⟨ps, hat⟩ := hchildren
    cases c with
    | Seek target =>
      cases hcall
      obtain ⟨children, hmoved, hat'⟩ := forAll_at (f := fun i => (m.children i).Seek it target)
        fun i => (hat i).call (hit i) (c := .Seek target) rfl
      refine ⟨_, congrArg (Option.map _) hmoved, stands_findSmallest h (fun a b hab ha => ?_) hat'⟩
      exact Std.TransCmp.isGE_trans (Std.OrientedCmp.isGE_of_isLE hab) ha
    | SeekToFirst =>
      cases hcall
      obtain ⟨children, hmoved, hat'⟩ := forAll_at (f := fun i => (m.children i).SeekToFirst it)
        fun i => (hat i).call (hit i) (c := .SeekToFirst) rfl
      simp only [Cursor.first_eq_seek] at hat' ⊢
      exact ⟨_, congrArg (Option.map _) hmoved, stands_findSmallest h (fun _ _ _ _ => rfl) hat'⟩
    | SeekToLast =>
      cases hcall
      obtain ⟨children, hmoved, hat'⟩ := forAll_at (f := fun i => (m.children i).SeekToLast it)
        fun i => (hat i).call (hit i) (c := .SeekToLast) rfl
      simp only [Cursor.last_eq_seekBack] at hat' ⊢
      exact ⟨_, congrArg (Option.map _) hmoved, stands_findLargest h (fun _ _ _ _ => rfl) hat'⟩
    | Next =>
      obtain ⟨P, rfl, rfl⟩ := Option.map_eq_some_iff.1 hcall
      exact next_stands h hit hm
    | Prev =>
      obtain ⟨P, rfl, rfl⟩ := Option.map_eq_some_iff.1 hcall
      exact prev_stands h hit hm

omit [Std.TransCmp cmp] in
theorem new_stands (hit : ∀ i, it.Shows cmp (lists i) (R i)) {child : Fin n → σ}
    (hchild : ∀ i, ∃ p, R i (child i) p) : Stands cmp lists R (new it child) none := by
  choose ps hR using hchild
  exact ⟨rfl, ps, fun i => IteratorWrapper.at_update (hit i) _ (hR i)⟩

/-- After any calls, `Next` and `Prev` being called at an entry only, the merging iterator is where a cursor over the
sorted union is, in which every entry of the children stands once and in order. -/
theorem run_mergingIterator (h : Apart cmp lists) (hit : ∀ i, it.Shows cmp (lists i) (R i)) {child : Fin n → σ}
    (hchild : ∀ i, ∃ p, R i (child i) p) {calls : List (Call κ)} {p : Option (Place (κ × ν))}
    (hrun : Cursor.run cmp (sortedUnion cmp lists) none calls = some p) :
    (∃ m, (iterator it cmp).run (new it child) calls = some m ∧ (iterator it cmp).Looks m p) ∧
      (sortedUnion cmp lists).Perm (List.ofFn lists).flatten ∧ Increasing cmp (sortedUnion cmp lists) := by
  refine ⟨?_, List.mergeSort_perm _ _, increasing_sortedUnion h.sorted h.distinct⟩
  obtain ⟨m, hm, hstands⟩ := (iterator_shows h hit).run (new_stands hit hchild) hrun
  exact ⟨m, hm, (iterator_shows h hit).looks hstands⟩

theorem run_mergingIterator_two :
    ∃ m, (iterator (.ofList compare) compare).run
        (new (.ofList compare) fun i => ⟨[[(1, 10), (4, 40)], [(2, 20)]].get i, .OK, none⟩)
        [.SeekToFirst, .Next, .Next, .Prev, .Prev, .Next] = some m ∧
      (iterator (.ofList compare) compare).Looks m (some ⟨[(1, 10)], (2, 20), [(4, 40)]⟩) := by
  have hunion : sortedUnion compare [[(1, 10), (4, 40)], [(2, 20)]].get = [(1, 10), (2, 20), (4, 40)] := by
    simp [sortedUnion, List.mergeSort, List.MergeSort.Internal.splitInTwo, compare, compareOfLessAndEq]
  have hapart : Apart compare [[(1, 10), (4, 40)], [(2, 20)]].get := by
    refine ⟨fun i => ?_, by decide⟩
    match i with
    | 0 => exact List.pairwise_pair.2 rfl
    | 1 => exact List.pairwise_singleton ..
  refine (run_mergingIterator hapart (fun i => Iterator.ofList_shows compare _ .OK) (fun i => ⟨none, rfl⟩) ?_).1
  rw [hunion]
  decide

end Stands

end MergingIterator

end RedisDb
