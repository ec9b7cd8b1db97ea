import Mathlib.Data.List.Pairwise
import SwissArmyKnife.Lib.Cursor

/-!
# Calls on a cursor

The calls by which a cursor over a list of keys and values is moved, for any three-way comparison of keys.  In a list
in the order of the keys a step is a search for the nearest larger or smaller key (`next_eq_seek`,
`prev_eq_seekBack`), and a cursor over a concatenation of blocks is at a place of one block (`lift`).
-/

namespace Cursor

variable {α β κ ν : Type*}

inductive Call (κ : Type*) where
  | Seek (target : κ)
  | SeekToFirst
  | SeekToLast
  | Next
  | Prev
deriving DecidableEq

/-- The last place whose element passes the test. -/
def seekBack (q : α → Bool) (l : List α) : Option (Place α) := scanBack q [] l.reverse

/-- Where the call leads from the place; `Next` and `Prev` need one. -/
def call (cmp : κ → κ → Ordering) (l : List (κ × ν)) (p : Option (Place (κ × ν))) :
    Call κ → Option (Option (Place (κ × ν)))
  | .Seek target => some (seek (fun e => (cmp e.1 target).isGE) l)
  | .SeekToFirst => some (first l)
  | .SeekToLast => some (last l)
  | .Next => p.map Place.next
  | .Prev => p.map Place.prev

/-- Where a list of calls leads from the place. -/
def run (cmp : κ → κ → Ordering) (l : List (κ × ν)) (p : Option (Place (κ × ν))) :
    List (Call κ) → Option (Option (Place (κ × ν)))
  | [] => some p
  | c :: calls => (call cmp l p c).bind fun p' => run cmp l p' calls

/-- The keys are in order. -/
def Increasing (cmp : κ → κ → Ordering) (l : List (κ × ν)) : Prop := l.Pairwise fun a b => cmp a.1 b.1 = .lt

/-! ### The two sides of a cut -/

theorem front_prev {before after : List α} {p : Place α} (h : front before after = some p) :
    p.prev = back after before := by
  cases after with
  | nil => simp [front] at h
  | cons a after =>
    cases h
    rfl

theorem front_eq_none {before after : List α} : front before after = none ↔ after = [] := by
  cases after <;> simp [front]

theorem front_toList {before after : List α} {p : Place α} (h : front before after = some p) :
    p.toList = before.reverse ++ after := by
  cases after with
  | nil => simp [front] at h
  | cons a after =>
    cases h
    rfl

theorem back_toList {before after : List α} {p : Place α} (h : back after before = some p) :
    p.toList = before.reverse ++ after := by
  cases before with
  | nil => simp [back] at h
  | cons a before =>
    cases h
    simp [Place.toList]

theorem seek_some {q : α → Bool} {l : List α} {p : Place α} (h : seek q l = some p) :
    p.toList = l ∧ q p.current = true := by
  simpa using scan_some h

theorem seek_congr {q q' : α → Bool} {l : List α} (h : ∀ a ∈ l, q a = q' a) : seek q l = seek q' l :=
  scan_congr h

theorem seekBack_congr {q q' : α → Bool} {l : List α} (h : ∀ a ∈ l, q a = q' a) : seekBack q l = seekBack q' l :=
  scanBack_congr fun a ha => h a (List.mem_reverse.1 ha)

theorem seekBack_eq_back {q : α → Bool} {before after : List α} (hbefore : ∀ a ∈ before, q a = true)
    (hafter : ∀ a ∈ after, q a = false) : seekBack q (before ++ after) = back after before.reverse := by
  rw [seekBack, List.reverse_append, scanBack_append fun a ha => hafter a (List.mem_reverse.1 ha), List.append_nil,
    List.reverse_reverse]
  cases hrev : before.reverse with
  | nil => rfl
  | cons a before' => exact scanBack_cons_pos (hbefore a (List.mem_reverse.1 (hrev ▸ List.mem_cons_self ..)))

theorem first_eq_seek (l : List α) : first l = seek (fun _ => true) l := by
  cases l <;> rfl

theorem last_eq_seekBack (l : List α) : last l = seekBack (fun _ => true) l := by
  unfold last seekBack
  cases l.reverse <;> rfl

/-- A test that is passed from some element on cuts the list in two. -/
theorem exists_cut {q : α → Bool} {l : List α} (h : l.Pairwise fun a b => q a = true → q b = true) :
    ∃ before after, l = before ++ after ∧ (∀ a ∈ before, q a = false) ∧ ∀ a ∈ after, q a = true := by
  induction l with
  | nil => exact ⟨[], [], rfl, by simp, by simp⟩
  | cons a l ih =>
    obtain ⟨ha, hl⟩ := List.pairwise_cons.1 h
    by_cases hq : q a = true
    · refine ⟨[], a :: l, rfl, by simp, ?_⟩
      intro b hb
      rcases List.mem_cons.1 hb with rfl | hb
      · exact hq
      · exact ha b hb hq
    · obtain ⟨before, after, rfl, hbefore, hafter⟩ := ih hl
      exact ⟨a :: before, after, rfl, by simpa [hq] using hbefore, hafter⟩

/-- Where a search forward finds an element, the one before it is the last that does not pass. -/
theorem seek_prev {q : α → Bool} {l : List α} (h : l.Pairwise fun a b => q a = true → q b = true) {p : Place α}
    (hp : seek q l = some p) : p.prev = seekBack (fun a => !q a) l := by
  obtain ⟨before, after, rfl, hbefore, hafter⟩ := exists_cut h
  rw [scan_eq_front hbefore hafter] at hp
  rw [front_prev hp, seekBack_eq_back (by simpa using hbefore) (by simpa using hafter)]

/-- Where a search forward finds nothing, no element passes. -/
theorem last_of_seek_none {q : α → Bool} {l : List α} (h : l.Pairwise fun a b => q a = true → q b = true)
    (hp : seek q l = none) : last l = seekBack (fun a => !q a) l := by
  obtain ⟨before, after, rfl, hbefore, hafter⟩ := exists_cut h
  rw [scan_eq_front hbefore hafter, front_eq_none] at hp
  subst hp
  rw [seekBack_eq_back (by simpa using hbefore) (by simp), last, List.append_nil]

theorem seek_eq_none {q : α → Bool} {l : List α} : seek q l = none ↔ ∀ a ∈ l, q a = false := by
  obtain ⟨skipped, rest, rfl, hscan, hfalse, hhead⟩ := scan_split q [] l
  rw [seek, hscan, front_eq_none]
  constructor
  · rintro rfl
    simpa using hfalse
  · intro h
    cases rest with
    | nil => rfl
    | cons a rest => exact absurd (hhead a rfl) (by simp [h a (by simp)])

/-- Calls lead to places of the list. -/
theorem call_toList {cmp : κ → κ → Ordering} {l : List (κ × ν)} {p p' : Option (Place (κ × ν))} {c : Call κ}
    (hp : ∀ P ∈ p, P.toList = l) (hcall : call cmp l p c = some p') : ∀ P ∈ p', P.toList = l := by
  cases c with
  | Seek target =>
    cases hcall
    exact fun P hP => (seek_some hP).1
  | SeekToFirst =>
    cases hcall
    exact fun P hP => front_toList hP
  | SeekToLast =>
    cases hcall
    exact fun P hP => (back_toList hP).trans (by simp)
  | Next =>
    obtain ⟨P, rfl, rfl⟩ := Option.map_eq_some_iff.1 hcall
    exact fun P' hP' => (front_toList hP').trans (by simp [← hp P rfl, Place.toList])
  | Prev =>
    obtain ⟨P, rfl, rfl⟩ := Option.map_eq_some_iff.1 hcall
    exact fun P' hP' => (back_toList hP').trans (hp P rfl)

/-! ### Lists in order -/

/-- What a search for the best of the elements that pass finds. -/
def Finds (rel : κ → κ → Ordering) (q : κ × ν → Bool) (l : List (κ × ν)) : Option (Place (κ × ν)) → Prop
  | none => ∀ e ∈ l, q e = false
  | some p => p.toList = l ∧ q p.current = true ∧ ∀ e ∈ l, q e = true → (rel p.current.1 e.1).isLE = true

/-- Something is found when an element passes, and nothing passing comes before it. -/
theorem Finds.exists_place {rel : κ → κ → Ordering} {q : κ × ν → Bool} {l : List (κ × ν)} {p : Option (Place (κ × ν))}
    (h : Finds rel q l p) {e : κ × ν} (he : e ∈ l) (hq : q e = true) :
    ∃ P, p = some P ∧ (rel P.current.1 e.1).isLE = true := by
  cases p with
  | none =>
    have hfalse := h e he
    rw [hq] at hfalse
    cases hfalse
  | some P => exact ⟨P, rfl, h.2.2 e he hq⟩

theorem Finds.current {rel : κ → κ → Ordering} {q : κ × ν → Bool} {l : List (κ × ν)} {P : Place (κ × ν)}
    (h : Finds rel q l (some P)) : P.toList = l ∧ P.current ∈ l ∧ q P.current = true :=
  ⟨h.1, h.1 ▸ (by simp [Place.toList]), h.2.1⟩

section Increasing

variable {cmp : κ → κ → Ordering} [Std.TransCmp cmp] {l : List (κ × ν)}

omit [Std.TransCmp cmp] in
theorem Increasing.sublist {l' : List (κ × ν)} (h : Increasing cmp l) (hsub : l'.Sublist l) : Increasing cmp l' :=
  List.Pairwise.sublist hsub h

/-- The tests for keys from some key on. -/
theorem Increasing.cut_isGE (h : Increasing cmp l) (k : κ) :
    l.Pairwise fun a b => (cmp a.1 k).isGE = true → (cmp b.1 k).isGE = true :=
  h.imp fun hlt ha =>
    Ordering.isGE_of_eq_gt (Std.TransCmp.gt_of_gt_of_isGE (Std.OrientedCmp.gt_of_lt hlt) ha)

theorem next_eq_seek (h : Increasing cmp l) {p : Place (κ × ν)} (hp : p.toList = l) :
    p.next = seek (fun e => (cmp e.1 p.current.1).isGT) l := by
  subst hp
  obtain ⟨-, hafter, hcross⟩ := List.pairwise_append.1 h
  have hlist : p.toList = (p.before.reverse ++ [p.current]) ++ p.after := by simp [Place.toList]
  rw [hlist, scan_eq_front]
  · simp [Place.next]
  · intro a ha
    rcases List.mem_append.1 ha with ha | ha
    · rw [hcross a ha p.current (List.mem_cons_self ..)]
      rfl
    · have hself : cmp p.current.1 p.current.1 = .eq := Std.ReflCmp.compare_self
      rw [List.mem_singleton.1 ha, hself]
      rfl
  · intro a ha
    rw [Std.OrientedCmp.gt_of_lt ((List.pairwise_cons.1 hafter).1 a ha)]
    rfl

theorem prev_eq_seekBack (h : Increasing cmp l) {p : Place (κ × ν)} (hp : p.toList = l) :
    p.prev = seekBack (fun e => (cmp e.1 p.current.1).isLT) l := by
  subst hp
  obtain ⟨-, hafter, hcross⟩ := List.pairwise_append.1 h
  rw [Place.toList, seekBack_eq_back]
  · simp [Place.prev]
  · intro a ha
    rw [hcross a ha p.current (List.mem_cons_self ..)]
    rfl
  · intro a ha
    rcases List.mem_cons.1 ha with rfl | ha
    · have hself : cmp p.current.1 p.current.1 = .eq := Std.ReflCmp.compare_self
      rw [hself]
      rfl
    · rw [Std.OrientedCmp.gt_of_lt ((List.pairwise_cons.1 hafter).1 a ha)]
      rfl

theorem finds_seek (h : Increasing cmp l) (q : κ × ν → Bool) : Finds cmp q l (seek q l) := by
  obtain ⟨skipped, rest, rfl, hscan, hfalse, hhead⟩ := scan_split q [] l
  rw [seek, hscan]
  cases rest with
  | nil => exact fun e he => hfalse e (by simpa using he)
  | cons a rest =>
    refine ⟨by simp [Place.toList], hhead a rfl, ?_⟩
    intro e he hq
    rcases List.mem_append.1 he with he | he
    · exact absurd hq (by simp [hfalse e he])
    · rcases List.mem_cons.1 he with rfl | he
      · exact Std.ReflCmp.isLE_rfl
      · exact Ordering.isLE_of_eq_lt ((List.pairwise_cons.1 (List.pairwise_append.1 h).2.1).1 e he)

theorem finds_seekBack (h : Increasing cmp l) (q : κ × ν → Bool) :
    Finds (fun a b => cmp b a) q l (seekBack q l) := by
  obtain ⟨skipped, rest, hlist, hscan, hfalse, hhead⟩ := scanBack_split q [] l.reverse
  obtain rfl : l = rest.reverse ++ skipped.reverse := by rw [← List.reverse_append, ← hlist, List.reverse_reverse]
  rw [seekBack, hscan]
  cases rest with
  | nil => exact fun e he => hfalse e (by simpa using he)
  | cons a rest =>
    refine ⟨by simp [Place.toList], hhead a rfl, ?_⟩
    intro e he hq
    rcases List.mem_append.1 he with he | he
    · rw [List.reverse_cons] at he h
      rcases List.mem_append.1 he with he | he
      · exact Ordering.isLE_of_eq_lt
          ((List.pairwise_append.1 (List.pairwise_append.1 h).1).2.2 e he a (List.mem_singleton_self a))
      · rw [List.mem_singleton.1 he]
        exact Std.ReflCmp.isLE_rfl
    · exact absurd hq (by simp [hfalse e (List.mem_reverse.1 he)])

end Increasing

/-! ### Places by index -/

section Index

/-- The place of an index. -/
def nth (l : List α) (i : ℕ) : Option (Place α) := front (l.take i).reverse (l.drop i)

theorem nth_of_getElem? {l : List α} {i : ℕ} {a : α} (h : l[i]? = some a) :
    nth l i = some ⟨(l.take i).reverse, a, l.drop (i + 1)⟩ := by
  obtain ⟨hi, rfl⟩ := List.getElem?_eq_some_iff.1 h
  rw [nth, List.drop_eq_getElem_cons hi]
  rfl

theorem nth_eq_none {l : List α} {i : ℕ} (h : l.length ≤ i) : nth l i = none := by
  rw [nth, List.drop_eq_nil_of_le h]
  rfl

theorem nth_next {l : List α} {i : ℕ} {p : Place α} (h : nth l i = some p) : p.next = nth l (i + 1) := by
  rcases Nat.lt_or_ge i l.length with hi | hi
  · rw [nth_of_getElem? (List.getElem?_eq_getElem hi)] at h
    obtain rfl := Option.some.inj h
    rw [Place.next, nth, List.take_succ_eq_append_getElem hi, List.reverse_concat]
  · rw [nth_eq_none hi] at h
    cases h

theorem nth_prev_zero {l : List α} {p : Place α} (h : nth l 0 = some p) : p.prev = none := by
  rw [front_prev h]
  rfl

theorem nth_prev_succ {l : List α} {i : ℕ} {p : Place α} (h : nth l (i + 1) = some p) : p.prev = nth l i := by
  rcases Nat.lt_or_ge (i + 1) l.length with hi | hi
  · rw [front_prev h, nth_of_getElem? (List.getElem?_eq_getElem (Nat.lt_of_succ_lt hi)),
      List.take_succ_eq_append_getElem (Nat.lt_of_succ_lt hi), List.reverse_concat]
    rfl
  · rw [nth_eq_none hi] at h
    cases h

theorem last_eq_nth (l : List α) : last l = nth l (l.length - 1) := by
  rcases List.eq_nil_or_concat l with rfl | ⟨l, a, rfl⟩
  · rfl
  · rw [List.concat_eq_append, nth_of_getElem? (a := a) (by simp)]
    simp [last, back]

/-- A search ends at the first index where the test is passed. -/
theorem seek_eq_nth (q : α → Bool) (l : List α) : seek q l = nth l (l.findIdx q) := by
  obtain ⟨i, hi⟩ : ∃ i, i = l.findIdx q := ⟨_, rfl⟩
  have hbefore : ∀ a ∈ l.take i, q a = false := by
    intro a ha
    obtain ⟨j, hj, rfl⟩ := List.mem_iff_getElem.1 ha
    rw [List.length_take] at hj
    rw [List.getElem_take]
    have hnot := List.not_of_lt_findIdx (show j < l.findIdx q by omega)
    simpa using hnot
  have hscan : scan q [] (l.take i ++ l.drop i) = scan q ((l.take i).reverse ++ []) (l.drop i) := scan_append hbefore
  rw [List.take_append_drop, List.append_nil] at hscan
  rw [seek, hscan, nth, ← hi]
  cases hdrop : l.drop i with
  | nil => rfl
  | cons a after =>
    have hget : l[i]? = some a := by
      rw [← List.head?_drop, hdrop]
      rfl
    obtain ⟨hlt, rfl⟩ := List.getElem?_eq_some_iff.1 hget
    subst hi
    exact scan_cons_pos (List.findIdx_getElem (w := hlt))

end Index

/-! ### Concatenations -/

section Blocks

variable {f : α → List β}

/-- The place in the concatenation of the blocks that is at the place `q` of the block at `p`. -/
def lift (f : α → List β) (p : Place α) (q : Place β) : Place β :=
  ⟨q.before ++ p.before.flatMap fun a => (f a).reverse, q.current, q.after ++ p.after.flatMap f⟩

/-- The place in the concatenation, or the first one in the blocks after `p` when there is none in its block. -/
def ahead (f : α → List β) : Option (Place α) → Option (Place β) → Option (Place β)
  | none, _ => none
  | some p, none => front (((f p.current).reverse) ++ p.before.flatMap fun a => (f a).reverse) (p.after.flatMap f)
  | some p, some q => some (lift f p q)

/-- The place in the concatenation, or the last one in the blocks before `p` when there is none in its block. -/
def behind (f : α → List β) : Option (Place α) → Option (Place β) → Option (Place β)
  | none, _ => none
  | some p, none => back (f p.current ++ p.after.flatMap f) (p.before.flatMap fun a => (f a).reverse)
  | some p, some q => some (lift f p q)

theorem ahead_front (before after : List α) :
    ahead f (front before after) ((front before after).bind fun p => first (f p.current)) =
      front (before.flatMap fun a => (f a).reverse) (after.flatMap f) := by
  cases after with
  | nil => rfl
  | cons a after =>
    cases hfa : f a with
    | nil => simp [front, first, ahead, hfa]
    | cons b l => simp [front, first, ahead, lift, hfa]

theorem behind_back (after before : List α) :
    behind f (back after before) ((back after before).bind fun p => last (f p.current)) =
      back (after.flatMap f) (before.flatMap fun a => (f a).reverse) := by
  cases before with
  | nil => rfl
  | cons a before =>
    cases hfa : (f a).reverse with
    | nil => simp [back, last, behind, List.reverse_eq_nil_iff.1 hfa]
    | cons b l => simp [back, last, behind, lift, hfa]

/-- Without a place in its block the search goes on in the next block. -/
theorem ahead_none (p : Place α) :
    ahead f (some p) none = ahead f p.next (p.next.bind fun p => first (f p.current)) := by
  rw [Place.next, ahead_front]
  rfl

theorem behind_none (p : Place α) :
    behind f (some p) none = behind f p.prev (p.prev.bind fun p => last (f p.current)) := by
  rw [Place.prev, behind_back]
  rfl

theorem first_flatMap (l : List α) :
    first (l.flatMap f) = ahead f (first l) ((first l).bind fun p => first (f p.current)) :=
  (ahead_front [] l).symm

theorem last_flatMap (l : List α) :
    last (l.flatMap f) = behind f (last l) ((last l).bind fun p => last (f p.current)) := by
  rw [last, List.reverse_flatMap]
  exact (behind_back [] l.reverse).symm

theorem lift_next {p : Place α} {q : Place β} (hq : q.toList = f p.current) :
    (lift f p q).next = ahead f (some p) q.next := by
  cases hafter : q.after with
  | nil =>
    have hrev : (f p.current).reverse = q.current :: q.before := by simp [← hq, Place.toList, hafter]
    simp [lift, Place.next, front, ahead, hafter, hrev]
  | cons b after => simp [lift, Place.next, front, ahead, hafter]

theorem lift_prev {p : Place α} {q : Place β} (hq : q.toList = f p.current) :
    (lift f p q).prev = behind f (some p) q.prev := by
  cases hbefore : q.before with
  | nil =>
    have hlist : f p.current = q.current :: q.after := by simp [← hq, Place.toList, hbefore]
    simp [lift, Place.prev, back, behind, hbefore, hlist]
  | cons b before => simp [lift, Place.prev, back, behind, hbefore]

end Blocks

/-- A search through the concatenation first looks for the block. -/
theorem seek_flatMap {f : α → List β} (qa : α → Bool) {qb : β → Bool} {l : List α}
    (hbefore : ∀ a ∈ l, qa a = false → ∀ b ∈ f a, qb b = false)
    (hafter : l.Pairwise fun a a' => qa a = true → ∀ b ∈ f a', qb b = true) :
    seek qb (l.flatMap f) = ahead f (seek qa l) ((seek qa l).bind fun p => seek qb (f p.current)) := by
  obtain ⟨skipped, rest, rfl, hscan, hfalse, hhead⟩ := scan_split qa [] l
  have hskipped : ∀ b ∈ skipped.flatMap f, qb b = false := by
    intro b hb
    obtain ⟨a, ha, hba⟩ := List.mem_flatMap.1 hb
    exact hbefore a (List.mem_append_left _ ha) (hfalse a ha) b hba
  have hseek : seek qa (skipped ++ rest) = front (skipped.reverse ++ []) rest := hscan
  rw [hseek]
  cases rest with
  | nil =>
    rw [List.append_nil]
    exact seek_eq_none.2 hskipped
  | cons a after =>
    have hpass : ∀ b ∈ after.flatMap f, qb b = true := by
      intro b hb
      obtain ⟨a', ha', hba⟩ := List.mem_flatMap.1 hb
      exact (List.pairwise_cons.1 (List.pairwise_append.1 hafter).2.1).1 a' ha' (hhead a rfl) b hba
    -- The block is cut where the test begins to be passed, if it is passed in it.
    obtain ⟨sk, r, hfa, hscan', hfalse', hhead'⟩ := scan_split qb [] (f a)
    rw [List.flatMap_append, List.flatMap_cons, seek, scan_append hskipped, hfa, List.append_assoc,
      scan_append hfalse']
    cases r with
    | nil =>
      have hnone : seek qb (f a) = none := by
        rw [seek, hscan']
        rfl
      have hfront : ∀ before, scan qb before (after.flatMap f) = front before (after.flatMap f) := by
        intro before
        cases hlist : after.flatMap f with
        | nil => rfl
        | cons b l => exact scan_cons_pos (hpass b (hlist ▸ List.mem_cons_self ..))
      rw [List.nil_append, hfront]
      simp only [front, Option.bind_some, hnone, ahead]
      simp [hfa, List.reverse_flatMap, Function.comp_def]
    | cons b r =>
      have hsome : seek qb (f a) = some ⟨sk.reverse, b, r⟩ := by
        rw [seek, hscan']
        simp [front]
      rw [List.cons_append, scan_cons_pos (hhead' b rfl)]
      simp only [front, Option.bind_some, hsome, ahead, lift]
      simp [List.reverse_flatMap, Function.comp_def]

end Cursor
