import Mathlib.Data.List.Basic
import Mathlib.Data.List.ReduceOption
import Mathlib.Tactic.Common

/-!
# Putting replies back into order

Requests are numbered, their replies come in any order and are held until the replies to all earlier requests are
there. The numbers still waited for are in a sorted set and the replies that are held are in a sorted map under their
numbers. `Tracks` says what set and map hold when `l` lists the requests from number `first` on, each with its reply
if it has come, and `Tracks.ask` and `Tracks.arrive` say what a new request and a reply do.
-/

namespace Reorder

variable {α σ : Type*}

/-- A number goes into a sorted set. -/
def insertNumber (n : ℕ) : List ℕ → List ℕ
  | [] => [n]
  | m :: l => if n < m then n :: m :: l else if n = m then m :: l else m :: insertNumber n l

/-- A value goes into a sorted map, unless there is one under its number already. -/
def insertEntry (n : ℕ) (a : α) : List (ℕ × α) → List (ℕ × α)
  | [] => [(n, a)]
  | e :: l => if n < e.1 then (n, a) :: e :: l else if n = e.1 then e :: l else e :: insertEntry n a l

/-- What is left after a release: the numbers waited for, the values that are held, and what the delivered ones
made. -/
structure Released (α σ : Type*) where
  waiting : List ℕ
  held : List (ℕ × α)
  state : σ

/-- The values are delivered from the first one on, as long as the next one has the number expected next. -/
def release (deliver : σ → α → σ) : ℕ → List (ℕ × α) → List ℕ → σ → Released α σ
  | _, [], waiting, x => ⟨waiting, [], x⟩
  | next, e :: held, waiting, x =>
    if next = e.1 then release deliver (next + 1) held (waiting.erase e.1) (deliver x e.2)
      else ⟨waiting, e :: held, x⟩

/-- The values that are there, each under its number. -/
def numbered : ℕ → List (Option α) → List (ℕ × α)
  | _, [] => []
  | first, none :: l => numbered (first + 1) l
  | first, some a :: l => (first, a) :: numbered (first + 1) l

/-- The values before the first one that is missing. -/
@[simp] def arrived : List (Option α) → List α
  | [] => []
  | none :: _ => []
  | some a :: l => a :: arrived l

/-- What is left from the first missing value on. -/
@[simp] def outstanding : List (Option α) → List (Option α)
  | [] => []
  | none :: l => none :: l
  | some _ :: l => outstanding l

/-! ### Lists with missing values -/

theorem arrived_append_outstanding (l : List (Option α)) : (arrived l).map some ++ outstanding l = l := by
  induction l with
  | nil => rfl
  | cons o l ih =>
    cases o with
    | none => rfl
    | some a => simpa using ih

theorem arrived_map_some_append (l : List α) (l' : List (Option α)) :
    arrived (l.map some ++ l') = l ++ arrived l' := by
  induction l with
  | nil => rfl
  | cons a l ih => simp [ih]

theorem outstanding_map_some_append (l : List α) (l' : List (Option α)) :
    outstanding (l.map some ++ l') = outstanding l' := by
  induction l with
  | nil => rfl
  | cons a l ih => simp [ih]

theorem length_arrived_add (l : List (Option α)) : (arrived l).length + (outstanding l).length = l.length := by
  conv_rhs => rw [← arrived_append_outstanding l]
  simp

theorem outstanding_eq_nil {l : List (Option α)} : outstanding l = [] ↔ none ∉ l := by
  induction l with
  | nil => simp
  | cons o l ih =>
    cases o with
    | none => simp
    | some a => simpa using ih

/-- A missing value is among what is left. -/
theorem length_arrived_le {l : List (Option α)} {i : ℕ} (hi : l[i]? = some none) : (arrived l).length ≤ i := by
  by_contra hlt
  rw [← arrived_append_outstanding l, List.getElem?_append_left (by simpa using hlt)] at hi
  simp at hi

theorem getElem?_outstanding {l : List (Option α)} {i : ℕ} (hi : (arrived l).length ≤ i) :
    (outstanding l)[i - (arrived l).length]? = l[i]? := by
  conv_rhs => rw [← arrived_append_outstanding l]
  rw [List.getElem?_append_right (by simpa using hi)]
  simp

/-- A value that comes leaves the delivered ones alone. -/
theorem set_eq_append {l : List (Option α)} {i : ℕ} (hi : (arrived l).length ≤ i) (o : Option α) :
    l.set i o = (arrived l).map some ++ (outstanding l).set (i - (arrived l).length) o := by
  conv_lhs => rw [← arrived_append_outstanding l]
  rw [List.set_append_right _ _ (by simpa using hi)]
  simp

/-- A request that is added after what is left is left. -/
theorem arrived_append_none (l : List (Option α)) : arrived (l ++ [none]) = arrived l := by
  induction l with
  | nil => rfl
  | cons o l ih =>
    cases o with
    | none => rfl
    | some a => simp [ih]

theorem outstanding_append_none (l : List (Option α)) : outstanding (l ++ [none]) = outstanding l ++ [none] := by
  induction l with
  | nil => rfl
  | cons o l ih =>
    cases o with
    | none => rfl
    | some a => simp [ih]

/-! ### The numbers and the values held -/

private theorem insertNumber_range' (first n : ℕ) :
    insertNumber (first + n) (List.range' first n) = List.range' first (n + 1) := by
  induction n generalizing first with
  | zero => simp [insertNumber]
  | succ n ih =>
    rw [List.range'_succ, insertNumber, if_neg (by omega), if_neg (by omega), List.range'_succ (n := n + 1),
      ← ih (first + 1)]
    congr 2
    omega

theorem numbered_append_none (first : ℕ) (l : List (Option α)) :
    numbered first (l ++ [none]) = numbered first l := by
  induction l generalizing first with
  | nil => rfl
  | cons o l ih =>
    cases o with
    | none => exact ih (first + 1)
    | some a => rw [List.cons_append, numbered, ih, numbered]

private theorem lt_of_mem_numbered {first : ℕ} {l : List (Option α)} {e : ℕ × α} (h : e ∈ numbered (first + 1) l) :
    first < e.1 := by
  induction l generalizing first with
  | nil => simp [numbered] at h
  | cons o l ih =>
    cases o with
    | none =>
      have := ih h
      omega
    | some a =>
      rw [numbered, List.mem_cons] at h
      rcases h with rfl | h
      · simp
      · have := ih h
        omega

private theorem insertEntry_first {first : ℕ} (a : α) (l : List (Option α)) :
    insertEntry first a (numbered (first + 1) l) = (first, a) :: numbered (first + 1) l := by
  cases h : numbered (first + 1) l with
  | nil => rfl
  | cons e held =>
    have hlt : first < e.1 := lt_of_mem_numbered (l := l) (by simp [h])
    rw [insertEntry, if_pos hlt]

/-- A missing value is held under its number when it comes. -/
theorem insertEntry_numbered {first i : ℕ} {l : List (Option α)} (hi : l[i]? = some none) (a : α) :
    insertEntry (first + i) a (numbered first l) = numbered first (l.set i (some a)) := by
  induction l generalizing first i with
  | nil => simp at hi
  | cons o l ih =>
    cases i with
    | zero =>
      obtain rfl : o = none := by simpa using hi
      simpa [numbered] using insertEntry_first a l
    | succ i =>
      have hi' : l[i]? = some none := by simpa using hi
      have hstep := @ih (first + 1) i hi'
      rw [show first + 1 + i = first + (i + 1) by omega] at hstep
      cases o with
      | none => simpa [numbered] using hstep
      | some b =>
        simp only [numbered, List.set_cons_succ]
        rw [insertEntry, if_neg (by simp), if_neg (by simp), hstep]

/-- A release delivers the values before the first one that is missing. -/
theorem release_numbered (deliver : σ → α → σ) (first : ℕ) (l : List (Option α)) (x : σ) :
    release deliver first (numbered first l) (List.range' first l.length) x =
      ⟨List.range' (first + (arrived l).length) (outstanding l).length,
        numbered (first + (arrived l).length) (outstanding l), (arrived l).foldl deliver x⟩ := by
  induction l generalizing first x with
  | nil => rfl
  | cons o l ih =>
    cases o with
    | none =>
      simp only [arrived, outstanding, List.length_nil, Nat.add_zero, List.foldl_nil, numbered]
      cases h : numbered (first + 1) l with
      | nil => rfl
      | cons e held =>
        have hlt : first < e.1 := lt_of_mem_numbered (l := l) (by simp [h])
        rw [release, if_neg (by omega)]
    | some a =>
      rw [numbered, release, if_pos rfl, List.length_cons, List.range'_succ, List.erase_cons_head, ih]
      simp only [arrived, outstanding, List.length_cons, List.foldl_cons]
      rw [show first + 1 + (arrived l).length = first + ((arrived l).length + 1) by omega]

/-! ### Requests and replies -/

/-- The counter, the set and the map belong to a list of requests, whose first one that is left has number `first`. -/
structure Tracks (count : ℕ) (waiting : List ℕ) (held : List (ℕ × α)) (first : ℕ) (l : List (Option α)) : Prop where
  count : count + 1 = first + l.length
  waiting : waiting = List.range' first l.length
  held : held = numbered first l

variable {count : ℕ} {waiting : List ℕ} {held : List (ℕ × α)} {first : ℕ} {l : List (Option α)}

theorem Tracks.nil (count : ℕ) : Tracks count [] ([] : List (ℕ × α)) (count + 1) [] := ⟨rfl, rfl, rfl⟩

/-- A new request has the next number. -/
theorem Tracks.ask (h : Tracks count waiting held first l) :
    Tracks (count + 1) (insertNumber (count + 1) waiting) held first (l ++ [none]) := by
  refine ⟨?_, ?_, ?_⟩
  · rw [h.count, List.length_append, List.length_singleton, Nat.add_assoc]
  · rw [h.count, h.waiting, insertNumber_range', List.length_append, List.length_singleton]
  · rw [h.held, numbered_append_none]

theorem Tracks.mem_waiting (h : Tracks count waiting held first l) {n : ℕ} :
    n ∈ waiting ↔ first ≤ n ∧ n < first + l.length := by
  rw [h.waiting, List.mem_range'_1]

/-- While a number is waited for, the first one is the one that the next reply to be delivered has. -/
theorem Tracks.head_waiting (h : Tracks count waiting held first l) {n : ℕ} {ns : List ℕ} (hw : waiting = n :: ns) :
    n = first := by
  rw [h.waiting] at hw
  cases l with
  | nil => simp at hw
  | cons o l =>
    rw [List.length_cons, List.range'_succ] at hw
    exact (List.cons.inj hw).1.symm

/-- A reply is held, and what is complete is delivered. -/
theorem Tracks.arrive (h : Tracks count waiting held first l) {i : ℕ} (hi : l[i]? = some none) (a : α)
    (deliver : σ → α → σ) (x : σ) {q : Released α σ}
    (hq : release deliver first (insertEntry (first + i) a held) waiting x = q) :
    Tracks count q.waiting q.held (first + (arrived (l.set i (some a))).length) (outstanding (l.set i (some a))) ∧
      q.state = (arrived (l.set i (some a))).foldl deliver x := by
  have hlength : (l.set i (some a)).length = l.length := List.length_set
  have hsum := length_arrived_add (l.set i (some a))
  rw [h.held, h.waiting, insertEntry_numbered hi, ← hlength, release_numbered] at hq
  subst hq
  refine ⟨⟨?_, rfl, rfl⟩, rfl⟩
  rw [h.count]
  omega

end Reorder
