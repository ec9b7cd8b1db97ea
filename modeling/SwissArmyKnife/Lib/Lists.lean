import Mathlib.Data.List.Basic
import Mathlib.Tactic.Common

/-!
# Parts of lists

`firstOf` keeps, of the elements of a list with the same key, the first one.  It is the loop that adds an element when
its key was not seen yet.

`slice l start stop` has the elements from position `start` to position `stop`, where negative positions count from
the end.  It is empty, or `start` and `stop` can be brought into the list first (`slice_eq_nil`,
`slice_eq_take_drop`).
-/

namespace FirstOf

variable {α κ : Type*} [DecidableEq κ] (key : α → κ)

/-- The loop; the keys that were seen are in `seen`. -/
def loop (seen : List κ) : List α → List α
  | [] => []
  | a :: l => if key a ∈ seen then loop seen l else a :: loop (key a :: seen) l

def firstOf (l : List α) : List α := loop key [] l

variable {key}

private theorem mem_of_mem_loop {seen : List κ} {l : List α} {a : α} (h : a ∈ loop key seen l) :
    a ∈ l ∧ key a ∉ seen := by
  induction l generalizing seen with
  | nil => simp [loop] at h
  | cons b l ih =>
    rw [loop] at h
    split at h
    · exact ⟨List.mem_cons_of_mem _ (ih h).1, (ih h).2⟩
    · rename_i hb
      rcases List.mem_cons.1 h with rfl | h
      · exact ⟨List.mem_cons_self .., hb⟩
      · obtain ⟨hmem, hnot⟩ := ih h
        exact ⟨List.mem_cons_of_mem _ hmem, fun hs => hnot (List.mem_cons_of_mem _ hs)⟩

private theorem nodup_loop (seen : List κ) (l : List α) : ((loop key seen l).map key).Nodup := by
  induction l generalizing seen with
  | nil => simp [loop]
  | cons a l ih =>
    rw [loop]
    split
    · exact ih seen
    · rw [List.map_cons, List.nodup_cons]
      refine ⟨?_, ih _⟩
      intro hmem
      obtain ⟨b, hb, hkey⟩ := List.mem_map.1 hmem
      exact (mem_of_mem_loop hb).2 (hkey ▸ List.mem_cons_self ..)

private theorem find?_loop {seen : List κ} {l : List α} {k : κ} (hk : k ∉ seen) :
    (loop key seen l).find? (fun a => key a = k) = l.find? fun a => key a = k := by
  induction l generalizing seen with
  | nil => rfl
  | cons a l ih =>
    rw [loop]
    by_cases hkey : key a = k
    · rw [if_neg (hkey ▸ hk)]
      simp [hkey]
    · rw [List.find?_cons_of_neg (by simpa using hkey)]
      split
      · exact ih hk
      · rw [List.find?_cons_of_neg (by simpa using hkey)]
        exact ih (by simp [hk, Ne.symm hkey])

theorem mem_of_mem_firstOf {l : List α} {a : α} (h : a ∈ firstOf key l) : a ∈ l := (mem_of_mem_loop h).1

theorem nodup_firstOf (l : List α) : ((firstOf key l).map key).Nodup := nodup_loop [] l

/-- The element that is kept of a key is the first one. -/
theorem find?_firstOf (key : α → κ) (l : List α) (k : κ) :
    (firstOf key l).find? (fun a => key a = k) = l.find? fun a => key a = k := find?_loop (by simp)

theorem exists_mem_firstOf_iff {l : List α} {k : κ} : (∃ a ∈ firstOf key l, key a = k) ↔ ∃ a ∈ l, key a = k := by
  have h := congrArg Option.isSome (find?_firstOf key l k)
  rw [Bool.eq_iff_iff, List.find?_isSome, List.find?_isSome] at h
  simpa using h

theorem mem_firstOf_id {l : List κ} {k : κ} : k ∈ firstOf id l ↔ k ∈ l := by
  have h : (∃ a ∈ firstOf id l, id a = k) ↔ ∃ a ∈ l, id a = k := exists_mem_firstOf_iff
  simpa using h

theorem nodup_firstOf_id (l : List κ) : (firstOf id l).Nodup := by
  have h : ((firstOf id l).map id).Nodup := nodup_firstOf l
  rwa [List.map_id] at h

end FirstOf

namespace Slices

variable {α : Type*}

/-- The position in a list of length `n`. -/
def position (n : Nat) (i : Int) : Int := if i < 0 then i + n else i

def slice (l : List α) (start stop : Int) : List α :=
  let start := max (position l.length start) 0
  (l.drop start.toNat).take (position l.length stop - start + 1).toNat

variable {l : List α} {start stop : Int}

theorem slice_eq_nil (h : position l.length stop < max (position l.length start) 0 ∨
    (l.length : Int) ≤ max (position l.length start) 0) : slice l start stop = [] := by
  simp only [slice]
  rcases h with h | h
  · rw [show (position l.length stop - max (position l.length start) 0 + 1).toNat = 0 by omega, List.take_zero]
  · rw [List.drop_eq_nil_of_le (by omega), List.take_nil]

theorem slice_eq_take_drop {i j : Nat} (hi : (i : Int) = max (position l.length start) 0)
    (hj : (j : Int) = min (position l.length stop) (l.length - 1)) :
    slice l start stop = (l.drop i).take (j + 1 - i) := by
  simp only [slice]
  rw [show (max (position l.length start) 0).toNat = i by omega, List.take_eq_take_iff, List.length_drop]
  omega

@[simp] theorem slice_nil (start stop : Int) : slice ([] : List α) start stop = [] := by
  simp [slice]

end Slices
