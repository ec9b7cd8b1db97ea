import Mathlib.Data.List.Infix
import Mathlib.Tactic.Common

/-!
# Finding the end of a line

The first place of a pattern in a list.  A line is free of the pattern that ends it when that pattern comes first at
its end, whatever follows.
-/

namespace Lines

variable {α : Type*} [DecidableEq α] {pat : List α}

/-- Where the pattern, which is not empty, comes first. -/
def find (pat : List α) : List α → Option ℕ
  | [] => none
  | a :: l => if pat <+: a :: l then some 0 else (find pat l).map (· + 1)

theorem find_le {l : List α} {i : ℕ} (h : find pat l = some i) : i + pat.length ≤ l.length := by
  induction l generalizing i with
  | nil => cases h
  | cons a l ih =>
    rw [find] at h
    split_ifs at h with hfront
    · cases h
      have := hfront.length_le
      omega
    · obtain ⟨j, hj, rfl⟩ := Option.map_eq_some_iff.1 h
      have := ih hj
      rw [List.length_cons]
      omega

/-- What follows makes no difference once the pattern is there. -/
theorem find_append {l : List α} {i : ℕ} (h : find pat l = some i) (more : List α) :
    find pat (l ++ more) = some i := by
  induction l generalizing i with
  | nil => cases h
  | cons a l ih =>
    rw [find] at h
    rw [List.cons_append, find]
    split_ifs at h with hfront
    · cases h
      exact if_pos (hfront.trans (List.prefix_append (a :: l) more))
    · obtain ⟨j, hj, rfl⟩ := Option.map_eq_some_iff.1 h
      have hnot : ¬ pat <+: a :: (l ++ more) := by
        intro hmore
        refine hfront (List.prefix_of_prefix_length_le hmore (List.prefix_append (a :: l) more) ?_)
        have := find_le hj
        rw [List.length_cons]
        omega
      rw [if_neg hnot, ih hj]
      rfl

/-- The pattern is found where it comes. -/
theorem isSome_find (hpat : pat ≠ []) (front rest : List α) : (find pat (front ++ (pat ++ rest))).isSome := by
  induction front with
  | nil =>
    cases pat with
    | nil => exact absurd rfl hpat
    | cons a pat =>
      rw [List.nil_append, List.cons_append, find, if_pos]
      · rfl
      · exact List.prefix_append (a :: pat) rest
  | cons a front ih =>
    rw [List.cons_append, find]
    split_ifs with hfront
    · rfl
    · rwa [Option.isSome_map]

/-- The pattern does not come in the line, nor does it begin there before its end. -/
def Free (pat line : List α) : Prop := find pat (line ++ pat) = some line.length

instance (pat line : List α) : Decidable (Free pat line) := inferInstanceAs (Decidable (_ = _))

theorem Free.find {line : List α} (h : Free pat line) (rest : List α) :
    find pat (line ++ pat ++ rest) = some line.length := find_append h rest

/-- As long as the line is not whole, the pattern is not there. -/
theorem Free.find_part {line buf : List α} (h : Free pat line) (hbuf : buf <+: line ++ pat)
    (hpart : buf.length < (line ++ pat).length) : Lines.find pat buf = none := by
  cases hfind : Lines.find pat buf with
  | none => rfl
  | some i =>
    obtain ⟨more, hmore⟩ := hbuf
    have hwhole := find_append hfind more
    rw [hmore, h] at hwhole
    have := find_le hfind
    rw [← Option.some.inj hwhole] at this
    rw [List.length_append] at hpart
    omega

/-- The line before the first pattern, and what follows. -/
theorem find_split (hpat : pat ≠ []) {l : List α} {i : ℕ} (h : find pat l = some i) :
    Free pat (l.take i) ∧ l = l.take i ++ pat ++ l.drop (i + pat.length) := by
  induction l generalizing i with
  | nil => cases h
  | cons a l ih =>
    rw [find] at h
    split_ifs at h with hfront
    · cases h
      obtain ⟨rest, hrest⟩ := hfront
      obtain ⟨b, pat', rfl⟩ := List.exists_cons_of_ne_nil hpat
      refine ⟨?_, ?_⟩
      · unfold Free
        rw [List.take_zero, List.nil_append, find, if_pos (List.prefix_refl _)]
        rfl
      · rw [← hrest, List.take_zero, List.nil_append, Nat.zero_add, List.drop_left]
    · obtain ⟨j, hj, rfl⟩ := Option.map_eq_some_iff.1 h
      obtain ⟨hfree, hsplit⟩ := ih hj
      have hnot : ¬pat <+: a :: (l.take j ++ pat) := by
        intro hmore
        refine hfront (hmore.trans ?_)
        conv => rhs; rw [hsplit]
        exact List.prefix_append (a :: (l.take j ++ pat)) _
      refine ⟨?_, ?_⟩
      · unfold Free at hfree ⊢
        rw [List.take_succ_cons, List.cons_append, find, if_neg hnot, hfree]
        rfl
      · rw [Nat.add_right_comm, List.take_succ_cons, List.drop_succ_cons, List.cons_append,
          List.cons_append, ← hsplit]

/-! ### All the lines -/

/-- At most so many lines. -/
def completeFuel (pat : List α) : ℕ → List α → List (List α)
  | 0, _ => []
  | fuel + 1, l =>
    match find pat l with
    | none => []
    | some i => l.take i :: completeFuel pat fuel (l.drop (i + pat.length))

/-- The lines whose end is there. -/
def complete (pat l : List α) : List (List α) := completeFuel pat l.length l

private theorem completeFuel_congr (hpat : pat ≠ []) {m n : ℕ} {l : List α} (hm : l.length ≤ m) (hn : l.length ≤ n) :
    completeFuel pat m l = completeFuel pat n l := by
  have hpos := List.length_pos_of_ne_nil hpat
  induction m generalizing n l with
  | zero =>
    obtain rfl := List.length_eq_zero_iff.1 (Nat.le_zero.1 hm)
    cases n with
    | zero => rfl
    | succ n => rfl
  | succ m ih =>
    cases n with
    | zero =>
      obtain rfl := List.length_eq_zero_iff.1 (Nat.le_zero.1 hn)
      rfl
    | succ n =>
      rw [completeFuel, completeFuel]
      cases hfind : find pat l with
      | none => rfl
      | some i =>
        have hle := find_le hfind
        dsimp only
        rw [ih (n := n)]
        · rw [List.length_drop]
          omega
        · rw [List.length_drop]
          omega

theorem complete_of_none {l : List α} (h : find pat l = none) : complete pat l = [] := by
  unfold complete
  cases l with
  | nil => rfl
  | cons a l => rw [List.length_cons, completeFuel, h]

theorem complete_of_find (hpat : pat ≠ []) {l : List α} {i : ℕ} (h : find pat l = some i) :
    complete pat l = l.take i :: complete pat (l.drop (i + pat.length)) := by
  have hpos := List.length_pos_of_ne_nil hpat
  have hle := find_le h
  obtain ⟨n, hn⟩ : ∃ n, l.length = n + 1 := ⟨l.length - 1, by omega⟩
  unfold complete
  rw [hn, completeFuel, h]
  dsimp only
  rw [completeFuel_congr hpat (m := n) _ le_rfl]
  rw [List.length_drop]
  omega

end Lines
