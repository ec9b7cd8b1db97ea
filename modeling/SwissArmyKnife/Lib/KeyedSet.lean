import Mathlib.Data.List.Nodup
import Mathlib.Tactic.Common

/-!
# Sets by key

A set that keeps at most one element of each key, as a list.  An element is put in when there is none with its key.
-/

namespace KeyedSet

variable {α κ : Type*} [DecidableEq κ] (key : α → κ)

def find (l : List α) (k : κ) : Option α := l.find? fun a => key a = k

def erase (l : List α) (k : κ) : List α := l.eraseP fun a => key a = k

def insert (l : List α) (a : α) : List α :=
  match find key l (key a) with
  | some _ => l
  | none => a :: l

/-- No two elements have the same key. -/
def Unique (l : List α) : Prop := (l.map key).Nodup

variable {key} {l : List α} {a : α} {k : κ}

theorem find_eq_none : find key l k = none ↔ k ∉ l.map key := by
  unfold find
  rw [List.find?_eq_none]
  simp

theorem key_of_find (h : find key l k = some a) : key a = k := by
  simpa using List.find?_some h

theorem Unique.find_eq_some (h : Unique key l) : find key l k = some a ↔ a ∈ l ∧ key a = k := by
  refine ⟨fun ha => ⟨List.mem_of_find?_eq_some ha, key_of_find ha⟩, ?_⟩
  rintro ⟨ha, rfl⟩
  cases hfind : find key l (key a) with
  | none => exact absurd (List.mem_map_of_mem ha) (find_eq_none.1 hfind)
  | some b =>
    have hb := List.mem_of_find?_eq_some hfind
    rw [List.inj_on_of_nodup_map h hb ha (key_of_find hfind)]

/-- Where the elements stand does not matter. -/
theorem Unique.find_perm {l' : List α} (h : Unique key l) (hl : l'.Perm l) (k : κ) :
    find key l' k = find key l k := by
  have h' : Unique key l' := (hl.map key).nodup_iff.2 h
  ext a
  rw [h.find_eq_some, h'.find_eq_some, hl.mem_iff]

theorem Unique.erase_perm {l' : List α} (h : Unique key l) (hl : l.Perm l') (k : κ) :
    (KeyedSet.erase key l k).Perm (KeyedSet.erase key l' k) := by
  refine List.Perm.eraseP _ ?_ hl
  refine (List.pairwise_map.1 h).imp ?_
  intro a b hab ha hb
  simp only [decide_eq_true_eq] at ha hb
  exact hab (ha.trans hb.symm)

theorem perm_cons_erase (h : find key l k = some a) : l.Perm (a :: KeyedSet.erase key l k) := by
  obtain ⟨hk, l₁, l₂, rfl, hbefore⟩ := List.find?_eq_some_iff_append.1 h
  have hcons : (a :: l₂).eraseP (fun b => decide (key b = k)) = l₂ := List.eraseP_cons_of_pos (by simpa using hk)
  unfold erase
  rw [List.eraseP_append_right _ (by simpa using hbefore), hcons]
  exact List.perm_middle

theorem Unique.erase (h : Unique key l) : Unique key (erase key l k) :=
  List.Nodup.sublist (List.Sublist.map key List.eraseP_sublist) h

theorem Unique.insert (h : Unique key l) : Unique key (insert key l a) := by
  unfold KeyedSet.insert
  cases hfind : find key l (key a) with
  | some b => exact h
  | none => exact List.nodup_cons.2 ⟨find_eq_none.1 hfind, h⟩

theorem find_erase_self (h : Unique key l) : find key (erase key l k) k = none := by
  induction l with
  | nil => rfl
  | cons b l ih =>
    obtain ⟨hb, hl⟩ := List.nodup_cons.1 h
    unfold erase
    by_cases hk : key b = k
    · rw [List.eraseP_cons_of_pos (by simpa using hk), find_eq_none, ← hk]
      exact hb
    · rw [List.eraseP_cons_of_neg (by simpa using hk)]
      unfold find
      rw [List.find?_cons_of_neg (by simpa using hk)]
      exact ih hl

theorem find_erase_of_ne {k' : κ} (h : k' ≠ k) : find key (erase key l k) k' = find key l k' := by
  induction l with
  | nil => rfl
  | cons b l ih =>
    unfold erase find at ih ⊢
    by_cases hk : key b = k
    · have hk' : key b ≠ k' := fun heq => h (heq ▸ hk)
      rw [List.eraseP_cons_of_pos (by simpa using hk), List.find?_cons_of_neg (by simpa using hk')]
    · rw [List.eraseP_cons_of_neg (by simpa using hk), List.find?_cons, List.find?_cons, ih]

theorem find_insert_self (h : find key l (key a) = none) : find key (insert key l a) (key a) = some a := by
  unfold insert
  rw [h]
  exact List.find?_cons_of_pos (by simp)

theorem find_insert_of_ne (h : k ≠ key a) : find key (insert key l a) k = find key l k := by
  unfold insert
  cases find key l (key a) with
  | some b => rfl
  | none => exact List.find?_cons_of_neg (by simpa using Ne.symm h)

/-- The keys of a list in which an element took the place of another one. -/
theorem find_insert_erase (h : Unique key l) (hk : key a = k) (k' : κ) :
    find key (insert key (erase key l k) a) k' = if k' = k then some a else find key l k' := by
  split_ifs with heq
  · rw [heq, ← hk]
    exact find_insert_self (find_erase_self h)
  · rw [find_insert_of_ne (hk ▸ heq), find_erase_of_ne heq]

end KeyedSet
