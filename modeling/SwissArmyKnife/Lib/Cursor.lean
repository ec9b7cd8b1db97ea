import Mathlib.Tactic.Common

/-!
# Cursors over a list

A place in a list is given by the elements before it, nearest first, the element at it and the elements after it.  A
cursor is at a place or invalid.  `scan` and `scanBack` look for an element from a place on; `Place.view` is the place
in the list of the elements that pass a test, and commutes with them.
-/

namespace Cursor

variable {α β : Type*}

@[ext]
structure Place (α : Type*) where
  before : List α
  current : α
  after : List α
deriving DecidableEq

namespace Place

def toList (p : Place α) : List α := p.before.reverse ++ p.current :: p.after

/-- The place among the elements that pass the test, after a map. -/
def view (shown : α → Bool) (f : α → β) (p : Place α) : Place β :=
  ⟨(p.before.filter shown).map f, f p.current, (p.after.filter shown).map f⟩

end Place

/-- The place of the first of the elements `after`. -/
def front (before : List α) : List α → Option (Place α)
  | [] => none
  | a :: after => some ⟨before, a, after⟩

/-- The place of the last of the elements `before`. -/
def back (after : List α) : List α → Option (Place α)
  | [] => none
  | a :: before => some ⟨before, a, after⟩

def Place.next (p : Place α) : Option (Place α) := front (p.current :: p.before) p.after

def Place.prev (p : Place α) : Option (Place α) := back (p.current :: p.after) p.before

def first (l : List α) : Option (Place α) := front [] l

def last (l : List α) : Option (Place α) := back [] l.reverse

/-- The first place whose element passes the test. -/
def scan (q : α → Bool) : List α → List α → Option (Place α)
  | _, [] => none
  | before, a :: after => if q a then some ⟨before, a, after⟩ else scan q (a :: before) after

/-- The last place whose element passes the test. -/
def scanBack (q : α → Bool) : List α → List α → Option (Place α)
  | _, [] => none
  | after, a :: before => if q a then some ⟨before, a, after⟩ else scanBack q (a :: after) before

def seek (q : α → Bool) (l : List α) : Option (Place α) := scan q [] l

theorem scan_cons_pos {q : α → Bool} {before after : List α} {a : α} (h : q a = true) :
    scan q before (a :: after) = some ⟨before, a, after⟩ := by
  rw [scan, if_pos h]

theorem scan_cons_neg {q : α → Bool} {before after : List α} {a : α} (h : q a = false) :
    scan q before (a :: after) = scan q (a :: before) after := by
  rw [scan, if_neg (by simp [h])]

theorem scanBack_cons_pos {q : α → Bool} {after before : List α} {a : α} (h : q a = true) :
    scanBack q after (a :: before) = some ⟨before, a, after⟩ := by
  rw [scanBack, if_pos h]

theorem scanBack_cons_neg {q : α → Bool} {after before : List α} {a : α} (h : q a = false) :
    scanBack q after (a :: before) = scanBack q (a :: after) before := by
  rw [scanBack, if_neg (by simp [h])]

theorem scan_congr {q q' : α → Bool} {before after : List α} (h : ∀ a ∈ after, q a = q' a) :
    scan q before after = scan q' before after := by
  induction after generalizing before with
  | nil => rfl
  | cons a after ih =>
    rw [scan, scan, h a (List.mem_cons_self ..), ih fun b hb => h b (List.mem_cons_of_mem _ hb)]

/-- Elements that do not pass the test are passed over. -/
theorem scan_append {q : α → Bool} {before skipped after : List α} (h : ∀ a ∈ skipped, q a = false) :
    scan q before (skipped ++ after) = scan q (skipped.reverse ++ before) after := by
  induction skipped generalizing before with
  | nil => rfl
  | cons a skipped ih =>
    rw [List.cons_append, scan_cons_neg (h a (List.mem_cons_self ..)),
      ih fun b hb => h b (List.mem_cons_of_mem _ hb)]
    simp

theorem scan_some {q : α → Bool} {before after : List α} {p : Place α} (h : scan q before after = some p) :
    p.toList = before.reverse ++ after ∧ q p.current = true := by
  induction after generalizing before with
  | nil => simp [scan] at h
  | cons a after ih =>
    rw [scan] at h
    split at h
    · cases h
      exact ⟨rfl, by assumption⟩
    · obtain ⟨hlist, hq⟩ := ih h
      exact ⟨by simpa using hlist, hq⟩

theorem scanBack_some {q : α → Bool} {before after : List α} {p : Place α} (h : scanBack q after before = some p) :
    p.toList = before.reverse ++ after ∧ q p.current = true := by
  induction before generalizing after with
  | nil => simp [scanBack] at h
  | cons a before ih =>
    rw [scanBack] at h
    split at h
    · cases h
      exact ⟨by simp [Place.toList], by assumption⟩
    · obtain ⟨hlist, hq⟩ := ih h
      exact ⟨by simpa using hlist, hq⟩

theorem scanBack_congr {q q' : α → Bool} {after before : List α} (h : ∀ a ∈ before, q a = q' a) :
    scanBack q after before = scanBack q' after before := by
  induction before generalizing after with
  | nil => rfl
  | cons a before ih =>
    rw [scanBack, scanBack, h a (List.mem_cons_self ..), ih fun b hb => h b (List.mem_cons_of_mem _ hb)]

theorem scanBack_append {q : α → Bool} {after skipped before : List α} (h : ∀ a ∈ skipped, q a = false) :
    scanBack q after (skipped ++ before) = scanBack q (skipped.reverse ++ after) before := by
  induction skipped generalizing after with
  | nil => rfl
  | cons a skipped ih =>
    rw [List.cons_append, scanBack_cons_neg (h a (List.mem_cons_self ..)),
      ih fun b hb => h b (List.mem_cons_of_mem _ hb)]
    simp

/-- A scan back may first look for an element that passes a weaker test. -/
theorem scanBack_of_imp {q q' : α → Bool} {after before : List α} (h : ∀ a ∈ before, q a = true → q' a = true) :
    scanBack q after before = (scanBack q' after before).bind fun p => scanBack q p.after
      (p.current :: p.before) := by
  induction before generalizing after with
  | nil => rfl
  | cons a before ih =>
    by_cases ha : q' a = true
    · rw [scanBack_cons_pos (q := q') ha]
      rfl
    · have hq : q a = false := by
        by_contra hq
        exact ha (h a (List.mem_cons_self ..) (by simpa using hq))
      rw [scanBack_cons_neg hq, scanBack_cons_neg (q := q') (by simpa using ha)]
      exact ih fun b hb => h b (List.mem_cons_of_mem _ hb)

/-- A scan splits the list at the first element that passes the test. -/
theorem scan_split (q : α → Bool) (before after : List α) : ∃ skipped rest, after = skipped ++ rest ∧
    scan q before after = front (skipped.reverse ++ before) rest ∧ (∀ a ∈ skipped, q a = false) ∧
    ∀ a ∈ rest.head?, q a = true := by
  induction after generalizing before with
  | nil => exact ⟨[], [], rfl, rfl, by simp, by simp⟩
  | cons a after ih =>
    by_cases ha : q a = true
    · exact ⟨[], a :: after, rfl, scan_cons_pos ha, by simp, by simpa using ha⟩
    · obtain ⟨skipped, rest, hlist, hscan, hfalse, hhead⟩ := ih (a :: before)
      refine ⟨a :: skipped, rest, by simp [hlist], ?_, by simpa [ha] using hfalse, hhead⟩
      rw [scan_cons_neg (by simpa using ha), hscan]
      simp

theorem scanBack_split (q : α → Bool) (after before : List α) : ∃ skipped rest, before = skipped ++ rest ∧
    scanBack q after before = back (skipped.reverse ++ after) rest ∧ (∀ a ∈ skipped, q a = false) ∧
    ∀ a ∈ rest.head?, q a = true := by
  induction before generalizing after with
  | nil => exact ⟨[], [], rfl, rfl, by simp, by simp⟩
  | cons a before ih =>
    by_cases ha : q a = true
    · exact ⟨[], a :: before, rfl, scanBack_cons_pos ha, by simp, by simpa using ha⟩
    · obtain ⟨skipped, rest, hlist, hscan, hfalse, hhead⟩ := ih (a :: after)
      refine ⟨a :: skipped, rest, by simp [hlist], ?_, by simpa [ha] using hfalse, hhead⟩
      rw [scanBack_cons_neg (by simpa using ha), hscan]
      simp

theorem view_scan (shown : α → Bool) (f : α → β) (before after : List α) :
    (scan shown before after).map (Place.view shown f) =
      front ((before.filter shown).map f) ((after.filter shown).map f) := by
  induction after generalizing before with
  | nil => rfl
  | cons a after ih =>
    rw [scan]
    split
    · rename_i ha
      simp [Place.view, front, ha]
    · rename_i ha
      rw [ih]
      simp [ha]

theorem view_scanBack (shown : α → Bool) (f : α → β) (before after : List α) :
    (scanBack shown after before).map (Place.view shown f) =
      back ((after.filter shown).map f) ((before.filter shown).map f) := by
  induction before generalizing after with
  | nil => rfl
  | cons a before ih =>
    rw [scanBack]
    split
    · rename_i ha
      simp [Place.view, back, ha]
    · rename_i ha
      rw [ih]
      simp [ha]

/-- A scan from the front of a list is a scan from the first element that may pass the test. -/
theorem scan_eq_front {q : β → Bool} {before after : List β} (hbefore : ∀ a ∈ before, q a = false)
    (hafter : ∀ a ∈ after, q a = true) : seek q (before ++ after) = front before.reverse after := by
  rw [seek, scan_append hbefore, List.append_nil]
  cases after with
  | nil => rfl
  | cons a after => exact scan_cons_pos (hafter a (List.mem_cons_self ..))

end Cursor
