import SwissArmyKnife.RedisDb.DbIter

/-!
# A database iterator is a cursor over the visible map

`visible` lists, for a sorted list of entries, the user keys that a read as of `sequence` finds, with their values.  A
cursor over that list is given by `mapCall`.  `Shows` relates a `DBIter` to such a cursor: the loops of the iterator
are scans for a shown entry (`findNext_eq`, `findPrev_eq`), and a scan commutes with the passage from the entries to
the map.
-/

namespace RedisDb

open Cursor (Place)

variable {K V : Type*} [LinearOrder K]

namespace DBIter

/-- The entry is a value and the newest entry of its user key that is not younger than `sequence`. -/
def shown (entries : List (Entry K V)) (sequence : ℕ) (e : Entry K V) : Bool :=
  decide (e.sequence ≤ sequence ∧ e.key.type = .kTypeValue ∧
    ∀ e' ∈ entries, e'.userkey = e.userkey → e'.sequence ≤ sequence → e'.tag ≤ e.tag)

def pair (e : Entry K V) : K × V := (e.userkey, e.value)

/-- The map that a read as of `sequence` sees. -/
def visible (entries : List (Entry K V)) (sequence : ℕ) : List (K × V) :=
  (entries.filter (shown entries sequence)).map pair

/-- A call on a cursor over a map; there is no result for `Next` and `Prev` on an invalid cursor. -/
def mapCall (m : List (K × V)) (cursor : Option (Place (K × V))) : Call K → Option (Option (Place (K × V)))
  | .Seek target => some (Cursor.seek (fun kv => decide (target ≤ kv.1)) m)
  | .SeekToFirst => some (Cursor.first m)
  | .SeekToLast => some (Cursor.last m)
  | .Next => cursor.map Place.next
  | .Prev => cursor.map Place.prev

/-- What a user of the iterator sees of it. -/
def shows (it : DBIter K V) : Option (Option K × Option V) := if it.Valid then some (it.key, it.value) else none

/-- What a user of a cursor sees of it. -/
def mapShows (cursor : Option (Place (K × V))) : Option (Option K × Option V) :=
  cursor.map fun p => (some p.current.1, some p.current.2)

variable {entries : List (Entry K V)} {sequence : ℕ}

theorem shown_iff {e : Entry K V} : shown entries sequence e = true ↔
    e.sequence ≤ sequence ∧ e.key.type = .kTypeValue ∧
      ∀ e' ∈ entries, e'.userkey = e.userkey → e'.sequence ≤ sequence → e'.tag ≤ e.tag := by
  simp [shown]

/-- The shown entries are those that a read finds. -/
theorem mem_visible {u : K} {v : V} : (u, v) ∈ visible entries sequence ↔
    ∃ e, Mvcc.Newest Entry.userkey Entry.tag {e | e ∈ entries} u (seekTag sequence) e ∧ e.result = some v := by
  simp only [visible, List.mem_map, List.mem_filter, shown_iff, pair, Prod.mk.injEq]
  constructor
  · rintro ⟨e, ⟨hmem, hle, htype, hnewest⟩, hkey, hvalue⟩
    refine ⟨e, ⟨hmem, hkey, tag_le_seekTag_iff.2 hle, ?_⟩, by simp [Entry.result, htype, hvalue]⟩
    intro e' he' hkey' hle'
    exact hnewest e' he' (hkey'.trans hkey.symm) (tag_le_seekTag_iff.1 hle')
  · rintro ⟨e, h, hresult⟩
    have htype : e.key.type = .kTypeValue := by
      cases ht : e.key.type with
      | kTypeDeletion => simp [Entry.result, ht] at hresult
      | kTypeValue => rfl
    refine ⟨e, ⟨h.mem, tag_le_seekTag_iff.1 h.le, htype, ?_⟩, h.key_eq, by simpa [Entry.result, htype] using hresult⟩
    intro e' he' hkey' hle'
    exact h.newest e' he' (hkey'.trans h.key_eq) (tag_le_seekTag_iff.2 hle')

/-! ### Entries in order -/

section Order

variable {before after : List (Entry K V)}

private theorem key_lt_of_split (hsorted : entries.Pairwise fun a b => a.key < b.key)
    (hlist : entries = before.reverse ++ after) {a b : Entry K V} (ha : a ∈ before) (hb : b ∈ after) :
    a.key < b.key := by
  rw [hlist, List.pairwise_append] at hsorted
  exact hsorted.2.2 a (List.mem_reverse.2 ha) b hb

/-- Of two shown entries, or of an entry that is old enough and a shown one after it, the user keys differ. -/
private theorem userkey_lt_of_shown (hsorted : entries.Pairwise fun a b => a.key < b.key)
    (hlist : entries = before.reverse ++ after) {a b : Entry K V} (ha : a ∈ before) (hb : b ∈ after)
    (hseq : a.sequence ≤ sequence) (hshown : shown entries sequence b = true) : a.userkey < b.userkey := by
  have hlt := key_lt_of_split hsorted hlist ha hb
  apply lt_of_le_of_ne (InternalKey.userkey_le hlt.le)
  intro hkey
  have hle := (shown_iff.1 hshown).2.2 a (by simp [hlist, ha]) hkey hseq
  exact absurd ((InternalKey.lt_iff_tag hkey).1 hlt) (Nat.not_lt.2 hle)

/-- A value is shown when no entry of its user key before it is old enough. -/
private theorem shown_of_first (hsorted : entries.Pairwise fun a b => a.key < b.key) {e : Entry K V}
    (hlist : entries = before.reverse ++ e :: after) (hseq : e.sequence ≤ sequence)
    (htype : e.key.type = .kTypeValue) (hbefore : ∀ a ∈ before, a.sequence ≤ sequence → a.userkey ≠ e.userkey) :
    shown entries sequence e = true := by
  rw [shown_iff]
  refine ⟨hseq, htype, ?_⟩
  intro e' he' hkey hseq'
  rw [hlist, List.mem_append, List.mem_reverse, List.mem_cons] at he'
  rcases he' with he' | rfl | he'
  · exact absurd hkey (hbefore e' he' hseq')
  · exact Nat.le_refl _
  · have hlist' : entries = (e :: before).reverse ++ after := by simp [hlist]
    have hlt := key_lt_of_split hsorted hlist' (List.mem_cons_self ..) he'
    exact ((InternalKey.lt_iff_tag hkey.symm).1 hlt).le

private theorem not_shown_of_newer {a e : Entry K V} (hsorted : entries.Pairwise fun a b => a.key < b.key)
    (hlist : entries = before.reverse ++ after) (ha : a ∈ before) (he : e ∈ after) (hseq : a.sequence ≤ sequence)
    (hkey : a.userkey = e.userkey) : shown entries sequence e = false := by
  by_contra hshown
  exact absurd hkey (userkey_lt_of_shown hsorted hlist ha he hseq (by simpa using hshown)).ne

private theorem not_shown_of_young {e : Entry K V} (hseq : ¬ e.sequence ≤ sequence) :
    shown entries sequence e = false := by
  by_contra hshown
  exact hseq (shown_iff.1 (by simpa using hshown)).1

private theorem not_shown_of_deletion {e : Entry K V} (htype : e.key.type = .kTypeDeletion) :
    shown entries sequence e = false := by
  by_contra hshown
  have := (shown_iff.1 (show shown entries sequence e = true by simpa using hshown)).2.1
  simp [htype] at this

end Order

/-- Each user key is shown once, in order. -/
theorem visible_sorted (hsorted : entries.Pairwise fun a b => a.key < b.key) :
    (visible entries sequence).Pairwise fun a b => a.1 < b.1 := by
  unfold visible
  rw [List.pairwise_map, List.pairwise_filter]
  apply hsorted.imp_of_mem
  intro a b ha hb hlt hshowna hshownb
  apply lt_of_le_of_ne (InternalKey.userkey_le hlt.le)
  intro hkey
  have hle := (shown_iff.1 hshownb).2.2 a ha hkey (shown_iff.1 hshowna).1
  exact absurd ((InternalKey.lt_iff_tag hkey).1 hlt) (Nat.not_lt.2 hle)

/-! ### Forward -/

/-- A shown entry with a user key after `skip`. -/
private def shownAfter (entries : List (Entry K V)) (sequence : ℕ) (skip : Option K) (e : Entry K V) : Bool :=
  shown entries sequence e && skip.all fun k => decide (k < e.userkey)

/-- Entries after the place that are hidden by entries before it have user keys up to `skip`, and those that are old
enough have no smaller ones. -/
private structure Skips (sequence : ℕ) (before : List (Entry K V)) (skip : Option K) (after : List (Entry K V)) :
    Prop where
  hidden : ∀ a ∈ before, a.sequence ≤ sequence → ∀ e ∈ after, e.userkey = a.userkey → ∃ k ∈ skip, e.userkey ≤ k
  bound : ∀ k ∈ skip, ∀ e ∈ after, e.sequence ≤ sequence → k ≤ e.userkey

private theorem Skips.pass {before after : List (Entry K V)} {skip : Option K} {e : Entry K V}
    (h : Skips sequence before skip (e :: after))
    (he : e.sequence ≤ sequence → ∃ k ∈ skip, e.userkey ≤ k) : Skips sequence (e :: before) skip after where
  hidden a ha hseq y hy hkey := by
    rcases List.mem_cons.1 ha with rfl | ha
    · rw [hkey]
      exact he hseq
    · exact h.hidden a ha hseq y (List.mem_cons_of_mem _ hy) hkey
  bound k hk y hy := h.bound k hk y (List.mem_cons_of_mem _ hy)

private theorem Skips.delete (hsorted : entries.Pairwise fun a b => a.key < b.key) {before after : List (Entry K V)}
    {e : Entry K V} (hlist : entries = before.reverse ++ e :: after) :
    Skips sequence (e :: before) (some e.userkey) after where
  hidden a ha _ y _ hkey := by
    refine ⟨e.userkey, rfl, ?_⟩
    rw [hkey]
    rcases List.mem_cons.1 ha with rfl | ha
    · exact le_rfl
    · exact InternalKey.userkey_le (key_lt_of_split hsorted hlist ha (List.mem_cons_self ..)).le
  bound k hk y hy _ := by
    rw [Option.mem_some_iff] at hk
    subst hk
    have hlist' : entries = (e :: before).reverse ++ after := by simp [hlist]
    exact InternalKey.userkey_le (key_lt_of_split hsorted hlist' (List.mem_cons_self ..) hy).le

/-- After a deletion the entries are shown that were shown after `skip`. -/
private theorem shownAfter_delete (hsorted : entries.Pairwise fun a b => a.key < b.key)
    {before after : List (Entry K V)} {skip : Option K} {e y : Entry K V}
    (hlist : entries = before.reverse ++ e :: after) (hskips : Skips sequence before skip (e :: after))
    (hseq : e.sequence ≤ sequence) (hy : y ∈ after) :
    shownAfter entries sequence (some e.userkey) y = shownAfter entries sequence skip y := by
  have hlist' : entries = (e :: before).reverse ++ after := by simp [hlist]
  unfold shownAfter
  by_cases hshown : shown entries sequence y = true
  · have hlt := userkey_lt_of_shown hsorted hlist' (List.mem_cons_self ..) hy hseq hshown
    have hskip : ∀ k ∈ skip, k < y.userkey := fun k hk =>
      lt_of_le_of_lt (hskips.bound k hk e (List.mem_cons_self ..) hseq) hlt
    cases skip with
    | none => simp [hlt]
    | some k => simp [hlt, hskip k rfl]
  · simp [hshown]

/-- The loop of `FindNextUserEntry` looks for the next shown entry with a user key after `skip`. -/
private theorem findNext_eq (hsorted : entries.Pairwise fun a b => a.key < b.key) {before after : List (Entry K V)}
    {skip : Option K} (hlist : entries = before.reverse ++ after) (hskips : Skips sequence before skip after) :
    findNext sequence before skip after = Cursor.scan (shownAfter entries sequence skip) before after := by
  induction after generalizing before skip with
  | nil => rfl
  | cons e after ih =>
    have hlist' : entries = (e :: before).reverse ++ after := by simp [hlist]
    rw [findNext]
    by_cases hseq : e.sequence ≤ sequence
    · rw [if_pos hseq]
      cases htype : e.key.type with
      | kTypeDeletion =>
        rw [Cursor.scan_cons_neg (by simp [shownAfter, not_shown_of_deletion htype])]
        refine (ih hlist' (Skips.delete hsorted hlist)).trans ?_
        exact Cursor.scan_congr fun y hy => shownAfter_delete hsorted hlist hskips hseq hy
      | kTypeValue =>
        by_cases hskip : ∃ k ∈ skip, e.userkey ≤ k
        · obtain ⟨k, rfl, hle⟩ := hskip
          rw [Cursor.scan_cons_neg (by simp [shownAfter, hle])]
          simp only [Option.any_some, hle, decide_true, if_true]
          exact ih hlist' (hskips.pass fun _ => ⟨k, rfl, hle⟩)
        · have hany : (skip.any fun k => decide (e.userkey ≤ k)) = false := by
            cases skip with
            | none => rfl
            | some k => simpa using hskip
          have hall : (skip.all fun k => decide (k < e.userkey)) = true := by
            cases skip with
            | none => rfl
            | some k => simpa using hskip
          have hshown : shown entries sequence e = true := by
            apply shown_of_first hsorted hlist hseq htype
            intro a ha haseq hkey
            exact hskip (hskips.hidden a ha haseq e (List.mem_cons_self ..) hkey.symm)
          rw [Cursor.scan_cons_pos (by simp [shownAfter, hshown, hall])]
          simp only [hany, Bool.false_eq_true, if_false]
    · rw [if_neg hseq, Cursor.scan_cons_neg (by simp [shownAfter, not_shown_of_young hseq])]
      exact ih hlist' (hskips.pass fun h => absurd h hseq)

/-! ### Backward -/

/-- The entry is old enough to be seen. -/
def old (sequence : ℕ) (e : Entry K V) : Bool := decide (e.sequence ≤ sequence)

/-- The iterator that goes with the shown entry at a place: just before all entries of its user key. -/
private def prevResult (sequence : ℕ) : Option (Place (Entry K V)) → Option (Place (Entry K V)) × Option (K × V)
  | none => (none, none)
  | some q => (Cursor.scanBack (old sequence) (q.current :: q.after) q.before, some (pair q.current))

private theorem old_of_shown {e : Entry K V} (h : shown entries sequence e = true) : old sequence e = true := by
  simpa [old] using (shown_iff.1 h).1

/-- `q` is at a value that is old enough, and the entries between it and `before` are not. -/
private structure Candidate (sequence : ℕ) (before : List (Entry K V)) (q : Place (Entry K V))
    (mid : List (Entry K V)) : Prop where
  type : q.current.key.type = .kTypeValue
  seq : q.current.sequence ≤ sequence
  young : ∀ a ∈ mid, ¬ a.sequence ≤ sequence
  before_eq : q.before = mid ++ before

private theorem Candidate.not_shown {before : List (Entry K V)} {q : Place (Entry K V)} {mid : List (Entry K V)}
    (h : Candidate sequence before q mid) : ∀ a ∈ mid, shown entries sequence a = false :=
  fun a ha => not_shown_of_young (h.young a ha)

/-- A candidate is shown when no older entry of its user key comes before. -/
private theorem Candidate.shown (hsorted : entries.Pairwise fun a b => a.key < b.key) {before : List (Entry K V)}
    {q : Place (Entry K V)} {mid : List (Entry K V)} (h : Candidate sequence before q mid)
    (hlist : entries = q.toList)
    (hnone : ∀ a ∈ before, a.sequence ≤ sequence → a.userkey ≠ q.current.userkey) :
    shown entries sequence q.current = true := by
  apply shown_of_first hsorted hlist h.seq h.type
  intro a ha hseq
  rw [h.before_eq, List.mem_append] at ha
  rcases ha with ha | ha
  · exact absurd hseq (h.young a ha)
  · exact hnone a ha hseq

/-- The loop of `FindPrevUserEntry` looks for the previous shown entry and goes on to the first entry of a smaller
user key that is old enough; with a candidate, it starts from there. -/
private theorem findPrev_eq (hsorted : entries.Pairwise fun a b => a.key < b.key) (before : List (Entry K V)) :
    (∀ after, entries = before.reverse ++ after → findPrev sequence after none before =
      prevResult sequence (Cursor.scanBack (shown entries sequence) after before)) ∧
    ∀ q mid, entries = q.toList → Candidate sequence before q mid →
      findPrev sequence (mid.reverse ++ q.current :: q.after) (some (pair q.current)) before =
        prevResult sequence (Cursor.scanBack (shown entries sequence) q.after (q.current :: q.before)) := by
  induction before with
  | nil =>
    refine ⟨fun after _ => rfl, ?_⟩
    intro q mid hlist hcand
    rw [Cursor.scanBack_cons_pos (hcand.shown hsorted hlist (by simp)), findPrev, prevResult, hcand.before_eq,
      Cursor.scanBack_append fun a ha => by simp [old, hcand.young a ha]]
    rfl
  | cons e before ih =>
    constructor
    · intro after hlist
      have hlist' : entries = before.reverse ++ e :: after := by simp [hlist]
      rw [findPrev]
      by_cases hseq : e.sequence ≤ sequence
      · rw [if_pos hseq, if_neg (by simp)]
        cases htype : e.key.type with
        | kTypeDeletion =>
          rw [Cursor.scanBack_cons_neg (not_shown_of_deletion htype)]
          exact ih.1 _ hlist'
        | kTypeValue => exact ih.2 ⟨before, e, after⟩ [] hlist' ⟨htype, hseq, by simp, rfl⟩
      · rw [if_neg hseq, Cursor.scanBack_cons_neg (not_shown_of_young hseq)]
        exact ih.1 _ hlist'
    · intro q mid hlist hcand
      have hsplit : entries = (q.current :: (mid ++ e :: before)).reverse ++ q.after := by
        simp [hlist, Place.toList, hcand.before_eq]
      have hlist' : entries = before.reverse ++ e :: (mid.reverse ++ q.current :: q.after) := by simp [hsplit]
      rw [findPrev]
      by_cases hseq : e.sequence ≤ sequence
      · rw [if_pos hseq]
        by_cases hlt : e.userkey < q.current.userkey
        · -- An entry of a smaller user key ends the loop: the candidate is shown.
          have hshown := hcand.shown hsorted hlist fun a ha _ hkey => by
            rcases List.mem_cons.1 ha with rfl | ha
            · exact hlt.ne hkey
            · have hle := InternalKey.userkey_le (key_lt_of_split hsorted hlist' ha (List.mem_cons_self ..)).le
              exact (lt_of_le_of_lt hle hlt).ne hkey
          rw [Cursor.scanBack_cons_pos hshown, prevResult, hcand.before_eq,
            Cursor.scanBack_append fun a ha => by simp [old, hcand.young a ha],
            Cursor.scanBack_cons_pos (by simpa [old] using hseq)]
          simp [pair, hlt]
        · -- An entry of the same user key is newer than the candidate.
          have hkey : e.userkey = q.current.userkey := by
            apply le_antisymm _ (not_lt.1 hlt)
            have hsplit' : entries = (e :: before).reverse ++ (mid.reverse ++ q.current :: q.after) := by
              simp [hlist']
            exact InternalKey.userkey_le (key_lt_of_split hsorted hsplit' (List.mem_cons_self ..) (by simp)).le
          have hnot : shown entries sequence q.current = false := by
            have hsplit' : entries = (e :: before).reverse ++ (mid.reverse ++ q.current :: q.after) := by
              simp [hlist']
            exact not_shown_of_newer hsorted hsplit' (List.mem_cons_self ..) (by simp) hseq hkey
          rw [Cursor.scanBack_cons_neg hnot, hcand.before_eq, Cursor.scanBack_append hcand.not_shown,
            if_neg (by simpa [pair] using hlt)]
          cases htype : e.key.type with
          | kTypeDeletion =>
            rw [Cursor.scanBack_cons_neg (not_shown_of_deletion htype)]
            exact ih.1 _ hlist'
          | kTypeValue =>
            exact ih.2 ⟨before, e, mid.reverse ++ q.current :: q.after⟩ [] hlist' ⟨htype, hseq, by simp, rfl⟩
      · rw [if_neg hseq]
        have hyoung : ∀ a ∈ mid ++ [e], ¬ a.sequence ≤ sequence := by
          intro a ha
          rcases List.mem_append.1 ha with ha | ha
          · exact hcand.young a ha
          · rw [List.mem_singleton.1 ha]
            exact hseq
        have hcand' : Candidate sequence before q (mid ++ [e]) :=
          ⟨hcand.type, hcand.seq, hyoung, by simp [hcand.before_eq]⟩
        simpa using ih.2 q (mid ++ [e]) hlist hcand'

/-! ### Calls -/

/-- The iterator shows the place of the cursor. -/
inductive Shows (entries : List (Entry K V)) (sequence : ℕ) : DBIter K V → Option (Place (K × V)) → Prop where
  | invalid {it : DBIter K V} (h : it.vali = false) : Shows entries sequence it none
  | forward {it : DBIter K V} (p : Place (Entry K V)) (hvalid : it.vali = true) (hdir : it.direction = .kForward)
      (hiter : it.iter = some p) (hlist : p.toList = entries) (hshown : shown entries sequence p.current = true) :
      Shows entries sequence it (some (p.view (shown entries sequence) pair))
  | reverse {it : DBIter K V} (q : Place (Entry K V)) (hvalid : it.vali = true) (hdir : it.direction = .kReverse)
      (hiter : it.iter = Cursor.scanBack (old sequence) (q.current :: q.after) q.before)
      (hkey : it.savedkey = some q.current.userkey) (hvalue : it.savedvalue = some q.current.value)
      (hlist : q.toList = entries) (hshown : shown entries sequence q.current = true) :
      Shows entries sequence it (some (q.view (shown entries sequence) pair))

theorem Shows.shows_eq {it : DBIter K V} {cursor : Option (Place (K × V))} (h : Shows entries sequence it cursor) :
    it.shows = mapShows cursor := by
  cases h with
  | invalid h => simp [shows, Valid, h, mapShows]
  | forward p hvalid hdir hiter => simp [shows, Valid, hvalid, mapShows, key, value, hdir, hiter, Place.view, pair]
  | reverse q hvalid hdir hiter hkey hvalue =>
    simp [shows, Valid, hvalid, mapShows, key, value, hdir, hkey, hvalue, Place.view, pair]

/-- The iterator goes forward from the first of the entries `after`. -/
private theorem shows_front (hsorted : entries.Pairwise fun a b => a.key < b.key) {result : DBIter K V}
    {before after : List (Entry K V)} {skip : Option K} (hlist : entries = before.reverse ++ after)
    (hskips : Skips sequence before skip after) (hnil : after = [] → result.vali = false)
    (hcons : ∀ e rest, after = e :: rest → ∃ it : DBIter K V, it.direction = .kForward ∧
      result = it.FindNextUserEntry sequence ⟨before, e, rest⟩ skip) :
    Shows entries sequence result
      ((Cursor.scan (shownAfter entries sequence skip) before after).map
        (Place.view (shown entries sequence) pair)) := by
  cases after with
  | nil => exact Shows.invalid (hnil rfl)
  | cons e after =>
    have hfound := findNext_eq hsorted hlist hskips
    obtain ⟨it, hdir, rfl⟩ := hcons e after rfl
    rw [← hfound]
    cases hscan : findNext sequence before skip (e :: after) with
    | none => exact Shows.invalid (by simp [FindNextUserEntry, hscan])
    | some p =>
      obtain ⟨hplace, hafter⟩ := Cursor.scan_some (hfound.symm.trans hscan)
      have hshown : shown entries sequence p.current = true := by
        simp only [shownAfter, Bool.and_eq_true] at hafter
        exact hafter.1
      exact Shows.forward p (by simp [FindNextUserEntry, hscan]) hdir (by simp [FindNextUserEntry, hscan])
        (hplace.trans hlist.symm) hshown

/-- The iterator goes back from the last of the entries `before`. -/
private theorem shows_back (hsorted : entries.Pairwise fun a b => a.key < b.key) {it : DBIter K V}
    {before after : List (Entry K V)} (hdir : it.direction = .kReverse) (hlist : entries = before.reverse ++ after) :
    Shows entries sequence (it.FindPrevUserEntry sequence after before)
      ((Cursor.scanBack (shown entries sequence) after before).map (Place.view (shown entries sequence) pair)) := by
  have hfound : findPrev sequence after none before = _ := (findPrev_eq hsorted before).1 after hlist
  unfold FindPrevUserEntry
  cases hscan : Cursor.scanBack (shown entries sequence) after before with
  | none =>
    rw [hfound, hscan]
    exact Shows.invalid rfl
  | some q =>
    rw [hfound, hscan]
    obtain ⟨hplace, hshown⟩ := Cursor.scanBack_some hscan
    exact Shows.reverse q rfl hdir rfl rfl rfl (hplace.trans hlist.symm) hshown

private theorem shownAfter_none : shownAfter entries sequence none = shown entries sequence := by
  funext e
  simp [shownAfter]

/-- After an entry that is old enough, all shown entries have larger user keys. -/
private theorem shownAfter_after (hsorted : entries.Pairwise fun a b => a.key < b.key) {e : Entry K V}
    {before after : List (Entry K V)} (hlist : entries = (e :: before).reverse ++ after)
    (hseq : e.sequence ≤ sequence) :
    ∀ y ∈ after, shownAfter entries sequence (some e.userkey) y = shown entries sequence y := by
  intro y hy
  unfold shownAfter
  by_cases hs : shown entries sequence y = true
  · simp [userkey_lt_of_shown hsorted hlist (List.mem_cons_self ..) hy hseq hs]
  · simp [hs]

private theorem skips_none {before after : List (Entry K V)}
    (h : ∀ a ∈ before, a.sequence ≤ sequence → ∀ e ∈ after, e.userkey ≠ a.userkey) :
    Skips sequence before none after :=
  ⟨fun a ha hseq e he hkey => absurd hkey (h a ha hseq e he), fun k hk => by simp at hk⟩

private theorem shows_seek (hsorted : entries.Pairwise fun a b => a.key < b.key) (it : DBIter K V) (target : K) :
    Shows entries sequence (it.Seek entries sequence target)
      (Cursor.seek (fun kv => decide (target ≤ kv.1)) (visible entries sequence)) := by
  obtain ⟨skipped, rest, hlist, hseek, hskipped, hhead⟩ :=
    Cursor.scan_split (fun e : Entry K V => decide (LookupKey target sequence ≤ e.key)) [] entries
  rw [List.append_nil] at hseek
  have hsplit : entries = skipped.reverse.reverse ++ rest := by simpa using hlist
  have hbefore : ∀ a ∈ skipped, a.key < LookupKey target sequence := fun a ha => by simpa using hskipped a ha
  have hrest : ∀ e ∈ rest, LookupKey target sequence ≤ e.key := by
    cases rest with
    | nil => simp
    | cons e rest =>
      have he : LookupKey target sequence ≤ e.key := by simpa using hhead e rfl
      rw [hlist, List.pairwise_append, List.pairwise_cons] at hsorted
      simpa [he] using fun y hy => he.trans (hsorted.2.1.1 y hy).le
  have holder : ∀ a ∈ skipped, a.sequence ≤ sequence → a.userkey < target := by
    intro a ha hseq
    rcases InternalKey.lt_iff.1 (hbefore a ha) with hlt | ⟨-, htag⟩
    · exact hlt
    · exact absurd (tag_le_seekTag_iff.2 hseq) (Nat.not_le.2 htag)
  have hskips : Skips sequence skipped.reverse none rest := by
    apply skips_none
    intro a ha hseq e he hkey
    have hle : target ≤ e.userkey := InternalKey.userkey_le (hrest e he)
    rw [hkey] at hle
    exact (lt_of_lt_of_le (holder a (List.mem_reverse.1 ha) hseq) hle).false
  have hmap : Cursor.seek (fun kv : K × V => decide (target ≤ kv.1)) (visible entries sequence) =
      (Cursor.scan (shownAfter entries sequence none) skipped.reverse rest).map
        (Place.view (shown entries sequence) pair) := by
    rw [shownAfter_none, Cursor.view_scan, visible]
    conv_lhs => rw [hlist, List.filter_append, List.map_append, ← hlist]
    rw [Cursor.scan_eq_front]
    · simp
    · intro kv hkv
      obtain ⟨a, ha, rfl⟩ := List.mem_map.1 hkv
      obtain ⟨hmem, hshown⟩ := List.mem_filter.1 ha
      exact decide_eq_false (not_le.2 (holder a hmem (shown_iff.1 hshown).1))
    · intro kv hkv
      obtain ⟨e, he, rfl⟩ := List.mem_map.1 hkv
      exact decide_eq_true (InternalKey.userkey_le (hrest e (List.mem_filter.1 he).1))
  rw [hmap]
  unfold Seek
  rw [Cursor.seek, hseek]
  apply shows_front hsorted hsplit hskips
  · rintro rfl
    rfl
  · rintro e rest' rfl
    exact ⟨_, rfl, rfl⟩

private theorem shows_seekToFirst (hsorted : entries.Pairwise fun a b => a.key < b.key) (it : DBIter K V) :
    Shows entries sequence (it.SeekToFirst entries sequence) (Cursor.first (visible entries sequence)) := by
  have hmap : Cursor.first (visible entries sequence) =
      (Cursor.scan (shownAfter entries sequence none) [] entries).map
        (Place.view (shown entries sequence) pair) := by
    rw [shownAfter_none, Cursor.view_scan]
    rfl
  have hskips : Skips sequence [] none entries := skips_none (by simp)
  rw [hmap]
  unfold SeekToFirst Cursor.first
  apply shows_front hsorted rfl hskips
  · rintro rfl
    rfl
  · rintro e rest rfl
    exact ⟨_, rfl, rfl⟩

private theorem shows_seekToLast (hsorted : entries.Pairwise fun a b => a.key < b.key) (it : DBIter K V) :
    Shows entries sequence (it.SeekToLast entries sequence) (Cursor.last (visible entries sequence)) := by
  have hmap : Cursor.last (visible entries sequence) =
      (Cursor.scanBack (shown entries sequence) [] entries.reverse).map
        (Place.view (shown entries sequence) pair) := by
    rw [Cursor.view_scanBack, Cursor.last, visible, ← List.map_reverse, List.filter_reverse]
    rfl
  rw [hmap]
  exact shows_back hsorted rfl (by simp)

private theorem shows_next_forward (hsorted : entries.Pairwise fun a b => a.key < b.key) {it : DBIter K V}
    {p : Place (Entry K V)} (hvalid : it.vali = true) (hdir : it.direction = .kForward) (hiter : it.iter = some p)
    (hlist : p.toList = entries) (hshown : shown entries sequence p.current = true) :
    ∃ it', it.Next entries sequence = some it' ∧
      Shows entries sequence it' (p.view (shown entries sequence) pair).next := by
  have hsplit : entries = (p.current :: p.before).reverse ++ p.after := by simp [← hlist, Place.toList]
  have hskips : Skips sequence (p.current :: p.before) (some p.current.userkey) p.after :=
    Skips.delete hsorted hlist.symm
  have hmap : (p.view (shown entries sequence) pair).next =
      (Cursor.scan (shownAfter entries sequence (some p.current.userkey)) (p.current :: p.before) p.after).map
        (Place.view (shown entries sequence) pair) := by
    rw [Cursor.scan_congr (shownAfter_after hsorted hsplit (shown_iff.1 hshown).1), Cursor.view_scan]
    simp [Place.next, Place.view, hshown]
  rw [hmap]
  simp only [Next, hvalid, if_true, hdir, hiter, Option.map_some]
  refine ⟨_, rfl, shows_front hsorted hsplit hskips ?_ ?_⟩
  · intro hafter
    simp [Place.next, hafter, Cursor.front]
  · intro e rest hafter
    simp only [Place.next, hafter, Cursor.front]
    exact ⟨_, rfl, rfl⟩

private theorem next_reverse {it : DBIter K V} (hvalid : it.vali = true) (hdir : it.direction = .kReverse)
    {p : Place (Entry K V)} (hmoved : it.iter = none ∧ Cursor.first entries = some p ∨
      ∃ r, it.iter = some r ∧ r.next = some p) :
    it.Next entries sequence =
      some ({ it with direction := .kForward, iter := some p }.FindNextUserEntry sequence p it.savedkey) := by
  rcases hmoved with ⟨hiter, hfirst⟩ | ⟨r, hiter, hnext⟩
  · simp [Next, hvalid, hdir, hiter, hfirst]
  · simp [Next, hvalid, hdir, hiter, hnext]

private theorem shows_next_reverse (hsorted : entries.Pairwise fun a b => a.key < b.key) {it : DBIter K V}
    {q : Place (Entry K V)} (hvalid : it.vali = true) (hdir : it.direction = .kReverse)
    (hiter : it.iter = Cursor.scanBack (old sequence) (q.current :: q.after) q.before)
    (hkey : it.savedkey = some q.current.userkey) (hlist : q.toList = entries)
    (hshown : shown entries sequence q.current = true) :
    ∃ it', it.Next entries sequence = some it' ∧
      Shows entries sequence it' (q.view (shown entries sequence) pair).next := by
  obtain ⟨mid, rest, hbefore, hback, hyoung, -⟩ :=
    Cursor.scanBack_split (old sequence) (q.current :: q.after) q.before
  have hmid : ∀ a ∈ mid, ¬ a.sequence ≤ sequence := fun a ha => by simpa [old] using hyoung a ha
  have hsplit : entries = rest.reverse ++ (mid.reverse ++ q.current :: q.after) := by
    simp [← hlist, Place.toList, hbefore]
  have hsplit' : entries = (q.current :: q.before).reverse ++ q.after := by simp [← hlist, Place.toList]
  have hmoved : it.iter = none ∧ Cursor.first entries = Cursor.front rest (mid.reverse ++ q.current :: q.after) ∨
      ∃ p, it.iter = some p ∧ p.next = Cursor.front rest (mid.reverse ++ q.current :: q.after) := by
    rw [hiter, hback]
    cases rest with
    | nil => exact Or.inl ⟨rfl, by simp [Cursor.first, hsplit]⟩
    | cons a rest => exact Or.inr ⟨_, rfl, rfl⟩
  have hskips : Skips sequence rest (some q.current.userkey) (mid.reverse ++ q.current :: q.after) := by
    constructor
    · intro a ha _ e he hkey
      have hlt := key_lt_of_split hsorted hsplit ha (b := q.current) (by simp)
      exact ⟨q.current.userkey, rfl, hkey ▸ InternalKey.userkey_le hlt.le⟩
    · intro k hk e he hseq
      rw [Option.mem_some_iff] at hk
      subst hk
      simp only [List.mem_append, List.mem_reverse, List.mem_cons] at he
      rcases he with he | rfl | he
      · exact absurd hseq (hmid e he)
      · exact le_rfl
      · exact InternalKey.userkey_le (key_lt_of_split hsorted hsplit' (List.mem_cons_self ..) he).le
  have hmap : (q.view (shown entries sequence) pair).next =
      (Cursor.scan (shownAfter entries sequence (some q.current.userkey)) rest
        (mid.reverse ++ q.current :: q.after)).map (Place.view (shown entries sequence) pair) := by
    rw [Cursor.scan_append fun a ha => by
        simp [shownAfter, not_shown_of_young (hmid a (List.mem_reverse.1 ha))],
      Cursor.scan_cons_neg (by simp [shownAfter]), List.reverse_reverse, ← hbefore,
      Cursor.scan_congr (shownAfter_after hsorted hsplit' (shown_iff.1 hshown).1), Cursor.view_scan]
    simp [Place.next, Place.view, hshown]
  obtain ⟨e, after, hafter⟩ : ∃ e after, mid.reverse ++ q.current :: q.after = e :: after :=
    List.exists_cons_of_ne_nil (by simp)
  rw [hafter] at hmoved
  rw [hmap]
  refine ⟨_, next_reverse hvalid hdir hmoved, shows_front hsorted hsplit hskips ?_ ?_⟩
  · intro hnil
    simp at hnil
  · intro e' rest' hcons
    obtain ⟨rfl, rfl⟩ := List.cons.inj (hafter.symm.trans hcons)
    rw [hkey]
    exact ⟨_, rfl, rfl⟩

private theorem shows_prev_forward (hsorted : entries.Pairwise fun a b => a.key < b.key) {it : DBIter K V}
    {p : Place (Entry K V)} (hvalid : it.vali = true) (hdir : it.direction = .kForward) (hiter : it.iter = some p)
    (hlist : p.toList = entries) (hshown : shown entries sequence p.current = true) :
    ∃ it', it.Prev sequence = some it' ∧ Shows entries sequence it' (p.view (shown entries sequence) pair).prev := by
  have hsplit : entries = p.before.reverse ++ p.current :: p.after := hlist.symm
  have hsmaller : ∀ a ∈ p.before, shown entries sequence a = true →
      decide (a.userkey < p.current.userkey) = true := by
    intro a ha hs
    exact decide_eq_true
      (userkey_lt_of_shown hsorted hsplit ha (List.mem_cons_self ..) (shown_iff.1 hs).1 hshown)
  have hmap : (p.view (shown entries sequence) pair).prev =
      (Cursor.scanBack (shown entries sequence) (p.current :: p.after) p.before).map
        (Place.view (shown entries sequence) pair) := by
    rw [Cursor.view_scanBack]
    simp [Place.prev, Place.view, hshown]
  rw [hmap, Cursor.scanBack_of_imp hsmaller]
  simp only [Prev, hvalid, if_true, hdir, hiter, Option.map_some]
  refine ⟨_, rfl, ?_⟩
  cases hscan : Cursor.scanBack (fun e : Entry K V => decide (e.userkey < p.current.userkey))
      (p.current :: p.after) p.before with
  | none => exact Shows.invalid rfl
  | some r =>
    have hr := (Cursor.scanBack_some hscan).1
    exact shows_back hsorted rfl (by simp [hsplit, ← hr, Place.toList])

private theorem shows_prev_reverse (hsorted : entries.Pairwise fun a b => a.key < b.key) {it : DBIter K V}
    {q : Place (Entry K V)} (hvalid : it.vali = true) (hdir : it.direction = .kReverse)
    (hiter : it.iter = Cursor.scanBack (old sequence) (q.current :: q.after) q.before)
    (hlist : q.toList = entries) (hshown : shown entries sequence q.current = true) :
    ∃ it', it.Prev sequence = some it' ∧ Shows entries sequence it' (q.view (shown entries sequence) pair).prev := by
  have hsplit : entries = q.before.reverse ++ q.current :: q.after := hlist.symm
  have hmap : (q.view (shown entries sequence) pair).prev =
      (Cursor.scanBack (shown entries sequence) (q.current :: q.after) q.before).map
        (Place.view (shown entries sequence) pair) := by
    rw [Cursor.view_scanBack]
    simp [Place.prev, Place.view, hshown]
  rw [hmap, Cursor.scanBack_of_imp fun a _ hs => old_of_shown hs]
  simp only [Prev, hvalid, if_true, hdir, hiter]
  refine ⟨_, rfl, ?_⟩
  cases hscan : Cursor.scanBack (old sequence) (q.current :: q.after) q.before with
  | none => exact Shows.invalid rfl
  | some r =>
    have hr := (Cursor.scanBack_some hscan).1
    exact shows_back hsorted hdir (by simp [hsplit, ← hr, Place.toList])

/-- A call keeps the iterator and the cursor together; neither has a result when the other has none. -/
theorem Shows.call (hsorted : entries.Pairwise fun a b => a.key < b.key) {it : DBIter K V}
    {cursor : Option (Place (K × V))} (h : Shows entries sequence it cursor) (c : Call K) :
    (it.call entries sequence c = none ∧ mapCall (visible entries sequence) cursor c = none) ∨
      ∃ it' cursor', it.call entries sequence c = some it' ∧
        mapCall (visible entries sequence) cursor c = some cursor' ∧ Shows entries sequence it' cursor' := by
  cases c with
  | Seek target => exact Or.inr ⟨_, _, rfl, rfl, shows_seek hsorted it target⟩
  | SeekToFirst => exact Or.inr ⟨_, _, rfl, rfl, shows_seekToFirst hsorted it⟩
  | SeekToLast => exact Or.inr ⟨_, _, rfl, rfl, shows_seekToLast hsorted it⟩
  | Next =>
    cases h with
    | invalid h => exact Or.inl ⟨by simp [DBIter.call, Next, h], rfl⟩
    | forward p hvalid hdir hiter hlist hshown =>
      obtain ⟨it', hnext, hshows⟩ := shows_next_forward hsorted hvalid hdir hiter hlist hshown
      exact Or.inr ⟨it', _, hnext, rfl, hshows⟩
    | reverse q hvalid hdir hiter hkey _ hlist hshown =>
      obtain ⟨it', hnext, hshows⟩ := shows_next_reverse hsorted hvalid hdir hiter hkey hlist hshown
      exact Or.inr ⟨it', _, hnext, rfl, hshows⟩
  | Prev =>
    cases h with
    | invalid h => exact Or.inl ⟨by simp [DBIter.call, Prev, h], rfl⟩
    | forward p hvalid hdir hiter hlist hshown =>
      obtain ⟨it', hprev, hshows⟩ := shows_prev_forward hsorted hvalid hdir hiter hlist hshown
      exact Or.inr ⟨it', _, hprev, rfl, hshows⟩
    | reverse q hvalid hdir hiter _ _ hlist hshown =>
      obtain ⟨it', hprev, hshows⟩ := shows_prev_reverse hsorted hvalid hdir hiter hlist hshown
      exact Or.inr ⟨it', _, hprev, rfl, hshows⟩

theorem Shows.calls (hsorted : entries.Pairwise fun a b => a.key < b.key) {it : DBIter K V}
    {cursor : Option (Place (K × V))} (h : Shows entries sequence it cursor) (calls : List (Call K)) :
    (calls.foldlM (DBIter.call entries sequence) it).map shows =
      (calls.foldlM (mapCall (visible entries sequence)) cursor).map mapShows := by
  induction calls generalizing it cursor with
  | nil => simp [h.shows_eq]
  | cons c calls ih =>
    rw [List.foldlM_cons, List.foldlM_cons]
    rcases h.call hsorted c with ⟨hit, hcursor⟩ | ⟨it', cursor', hit, hcursor, hshows⟩
    · rw [hit, hcursor]
      rfl
    · rw [hit, hcursor]
      exact ih hshows

/-- After any calls an iterator shows what a cursor shows over the sorted list of the user keys that a read as of
`sequence` finds. -/
theorem calls_show_visible (entries : List (Entry K V)) (hsorted : entries.Pairwise fun a b => a.key < b.key)
    (sequence : ℕ) (calls : List (Call K)) :
    (calls.foldlM (DBIter.call entries sequence) new).map shows =
        (calls.foldlM (mapCall (visible entries sequence)) none).map mapShows ∧
      (visible entries sequence).Pairwise (fun a b => a.1 < b.1) ∧
      ∀ u v, (u, v) ∈ visible entries sequence ↔
        ∃ e, Mvcc.Newest Entry.userkey Entry.tag {e | e ∈ entries} u (seekTag sequence) e ∧ e.result = some v :=
  ⟨Shows.calls hsorted (Shows.invalid rfl) calls, visible_sorted hsorted, fun _ _ => mem_visible⟩

/-- A walk over a deleted key, an overwritten one and one that is too young. -/
theorem calls_show_visible_walk :
    (List.foldlM (DBIter.call [⟨⟨1, 3, .kTypeValue⟩, 10⟩, ⟨⟨2, 4, .kTypeDeletion⟩, 0⟩, ⟨⟨2, 1, .kTypeValue⟩, 20⟩,
        ⟨⟨3, 9, .kTypeValue⟩, 31⟩, ⟨⟨3, 5, .kTypeValue⟩, 30⟩] 6) (new : DBIter ℕ ℕ)
      [.Seek 1, .Next, .Prev, .Next]).map shows = some (some (some 3, some 30)) :=
  (calls_show_visible _ (by decide) 6 _).1.trans (by decide +kernel)

end DBIter

end RedisDb
