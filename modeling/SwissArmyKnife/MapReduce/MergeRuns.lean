import SwissArmyKnife.MapReduce.Merge

/-!
# What the merge writes

The heap has the greatest key on top, so the merge takes the greatest of the first keys, and it writes empty values. 
What it writes is right only when this cannot be seen (`merge_iff`).
-/

namespace MapReduce

open GreatestFirst Relation

theorem getline_line (record : Record) (rest : Bytes) :
    getline (record.line ++ rest) = some (record.key ++ 9 :: record.value, rest) := by
  have heq : record.line ++ rest = (record.key ++ 9 :: record.value) ++ 10 :: rest := by simp [Record.line]
  have hnot : 10 ∉ record.key ++ 9 :: record.value := by
    simp [record.key_newline, record.value_newline]
  rw [heq, getline_append hnot]

theorem Source.next_line (record : Record) (rest key value : Bytes) :
    (Source.mk (record.line ++ rest) key value).next = (true, ⟨rest, record.key, value⟩) := by
  have hidx := idxOf_append_cons record.key_tab record.value
  rw [Source.next, getline_line]
  simp [hidx]

/-- A source that has read the first of the records that are left. -/
def sourceOf : List Record → Source
  | [] => .new []
  | record :: records => ⟨records.flatMap Record.line, record.key, []⟩

theorem next_sourceOf (record : Record) (records : List Record) :
    (sourceOf (record :: records)).next =
      match records with
      | [] => (false, sourceOf [record])
      | record' :: records => (true, sourceOf (record' :: records)) := by
  cases records with
  | nil => rfl
  | cons record' records => exact Source.next_line record' _ record.key []

theorem connect_eq (inputs : List (List Record)) :
    connect (inputs.map fun records => (sends records).flatten) =
      (inputs.filter fun records => records ≠ []).map sourceOf := by
  induction inputs with
  | nil => rfl
  | cons records inputs ih =>
    rw [List.map_cons, flatten_sends]
    unfold connect at ih ⊢
    cases records with
    | nil => simpa [Source.new, Source.next, getline] using ih
    | cons record records =>
      have hnext := Source.next_line record (records.flatMap Record.line) [] []
      rw [List.filterMap_cons, Source.new, List.flatMap_cons, hnext, ih]
      simp [sourceOf]

/-- The record that is written for a record. -/
def erase (record : Record) : Record := { record with value := [], value_newline := by simp }

theorem output_sourceOf (record : Record) (records : List Record) :
    (sourceOf (record :: records)).output = (erase record).line := rfl

/-- A greatest source is the one of a list with a greatest head. -/
theorem exists_of_perm_map {keys rest : List Source} {ls : List (List Record)} {back : Source}
    (hkeys : keys.Perm (ls.map sourceOf)) (hpop : keys.Perm (back :: rest)) :
    ∃ l ls', ls.Perm (l :: ls') ∧ sourceOf l = back ∧ rest.Perm (ls'.map sourceOf) := by
  have hmem : back ∈ ls.map sourceOf := (hpop.symm.trans hkeys).subset (by simp)
  obtain ⟨l, hl, rfl⟩ := List.mem_map.1 hmem
  obtain ⟨before, after, rfl⟩ := List.append_of_mem hl
  have hperm : (before ++ l :: after).Perm (l :: (before ++ after)) := List.perm_middle
  exact ⟨l, before ++ after, hperm, rfl, (hpop.symm.trans (hkeys.trans (hperm.map sourceOf))).cons_inv⟩

section Runs

variable {topK : ℤ}

/-- The rounds that are left for a state. -/
def left (topK : ℤ) (m : Merging) : ℕ := (topK - m.cnt).toNat

theorem Round.left_lt {m m' : Merging} (h : Round topK m m') : left topK m' < left topK m := by
  cases h with
  | next hcnt => simp only [left]; omega
  | last hcnt => simp only [left]; omega

/-- A round takes a greatest head. -/
theorem Round.takes {m m' : Merging} (h : Round topK m m') {ls : List (List Record)} (hne : ∀ l ∈ ls, l ≠ [])
    (hkeys : m.keys.Perm (ls.map sourceOf)) :
    ∃ record l rest, ls.Perm ((record :: l) :: rest) ∧ (∀ r l', r :: l' ∈ rest → r.key ≤ record.key) ∧
      m'.keys.Perm ((putBack l rest).map sourceOf) ∧ m'.out = m.out ++ (erase record).line ∧
      left topK m = left topK m' + 1 := by
  have hgeneral {back : Source} {rest : List Source} (hpop : m.keys.Perm (back :: rest))
      (hmax : ∀ source ∈ rest, ¬back.key < source.key) :
      ∃ record l rest', ls.Perm ((record :: l) :: rest') ∧ (∀ r l', r :: l' ∈ rest' → r.key ≤ record.key) ∧
        sourceOf (record :: l) = back ∧ rest.Perm (rest'.map sourceOf) := by
    obtain ⟨l, rest', hperm, rfl, hrest⟩ := exists_of_perm_map hkeys hpop
    obtain ⟨record, l, rfl⟩ := List.exists_cons_of_ne_nil (hne l (hperm.symm.subset (by simp)))
    refine ⟨record, l, rest', hperm, ?_, rfl, hrest⟩
    intro r l' hmem
    exact not_lt.1 (hmax _ (hrest.symm.subset (List.mem_map_of_mem hmem)))
  cases h with
  | next hcnt hpop hmax hnext =>
    obtain ⟨record, l, rest, hperm, hle, rfl, hrest⟩ := hgeneral hpop hmax
    rw [next_sourceOf] at hnext
    cases l with
    | nil => simp at hnext
    | cons record' l =>
      cases hnext
      exact ⟨record, _, rest, hperm, hle, hrest.cons _, rfl, by simp only [left]; omega⟩
  | last hcnt hpop hmax hnext =>
    obtain ⟨record, l, rest, hperm, hle, rfl, hrest⟩ := hgeneral hpop hmax
    rw [next_sourceOf] at hnext
    cases l with
    | nil => exact ⟨record, [], rest, hperm, hle, hrest, rfl, by simp only [left]; omega⟩
    | cons record' l => simp at hnext

theorem exists_round {m : Merging} {ls : List (List Record)}
    (hkeys : m.keys.Perm (ls.map sourceOf)) (hcnt : m.cnt < topK)
    {record : Record} {l : List Record} {rest : List (List Record)} (hperm : ls.Perm ((record :: l) :: rest))
    (hne : ∀ l' ∈ rest, l' ≠ []) (hmax : ∀ r l', r :: l' ∈ rest → r.key ≤ record.key) :
    Round topK m ⟨m.cnt + 1, (putBack l rest).map sourceOf, m.out ++ (erase record).line⟩ := by
  have hpop : m.keys.Perm (sourceOf (record :: l) :: rest.map sourceOf) := hkeys.trans (hperm.map sourceOf)
  have hgreatest : ∀ source ∈ rest.map sourceOf, ¬(sourceOf (record :: l)).key < source.key := by
    intro source hsource
    obtain ⟨l', hl', rfl⟩ := List.mem_map.1 hsource
    obtain ⟨r, l', rfl⟩ := List.exists_cons_of_ne_nil (hne l' hl')
    exact not_lt.2 (hmax r l' hl')
  have hnext := next_sourceOf record l
  rw [← output_sourceOf record l]
  cases l with
  | nil => exact .last hcnt hpop hgreatest hnext
  | cons record' l => exact .next hcnt hpop hgreatest hnext

/-- What a run to the end has written was taken from the lists. -/
theorem takes_of_run {m final : Merging} (hrun : ReflTransGen (Round topK) m final) (hdone : final.Done topK)
    {ls : List (List Record)} (hne : ∀ l ∈ ls, l ≠ []) (hkeys : m.keys.Perm (ls.map sourceOf)) :
    ∃ taken, Takes Record.key (left topK m) ls taken ∧
      final.out = m.out ++ taken.flatMap fun record => (erase record).line := by
  induction hrun using ReflTransGen.head_induction_on generalizing ls with
  | refl =>
    refine ⟨[], ?_, by simp⟩
    rcases hdone with hnil | hcnt
    · rw [hnil] at hkeys
      obtain rfl : ls = [] := List.map_eq_nil_iff.1 hkeys.nil_eq.symm
      exact .exhausted _
    · have : left topK final = 0 := by simp only [left]; omega
      rw [this]
      exact .stop ls
  | @head m m' hround _ ih =>
    obtain ⟨record, l, rest, hperm, hmax, hkeys', hout, hleft⟩ := hround.takes hne hkeys
    have hrest : ∀ l' ∈ rest, l' ≠ [] := fun l' h => hne l' (hperm.symm.subset (by simp [h]))
    obtain ⟨taken, htakes, hfinal⟩ := ih (putBack_ne_nil hrest) hkeys'
    refine ⟨record :: taken, ?_, ?_⟩
    · rw [hleft]
      exact .take hperm hmax htakes
    · rw [hfinal, hout]
      simp

/-- Whatever can be taken is written by a run. -/
theorem run_of_takes {n : ℕ} {ls : List (List Record)} {taken : List Record} (h : Takes Record.key n ls taken)
    (hne : ∀ l ∈ ls, l ≠ []) {m : Merging} (hn : left topK m = n) (hkeys : m.keys.Perm (ls.map sourceOf)) :
    ∃ final, ReflTransGen (Round topK) m final ∧ final.Done topK ∧
      final.out = m.out ++ taken.flatMap fun record => (erase record).line := by
  induction h generalizing m with
  | stop ls =>
    refine ⟨m, .refl, .inr ?_, by simp⟩
    simp only [left] at hn
    omega
  | exhausted n => exact ⟨m, .refl, .inl (List.perm_nil.1 hkeys), by simp⟩
  | @take n ls rest record l taken hperm hmax _ ih =>
    have hrest : ∀ l' ∈ rest, l' ≠ [] := fun l' h => hne l' (hperm.symm.subset (by simp [h]))
    have hcnt : m.cnt < topK := by
      simp only [left] at hn
      omega
    have hround := exists_round hkeys hcnt hperm hrest hmax
    obtain ⟨final, hrun, hdone, hout⟩ := ih (putBack_ne_nil hrest)
      (m := ⟨m.cnt + 1, (putBack l rest).map sourceOf, m.out ++ (erase record).line⟩)
      (by simp only [left] at hn ⊢; omega) (.refl _)
    exact ⟨final, .head hround hrun, hdone, by rw [hout]; simp⟩

end Runs

theorem split_inj {c : UInt8} {a b x y : Bytes} (ha : c ∉ a) (hb : c ∉ b) (h : a ++ c :: x = b ++ c :: y) :
    a = b ∧ x = y := by
  have hlength : a.length = b.length := by
    have hidx := congrArg (List.idxOf c) h
    rwa [idxOf_append_cons ha, idxOf_append_cons hb] at hidx
  obtain ⟨rfl, hcons⟩ := List.append_inj h hlength
  exact ⟨rfl, (List.cons.inj hcons).2⟩

theorem line_append_inj {a b : Record} {x y : Bytes} (h : a.line ++ x = b.line ++ y) : a = b ∧ x = y := by
  simp only [Record.line, List.append_assoc, List.cons_append, List.nil_append] at h
  obtain ⟨hkey, h⟩ := split_inj a.key_tab b.key_tab h
  obtain ⟨hvalue, h⟩ := split_inj a.value_newline b.value_newline h
  exact ⟨Record.ext hkey hvalue, h⟩

/-- The lines tell the records. -/
theorem flatMap_line_inj {a b : List Record} (h : a.flatMap Record.line = b.flatMap Record.line) : a = b := by
  induction a generalizing b with
  | nil =>
    cases b with
    | nil => rfl
    | cons r b => simp [Record.line] at h
  | cons r a ih =>
    cases b with
    | nil => simp [Record.line] at h
    | cons r' b =>
      rw [List.flatMap_cons, List.flatMap_cons] at h
      obtain ⟨rfl, hrest⟩ := line_append_inj h
      rw [ih hrest]

/-- The first records of all, in the order of their keys. -/
def Top (n : ℕ) (all records : List Record) : Prop :=
  ∃ merged : List Record, merged.Perm all ∧ merged.Pairwise (fun r r' => r.key ≤ r'.key) ∧ records = merged.take n

/-- The loop terminates, and when it does, the first `topK` records have been written. -/
structure Merges (topK : ℤ) (inputs : List (List Record)) (start : Merging) : Prop where
  terminates : Acc (fun m' m => Round topK m m') start
  goes_on : ∀ m, ReflTransGen (Round topK) start m → m.Done topK ∨ ∃ m', Round topK m m'
  top : ∀ m, ReflTransGen (Round topK) start m → m.Done topK →
    ∃ records, Top topK.toNat inputs.flatten records ∧ m.out = records.flatMap Record.line

/-- The records before this one if, of those with one key, the ones with an empty value come first. -/
def Before (record r : Record) : Prop := r.key < record.key ∨ r.key = record.key ∧ r.value = []

instance (record r : Record) : Decidable (Before record r) := inferInstanceAs (Decidable (_ ∨ _))

/-- No record with a value is among the first. -/
def ValuesLast (n : ℕ) (all : List Record) : Prop :=
  ∀ record ∈ all, record.value ≠ [] → n ≤ all.countP fun r => Before record r

/-- At most one input has records, or the first `n` records of each have the same key. -/
def OneKey (n : ℕ) (inputs : List (List Record)) : Prop :=
  (inputs.filter fun records => records ≠ []).length ≤ 1 ∨
  ∃ key, ∀ records ∈ inputs, ∀ r ∈ records.take n, r.key = key

instance (n : ℕ) (all : List Record) : Decidable (ValuesLast n all) := inferInstanceAs (Decidable (∀ _ ∈ _, _ → _))

theorem erase_eq_self_iff {record : Record} : erase record = record ↔ record.value = [] := by
  rw [Record.ext_iff]
  exact ⟨fun h => h.2.symm, fun h => ⟨rfl, h.symm⟩⟩

theorem map_erase_congr {a b : List Record} (h : a.map Record.key = b.map Record.key) :
    a.map erase = b.map erase := by
  induction a generalizing b with
  | nil =>
    cases b with
    | nil => rfl
    | cons r b => simp at h
  | cons r a ih =>
    cases b with
    | nil => simp at h
    | cons r' b =>
      rw [List.map_cons, List.map_cons] at h ⊢
      obtain ⟨hkey, h⟩ := List.cons.inj h
      rw [ih h, show erase r = erase r' from Record.ext hkey rfl]

/-- What is written are empty values, so the first records have none. -/
theorem valuesLast_of_top {n : ℕ} {all taken : List Record} (h : Top n all (taken.map erase)) : ValuesLast n all := by
  obtain ⟨merged, hperm, hsorted, htake⟩ := h
  intro record hrecord hvalue
  have hempty : ∀ r ∈ merged.take n, r.value = [] := by
    intro r hr
    rw [← htake] at hr
    obtain ⟨r', _, rfl⟩ := List.mem_map.1 hr
    rfl
  have hdrop : record ∈ merged.drop n := by
    have hmem := hperm.symm.subset hrecord
    rw [← List.take_append_drop n merged, List.mem_append] at hmem
    exact hmem.resolve_left fun h => hvalue (hempty _ h)
  rw [← List.take_append_drop n merged, List.pairwise_append] at hsorted
  have hbefore : ∀ r ∈ merged.take n, Before record r := by
    intro r hr
    rcases (hsorted.2.2 r hr record hdrop).lt_or_eq with hlt | heq
    · exact .inl hlt
    · exact .inr ⟨heq, hempty r hr⟩
  have hlong : n ≤ merged.length := by
    have := List.length_pos_of_mem hdrop
    rw [List.length_drop] at this
    omega
  calc n = (merged.take n).length := by rw [List.length_take]; omega
    _ = (merged.take n).countP fun r => Before record r :=
      (List.countP_eq_length.2 fun r hr => decide_eq_true (hbefore r hr)).symm
    _ ≤ merged.countP fun r => Before record r := (List.take_sublist n merged).countP_le
    _ = all.countP fun r => Before record r := hperm.countP_eq _

/-- In the order of the keys, and records with an empty value first. -/
def inOrder (a b : Record) : Bool := a.key < b.key ∨ a.key = b.key ∧ (b.value = [] → a.value = [])

theorem inOrder_iff {a b : Record} :
    inOrder a b = true ↔ a.key < b.key ∨ a.key = b.key ∧ (b.value = [] → a.value = []) := by
  simp only [inOrder, decide_eq_true_eq]

theorem inOrder_trans (a b c : Record) (hab : inOrder a b = true) (hbc : inOrder b c = true) :
    inOrder a c = true := by
  rw [inOrder_iff] at *
  rcases hab with hab | ⟨hab, hab'⟩ <;> rcases hbc with hbc | ⟨hbc, hbc'⟩
  · exact .inl (hab.trans hbc)
  · exact .inl (hbc ▸ hab)
  · exact .inl (hab ▸ hbc)
  · exact .inr ⟨hab.trans hbc, fun h => hab' (hbc' h)⟩

theorem inOrder_total (a b : Record) : (inOrder a b || inOrder b a) = true := by
  rw [Bool.or_eq_true, inOrder_iff, inOrder_iff]
  rcases lt_trichotomy a.key b.key with h | h | h
  · exact .inl (.inl h)
  · by_cases ha : a.value = []
    · exact .inl (.inr ⟨h, fun _ => ha⟩)
    · exact .inr (.inr ⟨h.symm, fun h => absurd h ha⟩)
  · exact .inr (.inl h)

theorem not_before_of_inOrder {record r : Record} (hvalue : record.value ≠ []) (h : inOrder record r = true) :
    ¬Before record r := by
  rw [inOrder_iff] at h
  rintro (hlt | ⟨heq, hempty⟩)
  · rcases h with h | h
    · exact lt_asymm h hlt
    · exact hlt.ne h.1.symm
  · rcases h with h | h
    · exact h.ne heq.symm
    · exact hvalue (h.2 hempty)

/-- If the keys are right and the first records have no values, so is what is written. -/
theorem top_of_first {n : ℕ} {all taken : List Record} (hfirst : First n (all.map Record.key) (taken.map Record.key))
    (hvalues : ValuesLast n all) : Top n all (taken.map erase) := by
  have hperm : (all.mergeSort inOrder).Perm all := List.mergeSort_perm ..
  have horder : (all.mergeSort inOrder).Pairwise fun a b => inOrder a b = true :=
    List.pairwise_mergeSort inOrder_trans inOrder_total all
  have hkeys : (all.mergeSort inOrder).Pairwise fun a b => a.key ≤ b.key := by
    refine horder.imp ?_
    intro a b h
    rcases inOrder_iff.1 h with h | h
    · exact h.le
    · exact h.1.le
  have hempty : ∀ r ∈ (all.mergeSort inOrder).take n, r.value = [] := by
    intro r hr
    by_contra hvalue
    obtain ⟨i, hi, hget⟩ := List.mem_take_iff_getElem.1 hr
    have hlt : i < (all.mergeSort inOrder).length := by omega
    have hcount := hvalues r (hperm.subset (List.mem_of_mem_take hr)) hvalue
    have hsplit : all.mergeSort inOrder =
        (all.mergeSort inOrder).take i ++ r :: (all.mergeSort inOrder).drop (i + 1) := by simp [← hget]
    have hback : (r :: (all.mergeSort inOrder).drop (i + 1)).countP (fun r' => Before r r') = 0 := by
      rw [List.countP_eq_zero]
      intro r' hr'
      rw [decide_eq_true_eq]
      refine not_before_of_inOrder hvalue ?_
      rw [hsplit, List.pairwise_append, List.pairwise_cons] at horder
      rcases List.mem_cons.1 hr' with rfl | hr'
      · simp [inOrder]
      · exact horder.2.1.1 r' hr'
    rw [← hperm.countP_eq, hsplit, List.countP_append, hback] at hcount
    have hle := List.countP_le_length (p := fun r' => decide (Before r r')) (l := (all.mergeSort inOrder).take i)
    rw [List.length_take] at hle
    omega
  obtain ⟨sorted, hsortedPerm, hsorted, htake⟩ := hfirst
  have hsame : sorted = (all.mergeSort inOrder).map Record.key :=
    List.Perm.eq_of_pairwise' hsorted (List.pairwise_map.2 hkeys) (hsortedPerm.trans (hperm.map Record.key).symm)
  refine ⟨_, hperm, hkeys, ?_⟩
  rw [map_erase_congr (b := (all.mergeSort inOrder).take n) (by rw [htake, hsame, List.map_take])]
  exact (List.map_congr_left fun r hr => erase_eq_self_iff.2 (hempty r hr)).trans (List.map_id' _)

theorem first_of_top {n : ℕ} {all taken : List Record} (h : Top n all (taken.map erase)) :
    First n (all.map Record.key) (taken.map Record.key) := by
  obtain ⟨merged, hperm, hsorted, htake⟩ := h
  refine ⟨merged.map Record.key, hperm.map _, List.pairwise_map.2 hsorted, ?_⟩
  rw [← List.map_take, ← htake, List.map_map]
  rfl

/-- A state that a run has reached. -/
theorem reached {topK : ℤ} {start m : Merging} (hrun : ReflTransGen (Round topK) start m) {ls : List (List Record)}
    (hne : ∀ l ∈ ls, l ≠ []) (hkeys : start.keys.Perm (ls.map sourceOf)) :
    ∃ ls' : List (List Record), (∀ l ∈ ls', l ≠ []) ∧ m.keys.Perm (ls'.map sourceOf) := by
  induction hrun with
  | refl => exact ⟨ls, hne, hkeys⟩
  | tail _ hround ih =>
    obtain ⟨ls', hne', hkeys'⟩ := ih
    obtain ⟨record, l, rest, hperm, _, hkeys'', _⟩ := hround.takes hne' hkeys'
    exact ⟨_, putBack_ne_nil fun l' (h : l' ∈ rest) => hne' l' (hperm.symm.subset (by simp [h])), hkeys''⟩

/-- The senders that have records. -/
def senders (inputs : List (List Record)) : List (List Record) := inputs.filter fun records => records ≠ []

theorem mem_senders {inputs : List (List Record)} {records : List Record} :
    records ∈ senders inputs ↔ records ∈ inputs ∧ records ≠ [] := by
  simp [senders]

theorem flatten_senders (inputs : List (List Record)) : (senders inputs).flatten = inputs.flatten := by
  rw [senders, List.flatten_filter_ne_nil]

theorem oneKey_iff {n : ℕ} {inputs : List (List Record)} :
    OneKey n inputs ↔
      (senders inputs).length ≤ 1 ∨ ∃ k, ∀ l ∈ senders inputs, ∀ r ∈ l.take n, r.key = k := by
  refine or_congr_right (exists_congr fun k => ?_)
  constructor
  · exact fun h l hl => h l (mem_senders.1 hl).1
  · intro h l hl r hr
    exact h l (mem_senders.2 ⟨hl, by rintro rfl; simp at hr⟩) r hr

section Start

variable (topK : ℤ) (inputs : List (List Record))

/-- The merge has read the first line of each sender. -/
def started : Merging := .start (inputs.map fun records => (sends records).flatten)

theorem started_keys : (started inputs).keys.Perm ((senders inputs).map sourceOf) := by
  rw [started, Merging.start, connect_eq]
  exact .refl _

theorem started_left : left topK (started inputs) = topK.toNat := by simp [left, started, Merging.start]

theorem terminates (m : Merging) : Acc (fun m' m => Round topK m m') m :=
  Subrelation.accessible Round.left_lt ((measure (left topK)).wf.apply m)

theorem goes_on {m : Merging} (hrun : ReflTransGen (Round topK) (started inputs) m) :
    m.Done topK ∨ ∃ m', Round topK m m' := by
  obtain ⟨ls, hne, hkeys⟩ := reached hrun (fun l hl => (mem_senders.1 hl).2) (started_keys inputs)
  by_cases hdone : m.Done topK
  · exact .inl hdone
  right
  simp only [Merging.Done, not_or, not_not] at hdone
  have hls : ls ≠ [] := by
    rintro rfl
    exact hdone.1 (List.perm_nil.1 hkeys)
  obtain ⟨record, l, rest, hperm, hmax⟩ := exists_greatest Record.key hls hne
  exact ⟨_, exists_round hkeys hdone.2 hperm (fun l' h => hne l' (hperm.symm.subset (by simp [h]))) hmax⟩

theorem flatMap_erase (taken : List Record) :
    (taken.flatMap fun record => (erase record).line) = (taken.map erase).flatMap Record.line := by
  rw [List.flatMap_map]

/-- What is written is right if whatever can be taken is. -/
theorem forall_top_iff :
    (∀ m, ReflTransGen (Round topK) (started inputs) m → m.Done topK →
        ∃ records, Top topK.toNat inputs.flatten records ∧ m.out = records.flatMap Record.line) ↔
      ∀ taken, Takes Record.key topK.toNat (senders inputs) taken →
      Top topK.toNat inputs.flatten (taken.map erase) := by
  have hne : ∀ l ∈ senders inputs, l ≠ [] := fun l hl => (mem_senders.1 hl).2
  constructor
  · intro h taken htakes
    obtain ⟨final, hrun, hdone, hout⟩ := run_of_takes htakes hne (started_left topK inputs) (started_keys inputs)
    obtain ⟨records, htop, hrecords⟩ := h final hrun hdone
    have hlines : records.flatMap Record.line = (taken.map erase).flatMap Record.line := by
      rw [← hrecords, hout, ← flatMap_erase]
      rfl
    rwa [← flatMap_line_inj hlines]
  · intro h m hrun hdone
    obtain ⟨taken, htakes, hout⟩ := takes_of_run hrun hdone hne (started_keys inputs)
    rw [started_left] at htakes
    refine ⟨_, h taken htakes, ?_⟩
    rw [hout, flatMap_erase]
    rfl

end Start

/-- The merge writes the first `topK` records exactly if these have no values, and all that can come have the same key
or are from one sender. -/
theorem merge_iff (topK : ℤ) (inputs : List (List Record))
    (hsorted : ∀ records ∈ inputs, Merge.Sorted Record.key records) :
    Merges topK inputs (.start (inputs.map fun records => (sends records).flatten)) ↔
      OneKey topK.toNat inputs ∧ ValuesLast topK.toNat inputs.flatten := by
  have hne : ∀ l ∈ senders inputs, l ≠ [] := fun l hl => (mem_senders.1 hl).2
  have hfirst := forall_first_iff (n := topK.toNat) hne fun l hl => hsorted l (mem_senders.1 hl).1
  rw [flatten_senders, ← oneKey_iff] at hfirst
  constructor
  · rintro ⟨_, _, htop⟩
    have htaken := (forall_top_iff topK inputs).1 htop
    obtain ⟨taken, htakes⟩ := exists_takes Record.key topK.toNat hne
    exact ⟨hfirst.1 fun out hout => first_of_top (htaken out hout), valuesLast_of_top (htaken taken htakes)⟩
  · rintro ⟨hsame, hvalues⟩
    refine ⟨terminates topK _, fun m => goes_on topK inputs, (forall_top_iff topK inputs).2 ?_⟩
    exact fun taken htakes => top_of_first (hfirst.2 hsame taken htakes) hvalues

def recordA : Record := ⟨[97], [], by decide, by decide, by decide⟩

def recordAX : Record := ⟨[97], [120], by decide, by decide, by decide⟩

def recordBY : Record := ⟨[98], [121], by decide, by decide, by decide⟩

theorem merge_oneKey :
    Merges 1 [[recordA], [recordA, recordBY]] (.start ([[recordA], [recordA, recordBY]].map fun records =>
      (sends records).flatten)) := by
  refine (merge_iff 1 _ ?_).2 ⟨.inr ⟨[97], by decide⟩, by decide⟩
  intro records hrecords
  simp only [List.mem_cons, List.not_mem_nil, or_false] at hrecords
  rcases hrecords with rfl | rfl
  · exact List.pairwise_singleton ..
  · exact List.pairwise_pair.2 (by decide)

/-- The record with the greater key is written, and without its value. -/
theorem not_merge_twoSenders :
    ∃ m, ReflTransGen (Round 1) (.start ([[recordAX], [recordBY]].map fun records => (sends records).flatten)) m ∧
      m.Done 1 ∧ m.out = [98, 9, 10] ∧ ¬∃ records, Top 1 [recordAX, recordBY] records ∧
        m.out = records.flatMap Record.line := by
  have htakes : Takes Record.key 1 (senders [[recordAX], [recordBY]]) [recordBY] := by
    have hperm : (senders [[recordAX], [recordBY]]).Perm ([recordBY] :: [[recordAX]]) := .swap ..
    refine .take hperm ?_ (.stop _)
    intro b l' hmem
    cases List.mem_singleton.1 hmem
    decide
  obtain ⟨m, hrun, hdone, hout⟩ := run_of_takes htakes (fun l hl => (mem_senders.1 hl).2)
    (started_left 1 [[recordAX], [recordBY]]) (started_keys _)
  have hbytes : m.out = [98, 9, 10] := hout
  refine ⟨m, hrun, hdone, hbytes, ?_⟩
  rintro ⟨records, ⟨merged, hperm, _, rfl⟩, hrecords⟩
  have herased : merged.take 1 = [erase recordBY] := by
    refine flatMap_line_inj ?_
    rw [← hrecords, hbytes]
    rfl
  have hmem : erase recordBY ∈ merged.take 1 := by rw [herased]; simp
  exact absurd (hperm.subset (List.mem_of_mem_take hmem)) (by decide)

end MapReduce
