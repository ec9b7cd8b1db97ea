import Mathlib.Algebra.BigOperators.Group.List.Basic
import Mathlib.Algebra.Order.Ring.Int
import Mathlib.Data.List.Dedup
import SwissArmyKnife.Lib.SortedMap

/-!
# Counts by key

Records of keys with counts, where a key can have many records, and maps that counts are added to.  What matters of
the records is the total of each key: it is kept when they are put into another order, split up or added together
(`total_tally`), and records of different keys with positive counts are those of the totals (`Counts.perm_dedup`).
-/

namespace Tally

/-- A list is divided by the value of a function. -/
theorem perm_buckets {κ : Type*} (f : κ → ℕ) (n : ℕ) (keys : List κ) :
    ((List.range n).flatMap fun i => keys.filter fun k => f k = i).Perm (keys.filter fun k => f k < n) := by
  induction n with
  | zero => simp
  | succ n ih =>
    rw [List.range_succ, List.flatMap_append, List.flatMap_singleton]
    have hless : (keys.filter fun k => f k < n + 1).filter (fun k => f k < n) = keys.filter fun k => f k < n := by
      rw [List.filter_filter]
      refine List.filter_congr fun k _ => ?_
      rw [← Bool.decide_and, decide_eq_decide]
      omega
    have hlast : (keys.filter fun k => f k < n + 1).filter (fun k => !decide (f k < n)) =
        keys.filter fun k => f k = n := by
      rw [List.filter_filter]
      refine List.filter_congr fun k _ => ?_
      rw [← decide_not, ← Bool.decide_and, decide_eq_decide]
      omega
    have hsplit := List.filter_append_perm (fun k => decide (f k < n)) (keys.filter fun k => f k < n + 1)
    rw [hless, hlast] at hsplit
    exact (ih.append_right _).trans hsplit

section Total

variable {κ : Type*} [DecidableEq κ]

def total (records : List (κ × ℤ)) (k : κ) : ℤ := ((records.filter fun r => r.1 = k).map Prod.snd).sum

@[simp] theorem total_nil (k : κ) : total ([] : List (κ × ℤ)) k = 0 := rfl

theorem total_cons (r : κ × ℤ) (records : List (κ × ℤ)) (k : κ) :
    total (r :: records) k = (if r.1 = k then r.2 else 0) + total records k := by
  unfold total
  by_cases h : r.1 = k
  · rw [List.filter_cons_of_pos (by simpa using h), if_pos h, List.map_cons, List.sum_cons]
  · rw [List.filter_cons_of_neg (by simpa using h), if_neg h, zero_add]

theorem total_append (a b : List (κ × ℤ)) (k : κ) : total (a ++ b) k = total a k + total b k := by
  rw [total, List.filter_append, List.map_append, List.sum_append]
  rfl

theorem total_perm {a b : List (κ × ℤ)} (h : a.Perm b) (k : κ) : total a k = total b k :=
  ((h.filter _).map _).sum_eq

/-- The records of some of the keys. -/
theorem total_filter (p : κ → Bool) (records : List (κ × ℤ)) (k : κ) :
    total (records.filter fun r => p r.1) k = if p k then total records k else 0 := by
  induction records with
  | nil => simp
  | cons r records ih =>
    rw [List.filter_cons]
    by_cases hr : p r.1 = true
    · rw [if_pos hr, total_cons, total_cons, ih]
      by_cases hk : r.1 = k
      · rw [← hk, if_pos rfl, if_pos hr, if_pos hr]
      · rw [if_neg hk, zero_add, zero_add]
    · rw [if_neg hr, ih, total_cons]
      by_cases hk : r.1 = k
      · rw [← hk, if_neg hr, if_neg hr]
      · rw [if_neg hk, zero_add]

theorem total_of_notMem {records : List (κ × ℤ)} {k : κ} (h : k ∉ records.map Prod.fst) : total records k = 0 := by
  have hnil : (records.filter fun r => r.1 = k) = [] := by
    rw [List.filter_eq_nil_iff]
    intro r hr hk
    exact h (List.mem_map.2 ⟨r, hr, by simpa using hk⟩)
  rw [total, hnil]
  rfl

theorem total_of_mem {records : List (κ × ℤ)} (hnodup : (records.map Prod.fst).Nodup) {k : κ} {n : ℤ}
    (h : (k, n) ∈ records) : total records k = n := by
  induction records with
  | nil => cases h
  | cons r records ih =>
    obtain ⟨hr, hrest⟩ := List.nodup_cons.1 hnodup
    rw [total_cons]
    rcases List.mem_cons.1 h with rfl | hmem
    · rw [if_pos rfl, total_of_notMem hr, add_zero]
    · have hne : r.1 ≠ k := by
        rintro rfl
        exact hr (List.mem_map.2 ⟨_, hmem, rfl⟩)
      rw [if_neg hne, zero_add, ih hrest hmem]

/-- All counts are positive. -/
def Positive (records : List (κ × ℤ)) : Prop := ∀ r ∈ records, 0 < r.2

omit [DecidableEq κ] in
theorem Positive.of_cons {r : κ × ℤ} {records : List (κ × ℤ)} (h : Positive (r :: records)) :
    0 < r.2 ∧ Positive records :=
  ⟨h r (List.mem_cons_self ..), fun r' h' => h r' (List.mem_cons_of_mem _ h')⟩

theorem Positive.total_nonneg {records : List (κ × ℤ)} (h : Positive records) (k : κ) : 0 ≤ total records k := by
  induction records with
  | nil => exact le_rfl
  | cons r records ih =>
    have hrest := ih h.of_cons.2
    have hr := h.of_cons.1
    rw [total_cons]
    split_ifs <;> omega

/-- No count is larger than the total of its key. -/
theorem Positive.le_total {records : List (κ × ℤ)} (h : Positive records) {r : κ × ℤ} (hr : r ∈ records) :
    r.2 ≤ total records r.1 := by
  induction records with
  | nil => cases hr
  | cons r' records ih =>
    have hrest := h.of_cons.2.total_nonneg r.1
    have hr' := h.of_cons.1
    rw [total_cons]
    rcases List.mem_cons.1 hr with rfl | hmem
    · rw [if_pos rfl]
      omega
    · have hle := ih h.of_cons.2 hmem
      split_ifs <;> omega

variable [BEq κ]

/-- The records count the keys. -/
structure Counts (records : List (κ × ℤ)) (keys : List κ) : Prop where
  positive : Positive records
  total : ∀ k, total records k = keys.count k

namespace Counts

variable {records records' : List (κ × ℤ)} {keys keys' : List κ}

theorem nil : Counts ([] : List (κ × ℤ)) [] := ⟨fun _ hr => absurd hr List.not_mem_nil, fun _ => rfl⟩

theorem append (h : Counts records keys) (h' : Counts records' keys') :
    Counts (records ++ records') (keys ++ keys') := by
  constructor
  · intro r hr
    rcases List.mem_append.1 hr with hr | hr
    · exact h.positive r hr
    · exact h'.positive r hr
  · intro k
    rw [total_append, h.total, h'.total, List.count_append, Nat.cast_add]

theorem flatMap {ι : Type*} {l : List ι} {f : ι → List (κ × ℤ)} {g : ι → List κ} (h : ∀ i ∈ l, Counts (f i) (g i)) :
    Counts (l.flatMap f) (l.flatMap g) := by
  induction l with
  | nil => exact nil
  | cons i l ih =>
    rw [List.flatMap_cons, List.flatMap_cons]
    exact (h i (List.mem_cons_self ..)).append (ih fun j hj => h j (List.mem_cons_of_mem _ hj))

theorem perm (h : Counts records keys) (hrecords : records'.Perm records) (hkeys : keys'.Perm keys) :
    Counts records' keys' := by
  constructor
  · exact fun r hr => h.positive r (hrecords.subset hr)
  · intro k
    rw [total_perm hrecords, h.total, hkeys.count_eq]

/-- No record has more of a key than there are. -/
theorem le_count (h : Counts records keys) {r : κ × ℤ} (hr : r ∈ records) : r.2 ≤ keys.count r.1 := by
  rw [← h.total]
  exact h.positive.le_total hr

variable [LawfulBEq κ]

theorem filter (h : Counts records keys) (p : κ → Bool) : Counts (records.filter fun r => p r.1) (keys.filter p) := by
  constructor
  · exact fun r hr => h.positive r (List.mem_of_mem_filter hr)
  · intro k
    rw [total_filter, h.total]
    split_ifs with hk
    · rw [List.count_filter hk]
    · rw [List.count_eq_zero_of_not_mem fun hmem => hk (List.mem_filter.1 hmem).2, Nat.cast_zero]

theorem mem (h : Counts records keys) {r : κ × ℤ} (hr : r ∈ records) : r.1 ∈ keys := by
  have hle := h.le_count hr
  have hpos := h.positive r hr
  rw [← List.count_pos_iff]
  omega

/-- If each key comes once, it comes with as many as there are of it. -/
theorem perm_dedup (h : Counts records keys) (hnodup : (records.map Prod.fst).Nodup) :
    records.Perm (keys.dedup.map fun k => (k, (keys.count k : ℤ))) := by
  have hcounted : (keys.dedup.map fun k => (k, (keys.count k : ℤ))).Nodup :=
    (List.nodup_dedup keys).map fun a b h => congrArg Prod.fst h
  rw [List.perm_ext_iff_of_nodup hnodup.of_map hcounted]
  rintro ⟨k, n⟩
  simp only [List.mem_map, List.mem_dedup, Prod.mk.injEq]
  constructor
  · intro hmem
    have hn := total_of_mem hnodup hmem
    rw [h.total] at hn
    exact ⟨k, h.mem hmem, rfl, hn⟩
  · rintro ⟨k, hk, rfl, rfl⟩
    have hcount := List.count_pos_iff.2 hk
    by_cases hmem : k ∈ records.map Prod.fst
    · obtain ⟨⟨k', n⟩, hr, rfl⟩ := List.mem_map.1 hmem
      rwa [← h.total, total_of_mem hnodup hr]
    · have hzero := total_of_notMem hmem
      rw [h.total] at hzero
      omega

end Counts

end Total

/-! ### Maps -/

section Maps

variable {κ : Type*} [LinearOrder κ]

/-- `counts[k] += n`. -/
def add (counts : SortedMap κ ℤ) (k : κ) (n : ℤ) : SortedMap κ ℤ := counts.put k ((counts.get k).getD 0 + n)

/-- The records are added one after another. -/
def tally (counts : SortedMap κ ℤ) (records : List (κ × ℤ)) : SortedMap κ ℤ :=
  records.foldl (fun counts r => add counts r.1 r.2) counts

theorem mem_keys_add {counts : SortedMap κ ℤ} {k k' : κ} {n : ℤ} (h : k' ∈ (add counts k n).entries.map Prod.fst) :
    k' = k ∨ k' ∈ counts.entries.map Prod.fst := by
  obtain ⟨r, hr, rfl⟩ := List.mem_map.1 h
  rcases SortedMap.mem_put.1 hr with rfl | ⟨hr, -⟩
  · exact Or.inl rfl
  · exact Or.inr (List.mem_map_of_mem hr)

theorem positive_empty : Positive (SortedMap.empty : SortedMap κ ℤ).entries := by
  intro r hr
  cases hr

variable [DecidableEq κ]

theorem total_entries (counts : SortedMap κ ℤ) (k : κ) : total counts.entries k = (counts.get k).getD 0 := by
  cases hget : counts.get k with
  | none =>
    apply total_of_notMem
    intro hmem
    obtain ⟨⟨k', n⟩, hr, rfl⟩ := List.mem_map.1 hmem
    exact SortedMap.get_eq_none_iff.1 hget n hr
  | some n => exact total_of_mem counts.nodup_keys (SortedMap.get_eq_some_iff.1 hget)

theorem total_add (counts : SortedMap κ ℤ) (k : κ) (n : ℤ) (k' : κ) :
    total (add counts k n).entries k' = total counts.entries k' + if k = k' then n else 0 := by
  rw [total_entries, total_entries, add, SortedMap.get_put]
  by_cases h : k' = k
  · rw [if_pos h, if_pos h.symm, h]
    rfl
  · rw [if_neg h, if_neg (Ne.symm h), add_zero]

theorem Positive.add {counts : SortedMap κ ℤ} (h : Positive counts.entries) (k : κ) {n : ℤ} (hn : 0 < n) :
    Positive (add counts k n).entries := by
  intro r hr
  rcases SortedMap.mem_put.1 hr with rfl | ⟨hr, -⟩
  · have hold := h.total_nonneg k
    rw [total_entries] at hold
    dsimp only
    omega
  · exact h r hr

theorem total_tally (counts : SortedMap κ ℤ) (records : List (κ × ℤ)) (k : κ) :
    total (tally counts records).entries k = total counts.entries k + total records k := by
  induction records generalizing counts with
  | nil => exact (add_zero _).symm
  | cons r records ih =>
    rw [tally, List.foldl_cons, ← tally, ih, total_add, total_cons, add_assoc]

theorem Positive.tally {counts : SortedMap κ ℤ} (h : Positive counts.entries) {records : List (κ × ℤ)}
    (hrecords : Positive records) : Positive (tally counts records).entries := by
  induction records generalizing counts with
  | nil => exact h
  | cons r records ih =>
    rw [Tally.tally, List.foldl_cons, ← Tally.tally]
    exact ih (h.add r.1 hrecords.of_cons.1) hrecords.of_cons.2

variable [BEq κ]

/-- What is added together counts the same. -/
theorem Counts.tally {records : List (κ × ℤ)} {keys : List κ} (h : Counts records keys) :
    Counts (tally .empty records).entries keys := by
  constructor
  · exact positive_empty.tally h.positive
  · intro k
    rw [total_tally, h.total]
    exact zero_add _

variable [LawfulBEq κ]

theorem Counts.add {counts : SortedMap κ ℤ} {keys : List κ} (h : Counts counts.entries keys) (k : κ) :
    Counts (add counts k 1).entries (keys ++ [k]) := by
  constructor
  · exact h.positive.add k one_pos
  · intro k'
    rw [total_add, h.total, List.count_append, List.count_singleton, Nat.cast_add]
    by_cases hk : k = k' <;> simp [hk]

/-! ### Buckets -/

/-- The maps of the buckets. -/
def buckets (f : κ → ℕ) (n : ℕ) (records : List (κ × ℤ)) : List (SortedMap κ ℤ) :=
  (List.range n).map fun i => tally .empty (records.filter fun r => f r.1 = i)

section Buckets

variable {records : List (κ × ℤ)} {keys : List κ} {f : κ → ℕ} {n : ℕ}

theorem Counts.buckets (h : Counts records keys) (hf : ∀ k, f k < n) :
    Counts ((buckets f n records).flatMap SortedMap.entries) keys := by
  rw [Tally.buckets, List.flatMap_map]
  have hall : (keys.filter fun k => f k < n) = keys := List.filter_eq_self.2 fun k _ => decide_eq_true (hf k)
  refine Counts.perm (Counts.flatMap fun i _ => (h.filter fun k => decide (f k = i)).tally) (.refl _) ?_
  have hperm := perm_buckets f n keys
  rw [hall] at hperm
  exact hperm.symm

/-- A key is in one bucket only. -/
theorem Counts.nodup_buckets (h : Counts records keys) :
    (((Tally.buckets f n records).flatMap SortedMap.entries).map Prod.fst).Nodup := by
  have hbucket : ∀ i, ∀ k ∈ (Tally.tally .empty (records.filter fun r => f r.1 = i)).entries.map Prod.fst,
      f k = i := by
    intro i k hk
    obtain ⟨r, hr, rfl⟩ := List.mem_map.1 hk
    have hmem := (h.filter fun k => decide (f k = i)).tally.mem hr
    simpa using (List.mem_filter.1 hmem).2
  rw [Tally.buckets, List.flatMap_map, List.map_flatMap, List.nodup_flatMap]
  refine ⟨fun i _ => SortedMap.nodup_keys _, List.pairwise_lt_range.imp ?_⟩
  intro i j hij k hi hj
  exact hij.ne ((hbucket i k hi).symm.trans (hbucket j k hj))

end Buckets

end Maps

end Tally
