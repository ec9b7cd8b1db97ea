import Mathlib.Data.List.Induction
import Mathlib.Data.List.Pairwise
import Mathlib.Data.List.Sort
import Mathlib.Data.Set.Finite.Basic
import Mathlib.Order.Basic
import Mathlib.Tactic.Common

/-!
# Finite maps in key order

A `SortedMap` is a finite map, given by the list of its entries in the order of the keys.  It is determined by `get`
(`ext_get`).  `seek` gives the entries from a key on, and `scan_eq_filter` says that going on from there as long as
the keys lie in a set without gaps gives all entries with a key in the set.  `filter_eq_map` relates these entries to
another map that is stored in this one under translated keys.  `write` applies a batch of operations in order.
-/

structure SortedMap (κ ν : Type*) [LinearOrder κ] where
  entries : List (κ × ν)
  sorted : entries.Pairwise fun a b => a.1 < b.1

namespace SortedMap

variable {κ ν : Type*} [LinearOrder κ]

def empty : SortedMap κ ν := ⟨[], List.Pairwise.nil⟩

def get (m : SortedMap κ ν) (k : κ) : Option ν := (m.entries.find? fun e => e.1 = k).map Prod.snd

private theorem eq_of_key_eq {m : SortedMap κ ν} {a b : κ × ν} (ha : a ∈ m.entries) (hb : b ∈ m.entries)
    (hkey : a.1 = b.1) : a = b := by
  by_contra hne
  have hsymm : Std.Symm fun a b : κ × ν => a.1 ≠ b.1 := ⟨fun _ _ => Ne.symm⟩
  exact (m.sorted.imp fun h => h.ne).forall ha hb hne hkey

theorem get_eq_some_iff {m : SortedMap κ ν} {k : κ} {v : ν} : m.get k = some v ↔ (k, v) ∈ m.entries := by
  unfold get
  constructor
  · intro h
    obtain ⟨e, he, rfl⟩ := Option.map_eq_some_iff.1 h
    have hkey : e.1 = k := by simpa using List.find?_some he
    exact hkey ▸ List.mem_of_find?_eq_some he
  · intro h
    cases hfind : m.entries.find? fun e => decide (e.1 = k) with
    | none => exact absurd (List.find?_eq_none.1 hfind (k, v) h) (by simp)
    | some e =>
      have hkey : e.1 = k := by simpa using List.find?_some hfind
      rw [eq_of_key_eq (List.mem_of_find?_eq_some hfind) h hkey]
      rfl

theorem get_eq_none_iff {m : SortedMap κ ν} {k : κ} : m.get k = none ↔ ∀ v, (k, v) ∉ m.entries := by
  rw [Option.eq_none_iff_forall_ne_some]
  simp only [ne_eq, get_eq_some_iff]

theorem ext_entries {m m' : SortedMap κ ν} (h : m.entries = m'.entries) : m = m' := by
  cases m
  cases m'
  simp_all

theorem nodup_keys (m : SortedMap κ ν) : (m.entries.map Prod.fst).Nodup := by
  rw [List.Nodup, List.pairwise_map]
  exact m.sorted.imp fun h => h.ne

private theorem nodup_entries (m : SortedMap κ ν) : m.entries.Nodup := m.nodup_keys.of_map _

/-- Two sorted lists with the same elements are equal. -/
theorem eq_of_mem_iff {l l' : List (κ × ν)} (hl : l.Pairwise fun a b => a.1 < b.1)
    (hl' : l'.Pairwise fun a b => a.1 < b.1) (h : ∀ e, e ∈ l ↔ e ∈ l') : l = l' := by
  have hirrefl : Std.Irrefl fun a b : κ × ν => a.1 < b.1 := ⟨fun a => lt_irrefl a.1⟩
  have hasymm : Std.Antisymm fun a b : κ × ν => a.1 < b.1 := ⟨fun a b hab hba => absurd hab hba.asymm⟩
  exact hl.eq_of_mem_iff hl' h

theorem ext_get {m m' : SortedMap κ ν} (h : ∀ k, m.get k = m'.get k) : m = m' := by
  apply ext_entries
  apply eq_of_mem_iff m.sorted m'.sorted
  rintro ⟨k, v⟩
  rw [← get_eq_some_iff, ← get_eq_some_iff, h]

@[simp] theorem get_empty (k : κ) : (empty : SortedMap κ ν).get k = none := rfl

/-! ### Updates -/

def put (m : SortedMap κ ν) (k : κ) (v : ν) : SortedMap κ ν where
  entries := m.entries.filter (fun e => e.1 < k) ++ (k, v) :: m.entries.filter (fun e => k < e.1)
  sorted := by
    rw [List.pairwise_append, List.pairwise_cons]
    refine ⟨m.sorted.filter _, ⟨?_, m.sorted.filter _⟩, ?_⟩
    · intro e he
      simpa using (List.mem_filter.1 he).2
    · intro a ha b hb
      have hak : a.1 < k := by simpa using (List.mem_filter.1 ha).2
      rcases List.mem_cons.1 hb with rfl | hb
      · exact hak
      · exact hak.trans (by simpa using (List.mem_filter.1 hb).2)

def delete (m : SortedMap κ ν) (k : κ) : SortedMap κ ν where
  entries := m.entries.filter fun e => e.1 ≠ k
  sorted := m.sorted.filter _

theorem mem_put {m : SortedMap κ ν} {k : κ} {v : ν} {e : κ × ν} :
    e ∈ (m.put k v).entries ↔ e = (k, v) ∨ e ∈ m.entries ∧ e.1 ≠ k := by
  simp only [put, List.mem_append, List.mem_cons, List.mem_filter, decide_eq_true_eq]
  constructor
  · rintro (⟨he, hlt⟩ | rfl | ⟨he, hlt⟩)
    · exact Or.inr ⟨he, hlt.ne⟩
    · exact Or.inl rfl
    · exact Or.inr ⟨he, hlt.ne'⟩
  · rintro (rfl | ⟨he, hne⟩)
    · exact Or.inr (Or.inl rfl)
    · rcases lt_or_gt_of_ne hne with hlt | hlt
      · exact Or.inl ⟨he, hlt⟩
      · exact Or.inr (Or.inr ⟨he, hlt⟩)

theorem get_put (m : SortedMap κ ν) (k k' : κ) (v : ν) :
    (m.put k v).get k' = if k' = k then some v else m.get k' := by
  apply Option.ext
  intro w
  rw [get_eq_some_iff, mem_put]
  by_cases h : k' = k
  · simp [h, eq_comm]
  · simp [h, get_eq_some_iff]

theorem get_delete (m : SortedMap κ ν) (k k' : κ) :
    (m.delete k).get k' = if k' = k then none else m.get k' := by
  apply Option.ext
  intro w
  rw [get_eq_some_iff, delete, List.mem_filter]
  by_cases h : k' = k
  · simp [h]
  · simp [h, get_eq_some_iff]

@[simp] theorem get_put_self (m : SortedMap κ ν) (k : κ) (v : ν) : (m.put k v).get k = some v := by
  simp [get_put]

@[simp] theorem get_delete_self (m : SortedMap κ ν) (k : κ) : (m.delete k).get k = none := by
  simp [get_delete]

theorem delete_of_get_none {m : SortedMap κ ν} {k : κ} (h : m.get k = none) : m.delete k = m := by
  apply ext_get
  intro k'
  rw [get_delete]
  split
  · rename_i hk
    rw [hk, h]
  · rfl

/-- A map is finite. -/
theorem exists_get_eq_none {α : Type*} [Infinite α] (m : SortedMap κ ν) {f : α → κ} (hf : Function.Injective f) :
    ∃ a, m.get (f a) = none := by
  by_contra hall
  rw [not_exists] at hall
  have hmem : ∀ a, f a ∈ {k | k ∈ m.entries.map Prod.fst} := by
    intro a
    obtain ⟨v, hv⟩ := Option.ne_none_iff_exists'.1 (hall a)
    exact List.mem_map.2 ⟨_, get_eq_some_iff.1 hv, rfl⟩
  exact Set.infinite_of_injective_forall_mem hf hmem (List.finite_toSet _)

private theorem perm_of_mem_iff {m m' : SortedMap κ ν} {k : κ} {v : ν} (hnot : m'.get k = none)
    (h : ∀ e, e ∈ m.entries ↔ e = (k, v) ∨ e ∈ m'.entries) : m.entries.Perm ((k, v) :: m'.entries) := by
  apply (List.perm_ext_iff_of_nodup (nodup_entries m) _).2
  · simpa using h
  · exact List.nodup_cons.2 ⟨get_eq_none_iff.1 hnot v, nodup_entries m'⟩

private theorem perm_put (m : SortedMap κ ν) (k : κ) (v : ν) :
    (m.put k v).entries.Perm ((k, v) :: (m.delete k).entries) := by
  apply perm_of_mem_iff (get_delete_self m k)
  intro e
  rw [mem_put, delete, List.mem_filter]
  simp

private theorem perm_delete {m : SortedMap κ ν} {k : κ} {v : ν} (h : m.get k = some v) :
    m.entries.Perm ((k, v) :: (m.delete k).entries) := by
  apply perm_of_mem_iff (get_delete_self m k)
  intro e
  rw [delete, List.mem_filter]
  by_cases hk : e.1 = k
  · constructor
    · exact fun he => Or.inl (eq_of_key_eq he (get_eq_some_iff.1 h) hk)
    · rintro (rfl | he)
      · exact get_eq_some_iff.1 h
      · exact he.1
  · have hne : e ≠ (k, v) := fun heq => hk (by rw [heq])
    simp [hk, hne]

theorem length_delete_of_some {m : SortedMap κ ν} {k : κ} {v : ν} (h : m.get k = some v) :
    (m.delete k).entries.length + 1 = m.entries.length := (perm_delete h).length_eq.symm

theorem length_put_of_some {m : SortedMap κ ν} {k : κ} {v : ν} (w : ν) (h : m.get k = some v) :
    (m.put k w).entries.length = m.entries.length := by
  rw [(perm_put m k w).length_eq, List.length_cons, length_delete_of_some h]

theorem length_put_of_none {m : SortedMap κ ν} {k : κ} (w : ν) (h : m.get k = none) :
    (m.put k w).entries.length = m.entries.length + 1 := by
  rw [(perm_put m k w).length_eq, List.length_cons, delete_of_get_none h]

/-! ### Scans -/

/-- The entries from the key `k` on. -/
def seek (m : SortedMap κ ν) (k : κ) : List (κ × ν) := m.entries.dropWhile fun e => e.1 < k

private theorem dropWhile_eq_filter {l : List (κ × ν)} (hsorted : l.Pairwise fun a b => a.1 < b.1) (k : κ) :
    (l.dropWhile fun e => e.1 < k) = l.filter fun e => k ≤ e.1 := by
  induction l with
  | nil => rfl
  | cons a l ih =>
    rw [List.pairwise_cons] at hsorted
    by_cases ha : a.1 < k
    · rw [List.dropWhile_cons_of_pos (by simpa using ha), ih hsorted.2, List.filter_cons_of_neg (by simpa using ha)]
    · rw [List.dropWhile_cons_of_neg (by simpa using ha), List.filter_eq_self.2]
      intro e he
      have hak : k ≤ a.1 := not_lt.1 ha
      rcases List.mem_cons.1 he with rfl | he
      · simpa using hak
      · simpa using hak.trans (hsorted.1 e he).le

theorem seek_eq_filter (m : SortedMap κ ν) (k : κ) : m.seek k = m.entries.filter fun e => k ≤ e.1 :=
  dropWhile_eq_filter m.sorted k

/-- From a key that is there on come its entry and the entries with larger keys. -/
theorem seek_of_get {m : SortedMap κ ν} {k : κ} {v : ν} (h : m.get k = some v) :
    m.seek k = (k, v) :: m.entries.filter fun e => k < e.1 := by
  rw [seek_eq_filter]
  apply eq_of_mem_iff (m.sorted.filter _)
  · refine List.pairwise_cons.2 ⟨?_, m.sorted.filter _⟩
    intro e he
    simpa using (List.mem_filter.1 he).2
  · intro e
    rw [List.mem_filter, List.mem_cons, List.mem_filter]
    constructor
    · rintro ⟨he, hle⟩
      rcases lt_or_eq_of_le (of_decide_eq_true hle) with hlt | heq
      · exact Or.inr ⟨he, by simpa using hlt⟩
      · exact Or.inl (eq_of_key_eq he (get_eq_some_iff.1 h) heq.symm)
    · rintro (rfl | ⟨he, hlt⟩)
      · exact ⟨get_eq_some_iff.1 h, by simp⟩
      · exact ⟨he, by simpa using (of_decide_eq_true hlt).le⟩

/-- When `k'` is next to `k`, the entries after `k` are those from `k'` on. -/
theorem filter_lt_eq_seek (m : SortedMap κ ν) {k k' : κ} (h : ∀ x, k < x ↔ k' ≤ x) :
    (m.entries.filter fun e => k < e.1) = m.seek k' := by
  rw [seek_eq_filter]
  simp only [h]

private theorem sorted_split {l : List (κ × ν)} (hsorted : l.Pairwise fun a b => a.1 < b.1) {k : κ} {v : ν}
    (hmem : (k, v) ∈ l) :
    ∃ r, l = l.takeWhile (fun e => e.1 < k) ++ (k, v) :: r ∧
      l.filter (fun e => e.1 ≠ k) = l.takeWhile (fun e => e.1 < k) ++ r ∧ ∀ e ∈ r, k < e.1 := by
  induction l with
  | nil => simp at hmem
  | cons a l ih =>
    obtain ⟨hlt, hl⟩ := List.pairwise_cons.1 hsorted
    rcases List.mem_cons.1 hmem with rfl | hmem
    · have hne : ∀ e ∈ l, e.1 ≠ k := fun e he => (hlt e he).ne'
      refine ⟨l, ?_, ?_, hlt⟩
      · simp
      · simpa using hne
    · have hak : a.1 < k := hlt _ hmem
      obtain ⟨r, heq, hfilter, hr⟩ := ih hl hmem
      refine ⟨r, ?_, ?_, hr⟩
      · rw [List.takeWhile_cons_of_pos (by simpa using hak), List.cons_append, ← heq]
      · rw [List.takeWhile_cons_of_pos (by simpa using hak), List.filter_cons_of_pos (by simpa using hak.ne),
          List.cons_append, ← hfilter]

/-- The entry of a key is the only one that its deletion takes away. -/
theorem entries_split {m : SortedMap κ ν} {k : κ} {v : ν} (h : m.get k = some v) :
    ∃ l r, m.entries = l ++ (k, v) :: r ∧ (m.delete k).entries = l ++ r := by
  obtain ⟨r, heq, hfilter, -⟩ := sorted_split m.sorted (get_eq_some_iff.1 h)
  exact ⟨_, r, heq, hfilter⟩

theorem seek_delete (m : SortedMap κ ν) (k lo : κ) : (m.delete k).seek lo = (m.seek lo).filter fun e => e.1 ≠ k := by
  rw [seek_eq_filter, seek_eq_filter, delete, List.filter_comm]

/-- The entries from one key on and before another one. -/
def between (m : SortedMap κ ν) (lo k : κ) : List (κ × ν) := (m.seek lo).takeWhile fun e => e.1 < k

/-- From a key on, the entries before another one, its own entry and the ones after it. -/
theorem seek_split {m : SortedMap κ ν} {k lo : κ} {v : ν} (h : m.get k = some v) (hlo : lo ≤ k) :
    ∃ r, m.seek lo = m.between lo k ++ (k, v) :: r ∧
    (m.delete k).seek lo = m.between lo k ++ r ∧ ∀ e ∈ r, k < e.1 := by
  have hmem : (k, v) ∈ m.seek lo := by
    rw [seek_eq_filter]
    exact List.mem_filter.2 ⟨get_eq_some_iff.1 h, by simpa using hlo⟩
  have hsorted : (m.seek lo).Pairwise fun a b => a.1 < b.1 := by
    rw [seek_eq_filter]
    exact m.sorted.filter _
  rw [seek_delete]
  exact sorted_split hsorted hmem

theorem seek_delete_of_lt {m : SortedMap κ ν} {k lo : κ} (hlo : k < lo) : (m.delete k).seek lo = m.seek lo := by
  rw [seek_delete, List.filter_eq_self, seek_eq_filter]
  intro e he
  have hle : lo ≤ e.1 := by simpa using (List.mem_filter.1 he).2
  simpa using (hlo.trans_le hle).ne'

private theorem takeWhile_eq_filter {l : List (κ × ν)} {p : κ → Bool} (hsorted : l.Pairwise fun a b => a.1 < b.1)
    (hgap : ∀ a ∈ l, ∀ b ∈ l, a.1 < b.1 → p b.1 = true → p a.1 = true) :
    (l.takeWhile fun e => p e.1) = l.filter fun e => p e.1 := by
  induction l with
  | nil => rfl
  | cons a l ih =>
    rw [List.pairwise_cons] at hsorted
    by_cases ha : p a.1 = true
    · rw [List.takeWhile_cons_of_pos (p := fun e : κ × ν => p e.1) ha,
        List.filter_cons_of_pos (p := fun e : κ × ν => p e.1) ha,
        ih hsorted.2 fun x hx y hy => hgap x (List.mem_cons_of_mem _ hx) y (List.mem_cons_of_mem _ hy)]
    · rw [List.takeWhile_cons_of_neg (p := fun e : κ × ν => p e.1) ha,
        List.filter_cons_of_neg (p := fun e : κ × ν => p e.1) ha, eq_comm, List.filter_eq_nil_iff]
      intro b hb hpb
      exact ha (hgap a (List.mem_cons_self ..) b (List.mem_cons_of_mem _ hb) (hsorted.1 b hb) hpb)

/-- Going on from `lo` through keys of a set without gaps from `lo` on gives all entries with a key in the set. -/
theorem scan_eq_filter (m : SortedMap κ ν) {lo : κ} {p : κ → Bool} (hlo : ∀ k, p k = true → lo ≤ k)
    (hgap : ∀ a b, lo ≤ a → a ≤ b → p b = true → p a = true) :
    ((m.seek lo).takeWhile fun e => p e.1) = m.entries.filter fun e => p e.1 := by
  rw [seek_eq_filter, takeWhile_eq_filter (m.sorted.filter _), List.filter_filter]
  · apply List.filter_congr
    intro e _
    by_cases hp : p e.1 = true
    · simp [hp, hlo e.1 hp]
    · simp [hp]
  · intro a ha b _ hlt hb
    exact hgap a.1 b.1 (by simpa using (List.mem_filter.1 ha).2) hlt.le hb

/-- The entries with a key in a set are those of another map, when they are the same up to a translation that keeps
the order of the keys. -/
theorem filter_eq_map {κ' ν' : Type*} [LinearOrder κ'] (m : SortedMap κ ν) (m' : SortedMap κ' ν')
    {f : κ' × ν' → κ × ν} {p : κ → Bool} (hmono : ∀ a b, a.1 < b.1 → (f a).1 < (f b).1)
    (hmem : ∀ e, e ∈ m.entries ∧ p e.1 = true ↔ ∃ e' ∈ m'.entries, f e' = e) :
    (m.entries.filter fun e => p e.1) = m'.entries.map f := by
  apply eq_of_mem_iff (m.sorted.filter _)
  · exact List.pairwise_map.2 (m'.sorted.imp (hmono _ _))
  · intro e
    rw [List.mem_filter, List.mem_map]
    exact hmem e

/-! ### Batches -/

inductive Op (κ ν : Type*) where
  | Put (k : κ) (v : ν)
  | Delete (k : κ)

def Op.key : Op κ ν → κ
  | .Put k _ => k
  | .Delete k => k

/-- What the key of the operation is bound to afterwards. -/
def Op.result : Op κ ν → Option ν
  | .Put _ v => some v
  | .Delete _ => none

def apply (m : SortedMap κ ν) : Op κ ν → SortedMap κ ν
  | .Put k v => m.put k v
  | .Delete k => m.delete k

/-- The operations of a batch are applied in order. -/
def write (m : SortedMap κ ν) (batch : List (Op κ ν)) : SortedMap κ ν := batch.foldl apply m

theorem get_apply (m : SortedMap κ ν) (op : Op κ ν) (k : κ) :
    (m.apply op).get k = if k = op.key then op.result else m.get k := by
  cases op with
  | Put k' v => exact get_put m k' k v
  | Delete k' => exact get_delete m k' k

@[simp] theorem write_nil (m : SortedMap κ ν) : m.write [] = m := rfl

@[simp] theorem write_cons (m : SortedMap κ ν) (op : Op κ ν) (batch : List (Op κ ν)) :
    m.write (op :: batch) = (m.apply op).write batch := rfl

theorem write_append (m : SortedMap κ ν) (batch batch' : List (Op κ ν)) :
    m.write (batch ++ batch') = (m.write batch).write batch' := List.foldl_append

theorem mem_write {m : SortedMap κ ν} {batch : List (Op κ ν)} {e : κ × ν} (he : e ∈ (m.write batch).entries) :
    e ∈ m.entries ∨ .Put e.1 e.2 ∈ batch := by
  induction batch generalizing m with
  | nil => exact Or.inl he
  | cons op batch ih =>
    rcases ih he with he | he
    · cases op with
      | Put k v =>
        rcases mem_put.1 he with rfl | ⟨he, -⟩
        · exact Or.inr (List.mem_cons_self ..)
        · exact Or.inl he
      | Delete k => exact Or.inl (List.mem_filter.1 he).1
    · exact Or.inr (List.mem_cons_of_mem _ he)

/-- A value that is put under a key which the batch does not use can be put afterwards. -/
theorem write_put_of_forall_ne {m : SortedMap κ ν} {batch : List (Op κ ν)} {k : κ} {v : ν}
    (h : ∀ op ∈ batch, op.key ≠ k) : (m.put k v).write batch = (m.write batch).put k v := by
  induction batch generalizing m with
  | nil => rfl
  | cons op batch ih =>
    have hput : (m.put k v).apply op = (m.apply op).put k v := by
      apply ext_get
      intro k'
      rw [get_apply, get_put, get_put, get_apply]
      by_cases hop : k' = op.key
      · rw [if_pos hop, if_pos hop, if_neg (hop ▸ h op (List.mem_cons_self ..))]
      · rw [if_neg hop, if_neg hop]
    rw [write_cons, write_cons, hput, ih fun op' h' => h op' (List.mem_cons_of_mem _ h')]

theorem get_write_of_forall_ne {m : SortedMap κ ν} {batch : List (Op κ ν)} {k : κ}
    (h : ∀ op ∈ batch, op.key ≠ k) : (m.write batch).get k = m.get k := by
  induction batch generalizing m with
  | nil => rfl
  | cons op batch ih =>
    rw [write_cons, ih fun op' h' => h op' (List.mem_cons_of_mem _ h'), get_apply,
      if_neg (h op (List.mem_cons_self ..)).symm]

/-- What a batch does to a key depends on the value of that key alone. -/
theorem get_write_congr {m m' : SortedMap κ ν} {k : κ} (h : m.get k = m'.get k) (batch : List (Op κ ν)) :
    (m.write batch).get k = (m'.write batch).get k := by
  induction batch generalizing m m' with
  | nil => exact h
  | cons op batch ih =>
    refine ih ?_
    rw [get_apply, get_apply, h]

/-- In a batch with one operation for each key, the operation of a key decides. -/
theorem get_write_of_mem {m : SortedMap κ ν} {batch : List (Op κ ν)} (hnodup : (batch.map Op.key).Nodup)
    {op : Op κ ν} (hop : op ∈ batch) : (m.write batch).get op.key = op.result := by
  induction batch generalizing m with
  | nil => simp at hop
  | cons op' batch ih =>
    rw [List.map_cons, List.nodup_cons] at hnodup
    rw [write_cons]
    rcases List.mem_cons.1 hop with rfl | hop
    · rw [get_write_of_forall_ne, get_apply, if_pos rfl]
      intro op'' h'' hkey
      exact hnodup.1 (hkey ▸ List.mem_map_of_mem h'')
    · exact ih hnodup.2 hop

section Puts

variable {α : Type*} {f : α → κ} {g : α → ν}

theorem get_puts_of_mem {m : SortedMap κ ν} {l : List α} (hnodup : (l.map f).Nodup) {x : α} (hx : x ∈ l) :
    (m.write (l.map fun x => .Put (f x) (g x))).get (f x) = some (g x) := by
  have hkeys : ((l.map fun x => Op.Put (f x) (g x)).map Op.key).Nodup := by
    rw [List.map_map]
    exact hnodup
  have hop : Op.Put (f x) (g x) ∈ l.map fun x => Op.Put (f x) (g x) := List.mem_map_of_mem hx
  exact get_write_of_mem hkeys hop

theorem get_puts_of_forall_ne {m : SortedMap κ ν} {l : List α} {k : κ} (h : ∀ x ∈ l, f x ≠ k) :
    (m.write (l.map fun x => .Put (f x) (g x))).get k = m.get k := by
  apply get_write_of_forall_ne
  intro op hop
  obtain ⟨x, hx, rfl⟩ := List.mem_map.1 hop
  exact h x hx

/-- The last of the values that are put under a key is the one that is found. -/
theorem get_puts (m : SortedMap κ ν) (l : List α) {k : κ} {p : α → Bool} (hp : ∀ x, p x = true ↔ f x = k) :
    (m.write (l.map fun x => .Put (f x) (g x))).get k = ((l.reverse.find? p).map g).or (m.get k) := by
  induction l using List.reverseRecOn with
  | nil => rfl
  | append_singleton l x ih =>
    rw [List.map_append, write_append, List.reverse_append]
    simp only [List.map_cons, List.map_nil, write_cons, write_nil, apply, get_put,
      List.reverse_cons, List.reverse_nil,
      List.nil_append, List.cons_append]
    by_cases h : f x = k
    · simp [h, (hp x).2 h]
    · rw [if_neg (Ne.symm h), ih, List.find?_cons_of_neg (mt (hp x).1 h)]

/-- A map is built again from its entries. -/
theorem write_entries (m : SortedMap κ ν) : empty.write (m.entries.map fun e => .Put e.1 e.2) = m := by
  apply ext_get
  intro k
  cases hget : m.get k with
  | none =>
    rw [get_puts_of_forall_ne, get_empty]
    rintro e he rfl
    exact get_eq_none_iff.1 hget e.2 he
  | some v =>
    have hmem := get_eq_some_iff.1 hget
    exact get_puts_of_mem (f := Prod.fst) (g := Prod.snd) m.nodup_keys hmem

/-- Putting values under different keys adds those keys that were not there. -/
theorem length_puts {m : SortedMap κ ν} {l : List α} (hnodup : (l.map f).Nodup) :
    (m.write (l.map fun x => .Put (f x) (g x))).entries.length =
      m.entries.length + (l.filter fun x => (m.get (f x)).isNone).length := by
  induction l generalizing m with
  | nil => rfl
  | cons x l ih =>
    rw [List.map_cons, List.nodup_cons] at hnodup
    have hrest : (l.filter fun y => ((m.put (f x) (g x)).get (f y)).isNone) =
        l.filter fun y => (m.get (f y)).isNone := by
      apply List.filter_congr
      intro y hy
      have hne : f y ≠ f x := by
        intro h
        rw [← h] at hnodup
        exact hnodup.1 (List.mem_map_of_mem hy)
      rw [get_put, if_neg hne]
    rw [List.map_cons, write_cons, ih hnodup.2, apply, hrest]
    cases hget : m.get (f x) with
    | none =>
      rw [length_put_of_none _ hget, List.filter_cons_of_pos (by simp [hget]), List.length_cons]
      omega
    | some v => rw [length_put_of_some _ hget, List.filter_cons_of_neg (by simp [hget])]

theorem get_deletes (m : SortedMap κ ν) (l : List α) (k : κ) :
    (m.write (l.map fun x => .Delete (f x))).get k = if ∃ x ∈ l, f x = k then none else m.get k := by
  induction l generalizing m with
  | nil => simp
  | cons x l ih =>
    rw [List.map_cons, write_cons, ih, apply, get_delete]
    by_cases h : k = f x
    · simp [h]
    · simp [h, Ne.symm h]

/-- Deleting different keys that are all there. -/
theorem length_deletes {m : SortedMap κ ν} {l : List α} (hnodup : (l.map f).Nodup)
    (hmem : ∀ x ∈ l, (m.get (f x)).isSome) :
    (m.write (l.map fun x => .Delete (f x))).entries.length + l.length = m.entries.length := by
  induction l generalizing m with
  | nil => rfl
  | cons x l ih =>
    rw [List.map_cons, List.nodup_cons] at hnodup
    obtain ⟨v, hv⟩ := Option.isSome_iff_exists.1 (hmem x (List.mem_cons_self ..))
    have hdelete := length_delete_of_some hv
    have hrest := ih (m := m.delete (f x)) hnodup.2 (by
      intro y hy
      have hne : f y ≠ f x := by
        intro h
        rw [← h] at hnodup
        exact hnodup.1 (List.mem_map_of_mem hy)
      rw [get_delete, if_neg hne]
      exact hmem y (List.mem_cons_of_mem _ hy))
    rw [List.map_cons, write_cons, apply, List.length_cons]
    omega

end Puts

end SortedMap
