import Mathlib.Data.Set.Basic
import Mathlib.Order.Defs.LinearOrder
import Mathlib.Order.Basic
import Mathlib.Tactic.Common

/-!
# Multi-version sets

A set of entries, each with a key, a time and a value, where the value `none` marks a deletion.  A read at the time
`t` sees the newest entry of its key that is not younger than `t`.  Sets that are layered, newer over older, can be
read one after the other (`Newest.union_left`, `Newest.union_right`), and an entry may be left out when every read
that saw it reads the same without it (`Reads.elide`).
-/

namespace Mvcc

variable {E K T V : Type*} [LinearOrder T] (key : E → K) (time : E → T) (value : E → Option V)

/-- `e` is the newest entry of the key `k` that is not younger than `t`. -/
structure Newest (S : Set E) (k : K) (t : T) (e : E) : Prop where
  mem : e ∈ S
  key_eq : key e = k
  le : time e ≤ t
  newest : ∀ e' ∈ S, key e' = k → time e' ≤ t → time e' ≤ time e

/-- No entry of the key is old enough. -/
def Absent (S : Set E) (k : K) (t : T) : Prop := ∀ e ∈ S, key e = k → t < time e

/-- The result of a read. -/
def Reads (S : Set E) (k : K) (t : T) (r : Option V) : Prop :=
  (∃ e, Newest key time S k t e ∧ value e = r) ∨ Absent key time S k t ∧ r = none

/-- The outcome of a search: the newest entry, or nothing when there is none. -/
def Found (S : Set E) (k : K) (t : T) : Option E → Prop
  | some e => Newest key time S k t e
  | none => Absent key time S k t

/-- Every entry of `A` is newer than every entry of `B` with the same key. -/
def Newer (A B : Set E) : Prop := ∀ a ∈ A, ∀ b ∈ B, key a = key b → time b < time a

/-- Entries of one key have different times. -/
def Distinct (S : Set E) : Prop := ∀ a ∈ S, ∀ b ∈ S, key a = key b → time a = time b → a = b

variable {key time value}

theorem Newest.union_left {A B : Set E} {k : K} {t : T} {e : E} (hnewer : Newer key time A B)
    (h : Newest key time A k t e) : Newest key time (A ∪ B) k t e := by
  refine ⟨Or.inl h.mem, h.key_eq, h.le, fun e' he' hk ht => ?_⟩
  rcases he' with he' | he'
  · exact h.newest e' he' hk ht
  · exact (hnewer e h.mem e' he' (h.key_eq.trans hk.symm)).le

theorem Newest.union_right {A B : Set E} {k : K} {t : T} {e : E} (habsent : Absent key time A k t)
    (h : Newest key time B k t e) : Newest key time (A ∪ B) k t e := by
  refine ⟨Or.inr h.mem, h.key_eq, h.le, fun e' he' hk ht => ?_⟩
  rcases he' with he' | he'
  · exact absurd ht (habsent e' he' hk).not_ge
  · exact h.newest e' he' hk ht

theorem Absent.union {A B : Set E} {k : K} {t : T} (hA : Absent key time A k t) (hB : Absent key time B k t) :
    Absent key time (A ∪ B) k t := by
  rintro e (he | he) hk
  · exact hA e he hk
  · exact hB e he hk

theorem Absent.mono {A B : Set E} {k : K} {t : T} (hsub : A ⊆ B) (h : Absent key time B k t) :
    Absent key time A k t := fun e he hk => h e (hsub he) hk

theorem Newest.of_subset {A B : Set E} {k : K} {t : T} {e : E} (hsub : A ⊆ B) (hmem : e ∈ A)
    (h : Newest key time B k t e) : Newest key time A k t e :=
  ⟨hmem, h.key_eq, h.le, fun e' he' hk ht => h.newest e' (hsub he') hk ht⟩

/-- An entry seen by a read at `t` is seen by every earlier read that it is not too young for. -/
theorem Newest.of_le {S : Set E} {k : K} {t t' : T} {e : E} (h : Newest key time S k t e) (he : time e ≤ t')
    (ht : t' ≤ t) : Newest key time S k t' e :=
  ⟨h.mem, h.key_eq, he, fun e' he' hk hle => h.newest e' he' hk (hle.trans ht)⟩

theorem Newest.unique {S : Set E} (hdistinct : Distinct key time S) {k : K} {t : T} {e e' : E}
    (h : Newest key time S k t e) (h' : Newest key time S k t e') : e = e' :=
  hdistinct e h.mem e' h'.mem (h.key_eq.trans h'.key_eq.symm)
    (le_antisymm (h'.newest e h.mem h.key_eq h.le) (h.newest e' h'.mem h'.key_eq h'.le))

theorem Newest.not_absent {S : Set E} {k : K} {t : T} {e : E} (h : Newest key time S k t e) :
    ¬ Absent key time S k t := fun habsent => (habsent e h.mem h.key_eq).not_ge h.le

theorem Reads.unique {S : Set E} (hdistinct : Distinct key time S) {k : K} {t : T} {r r' : Option V}
    (h : Reads key time value S k t r) (h' : Reads key time value S k t r') : r = r' := by
  rcases h with ⟨e, he, rfl⟩ | ⟨habsent, rfl⟩
  · rcases h' with ⟨e', he', rfl⟩ | ⟨habsent', rfl⟩
    · rw [he.unique hdistinct he']
    · exact absurd habsent' he.not_absent
  · rcases h' with ⟨e', he', rfl⟩ | ⟨-, rfl⟩
    · exact absurd habsent he'.not_absent
    · rfl

/-- A read sees the same without entries that were left out, if the entry it saw is still there, or was a deletion and
the read now finds nothing. -/
theorem Reads.elide {A B : Set E} {k : K} {t : T} {r : Option V} (hsub : A ⊆ B) (h : Reads key time value B k t r)
    (hkeep : ∀ e, Newest key time B k t e → e ∈ A ∨ value e = none ∧ Reads key time value A k t none) :
    Reads key time value A k t r := by
  rcases h with ⟨e, he, rfl⟩ | ⟨habsent, rfl⟩
  · rcases hkeep e he with hmem | ⟨hnone, hreads⟩
    · exact Or.inl ⟨e, he.of_subset hsub hmem, rfl⟩
    · rwa [hnone]
  · exact Or.inr ⟨habsent.mono hsub, rfl⟩

/-- A read without some of the entries is right if none of them is the newest, or if it reads the same. -/
theorem Reads.sdiff_iff {S M : Set E} (hdistinct : Distinct key time S) {k : K} {t : T} {r r' : Option V}
    (h : Reads key time value (S \ M) k t r) (hS : Reads key time value S k t r') :
    Reads key time value S k t r ↔ ∀ e ∈ M, Newest key time S k t e → value e = r := by
  refine ⟨fun hr e _ he => Reads.unique hdistinct (Or.inl ⟨e, he, rfl⟩) hr, fun hmissed => ?_⟩
  have hunique : ∀ r', Reads key time value (S \ M) k t r' → r' = r := fun r' h' =>
    Reads.unique (fun a ha b hb => hdistinct a ha.1 b hb.1) h' h
  rcases hS with ⟨e, he, -⟩ | ⟨habsent, -⟩
  · refine Or.inl ⟨e, he, ?_⟩
    by_cases hmem : e ∈ M
    · exact hmissed e hmem he
    · exact hunique _ (Or.inl ⟨e, he.of_subset (fun _ ha => ha.1) ⟨he.mem, hmem⟩, rfl⟩)
  · exact Or.inr ⟨habsent, (hunique none (Or.inr ⟨habsent.mono (fun _ ha => ha.1), rfl⟩)).symm⟩

/-- Reads that are young enough to see every entry see the same. -/
theorem Reads.of_all_le {S : Set E} {k : K} {t t' : T} {r : Option V} (hall : ∀ e ∈ S, time e ≤ t)
    (hle : ∀ e ∈ S, time e ≤ t') (h : Reads key time value S k t r) : Reads key time value S k t' r := by
  rcases h with ⟨e, he, hr⟩ | ⟨habsent, hr⟩
  · exact Or.inl ⟨e, ⟨he.mem, he.key_eq, hle e he.mem, fun e' he' hk _ => he.newest e' he' hk (hall e' he')⟩, hr⟩
  · exact Or.inr ⟨fun e he hk => absurd (habsent e he hk) (hall e he).not_gt, hr⟩

/-- A read looks at the entries of its key that are old enough. -/
def Agree (key : E → K) (time : E → T) (A B : Set E) (k : K) (t : T) : Prop :=
  ∀ e, key e = k → time e ≤ t → (e ∈ A ↔ e ∈ B)

theorem Agree.symm {A B : Set E} {k : K} {t : T} (h : Agree key time A B k t) : Agree key time B A k t :=
  fun e hk ht => (h e hk ht).symm

theorem Agree.newest {A B : Set E} {k : K} {t : T} {e : E} (hagree : Agree key time A B k t)
    (h : Newest key time A k t e) : Newest key time B k t e :=
  ⟨(hagree e h.key_eq h.le).1 h.mem, h.key_eq, h.le, fun e' he' hk ht => h.newest e' ((hagree e' hk ht).2 he') hk ht⟩

theorem Agree.absent {A B : Set E} {k : K} {t : T} (hagree : Agree key time A B k t) (h : Absent key time A k t) :
    Absent key time B k t :=
  fun e he hk => lt_of_not_ge fun ht => (h e ((hagree e hk ht).2 he) hk).not_ge ht

theorem Agree.reads {A B : Set E} {k : K} {t : T} {r : Option V} (hagree : Agree key time A B k t)
    (h : Reads key time value A k t r) : Reads key time value B k t r := by
  rcases h with ⟨e, he, hr⟩ | ⟨habsent, hr⟩
  · exact Or.inl ⟨e, hagree.newest he, hr⟩
  · exact Or.inr ⟨hagree.absent habsent, hr⟩

theorem Agree.found {A B : Set E} {k : K} {t : T} {found : Option E} (hagree : Agree key time A B k t)
    (h : Found key time A k t found) : Found key time B k t found := by
  cases found with
  | none => exact hagree.absent h
  | some e => exact hagree.newest h

/-- A read of two layers is one of the newer layer, or of the older one when there is nothing in the newer one. -/
theorem reads_union_iff {A B : Set E} {k : K} {t : T} {r : Option V} (hnewer : Newer key time A B) :
    Reads key time value (A ∪ B) k t r ↔
      (∃ e, Newest key time A k t e ∧ value e = r) ∨ Absent key time A k t ∧ Reads key time value B k t r := by
  constructor
  · rintro (⟨e, he, hr⟩ | ⟨habsent, hr⟩)
    · rcases he.mem with hmem | hmem
      · exact Or.inl ⟨e, he.of_subset Set.subset_union_left hmem, hr⟩
      · refine Or.inr ⟨fun a ha hk => lt_of_not_ge fun ht => ?_,
          Or.inl ⟨e, he.of_subset Set.subset_union_right hmem, hr⟩⟩
        have hlt := hnewer a ha e hmem (hk.trans he.key_eq.symm)
        exact absurd (he.newest a (Or.inl ha) hk ht) hlt.not_ge
    · exact Or.inr ⟨habsent.mono Set.subset_union_left, Or.inr ⟨habsent.mono Set.subset_union_right, hr⟩⟩
  · rintro (⟨e, he, hr⟩ | ⟨habsent, ⟨e, he, hr⟩ | ⟨habsent', hr⟩⟩)
    · exact Or.inl ⟨e, he.union_left hnewer, hr⟩
    · exact Or.inl ⟨e, he.union_right habsent, hr⟩
    · exact Or.inr ⟨habsent.union habsent', hr⟩

/-- Older layers that read the same may be exchanged. -/
theorem Newer.reads_congr {A B B' : Set E} {k : K} {t : T} {r : Option V} (hnewer : Newer key time A B)
    (hnewer' : Newer key time A B') (h : Reads key time value B k t r ↔ Reads key time value B' k t r) :
    Reads key time value (A ∪ B) k t r ↔ Reads key time value (A ∪ B') k t r := by
  rw [reads_union_iff hnewer, reads_union_iff hnewer', h]

theorem Found.reads {S : Set E} {k : K} {t : T} {found : Option E} (h : Found key time S k t found) :
    Reads key time value S k t (found.bind value) := by
  cases found with
  | none => exact Or.inr ⟨h, rfl⟩
  | some e => exact Or.inl ⟨e, h, rfl⟩

/-- Older entries are searched when there is nothing in the newer ones. -/
theorem Found.union {A B : Set E} {k : K} {t : T} {a b : Option E} (hnewer : Newer key time A B)
    (ha : Found key time A k t a) (hb : Found key time B k t b) : Found key time (A ∪ B) k t (a.or b) := by
  cases a with
  | some e => exact Newest.union_left hnewer ha
  | none =>
    cases b with
    | some e => exact Newest.union_right ha hb
    | none => exact Absent.union ha hb

/-- A search may leave out entries of other keys. -/
theorem Found.of_subset {A B : Set E} {k : K} {t : T} {found : Option E} (hsub : A ⊆ B)
    (hkey : ∀ e ∈ B, key e = k → e ∈ A) (h : Found key time A k t found) : Found key time B k t found := by
  cases found with
  | some e => exact ⟨hsub h.mem, h.key_eq, h.le, fun e' he' hk ht => h.newest e' (hkey e' he' hk) hk ht⟩
  | none => exact fun e he hk => h e (hkey e he hk) hk

/-- Layers, each newer than the ones after it, are searched one after the other. -/
theorem found_findSome? {ι : Type*} {S : ι → Set E} {search : ι → Option E} {k : K} {t : T} {layers : List ι}
    (hnewer : layers.Pairwise fun i j => Newer key time (S i) (S j))
    (hfound : ∀ i ∈ layers, Found key time (S i) k t (search i)) :
    Found key time {e | ∃ i ∈ layers, e ∈ S i} k t (layers.findSome? search) := by
  induction layers with
  | nil => exact fun e he => absurd he (by simp)
  | cons i layers ih =>
    obtain ⟨hi, hrest⟩ := List.pairwise_cons.1 hnewer
    have hset : {e | ∃ j ∈ i :: layers, e ∈ S j} = S i ∪ {e | ∃ j ∈ layers, e ∈ S j} := by
      ext e
      simp
    have hunion := Found.union (B := {e | ∃ j ∈ layers, e ∈ S j})
      (fun a ha b ⟨j, hj, hb⟩ hk => hi j hj a ha b hb hk) (hfound i (List.mem_cons_self ..))
      (ih hrest fun j hj => hfound j (List.mem_cons_of_mem _ hj))
    rw [hset, List.findSome?_cons]
    cases hs : search i with
    | none => simpa [hs] using hunion
    | some e => simpa [hs] using hunion

end Mvcc
