import Mathlib.Data.List.Sort
import SwissArmyKnife.Lib.Merge

/-!
# Taking the greatest head

Elements are taken from sorted lists, each time the head of a list whose head has a greatest key.  What is taken comes
in ascending order, as a merge would have it, only if there is one list, or if all that can be taken has the same key
(`forall_first_iff`).
-/

namespace GreatestFirst

variable {α κ : Type*} [LinearOrder κ] (key : α → κ)

/-- A list that has become empty is dropped. -/
def putBack : List α → List (List α) → List (List α)
  | [], rest => rest
  | a :: l, rest => (a :: l) :: rest

/-- At most `n` elements are taken, in this order.  The lists are not in any order, and none of them is empty. -/
inductive Takes : ℕ → List (List α) → List α → Prop where
  | stop (ls : List (List α)) : Takes 0 ls []
  | exhausted (n : ℕ) : Takes n [] []
  | take {n : ℕ} {ls rest : List (List α)} {a : α} {l out : List α} (hperm : ls.Perm ((a :: l) :: rest))
      (hmax : ∀ b l', b :: l' ∈ rest → key b ≤ key a) (h : Takes n (putBack l rest) out) : Takes (n + 1) ls (a :: out)

/-- The first `n` of all the keys, in ascending order. -/
def First (n : ℕ) (all keys : List κ) : Prop :=
  ∃ sorted : List κ, sorted.Perm all ∧ sorted.Pairwise (· ≤ ·) ∧ keys = sorted.take n

variable {key}

theorem mem_putBack {l l' : List α} {rest : List (List α)} (h : l' ∈ putBack l rest) :
    l' = l ∧ l ≠ [] ∨ l' ∈ rest := by
  cases l with
  | nil => exact .inr h
  | cons a l =>
    rcases List.mem_cons.1 h with rfl | h
    · exact .inl ⟨rfl, by simp⟩
    · exact .inr h

theorem flatten_putBack (l : List α) (rest : List (List α)) : (putBack l rest).flatten = l ++ rest.flatten := by
  cases l <;> simp [putBack]

theorem putBack_ne_nil {l : List α} {rest : List (List α)} (hne : ∀ l' ∈ rest, l' ≠ []) :
    ∀ l' ∈ putBack l rest, l' ≠ [] := by
  intro l' h
  rcases mem_putBack h with ⟨rfl, hl⟩ | h
  · exact hl
  · exact hne l' h

variable (key) in
/-- There is a greatest head. -/
theorem exists_greatest {ls : List (List α)} (hls : ls ≠ []) (hne : ∀ l ∈ ls, l ≠ []) :
    ∃ a l rest, ls.Perm ((a :: l) :: rest) ∧ ∀ b l', b :: l' ∈ rest → key b ≤ key a := by
  induction ls with
  | nil => exact absurd rfl hls
  | cons l ls ih =>
    obtain ⟨a, l, rfl⟩ := List.exists_cons_of_ne_nil (hne l (by simp))
    by_cases hnil : ls = []
    · subst hnil
      exact ⟨a, l, [], .refl _, by simp⟩
    obtain ⟨b, l', rest, hperm, hmax⟩ := ih hnil fun l h => hne l (by simp [h])
    rcases le_total (key a) (key b) with hle | hle
    · refine ⟨b, l', (a :: l) :: rest, (hperm.cons _).trans (.swap ..), ?_⟩
      intro c l'' hmem
      rcases List.mem_cons.1 hmem with heq | hmem
      · cases heq
        exact hle
      · exact hmax c l'' hmem
    · refine ⟨a, l, ls, .refl _, ?_⟩
      intro c l'' hmem
      rcases List.mem_cons.1 (hperm.subset hmem) with heq | hmem
      · cases heq
        exact hle
      · exact (hmax c l'' hmem).trans hle

variable (key) in
theorem exists_takes (n : ℕ) {ls : List (List α)} (hne : ∀ l ∈ ls, l ≠ []) : ∃ out, Takes key n ls out := by
  induction n generalizing ls with
  | zero => exact ⟨[], .stop ls⟩
  | succ n ih =>
    by_cases hls : ls = []
    · subst hls
      exact ⟨[], .exhausted _⟩
    · obtain ⟨a, l, rest, hperm, hmax⟩ := exists_greatest key hls hne
      obtain ⟨out, hout⟩ := ih (putBack_ne_nil (l := l) fun l' (h : l' ∈ rest) =>
        hne l' (hperm.symm.subset (by simp [h])))
      exact ⟨a :: out, .take hperm hmax hout⟩

theorem Takes.perm {n : ℕ} {ls ls' : List (List α)} {out : List α} (h : Takes key n ls out) (hperm : ls.Perm ls') :
    Takes key n ls' out := by
  cases h with
  | stop => exact .stop ls'
  | exhausted =>
    obtain rfl := hperm.nil_eq
    exact .exhausted n
  | take hperm' hmax h => exact .take (hperm.symm.trans hperm') hmax h

theorem Takes.length {n : ℕ} {ls : List (List α)} {out : List α} (h : Takes key n ls out) :
    out.length = min n ls.flatten.length := by
  induction h with
  | stop => simp
  | exhausted => simp
  | take hperm _ _ ih =>
    have hlength := hperm.flatten.length_eq
    rw [flatten_putBack] at ih
    simp only [List.flatten_cons, List.length_append, List.length_cons] at hlength ih ⊢
    omega

/-- What is taken is among the first `n` elements of its list. -/
theorem Takes.mem {n : ℕ} {ls : List (List α)} {out : List α} (h : Takes key n ls out) {a : α} (ha : a ∈ out) :
    ∃ l ∈ ls, a ∈ l.take n := by
  induction h with
  | stop => simp at ha
  | exhausted => simp at ha
  | @take n ls rest b l out hperm _ _ ih =>
    rcases List.mem_cons.1 ha with rfl | ha
    · exact ⟨a :: l, hperm.symm.subset (by simp), by simp⟩
    · obtain ⟨l', hl', hmem⟩ := ih ha
      rcases mem_putBack hl' with ⟨rfl, _⟩ | hrest
      · exact ⟨b :: l', hperm.symm.subset (by simp), by simp [hmem]⟩
      · exact ⟨l', hperm.symm.subset (by simp [hrest]), (List.take_subset_take_left l' (by omega)) hmem⟩

/-- While the keys are greatest, all of them can be taken from one list. -/
theorem takes_append {k : κ} {n : ℕ} {front l : List α} {rest : List (List α)} {out : List α}
    (hfront : ∀ a ∈ front, key a = k) (hl : l ≠ []) (hrest : ∀ b l', b :: l' ∈ rest → key b ≤ k)
    (h : Takes key n (l :: rest) out) : Takes key (front.length + n) ((front ++ l) :: rest) (front ++ out) := by
  induction front with
  | nil => simpa using h
  | cons a front ih =>
    rw [List.length_cons, Nat.add_right_comm]
    refine .take (.refl _) (fun b l' hmem => (hrest b l' hmem).trans (hfront a (by simp)).ge) ?_
    have hput : putBack (front ++ l) rest = (front ++ l) :: rest := by
      cases hcons : front ++ l with
      | nil => simp [hl] at hcons
      | cons => rfl
    rw [List.append_eq, hput]
    exact ih fun a ha => hfront a (by simp [ha])

/-- Before an element with a greater key, all with this key have come. -/
theorem count_le_of_sorted {sorted front back : List κ} {k x : κ} (hsorted : sorted.Pairwise (· ≤ ·))
    (heq : sorted = front ++ x :: back) (hlt : k < x) : sorted.count k ≤ front.length := by
  have hback : (x :: back).count k = 0 := by
    rw [List.count_eq_zero]
    intro hmem
    rw [heq, List.pairwise_append, List.pairwise_cons] at hsorted
    rcases List.mem_cons.1 hmem with rfl | hmem
    · exact hlt.false
    · exact (hsorted.2.1.1 k hmem).not_gt hlt
  rw [heq, List.count_append, hback]
  exact List.count_le_length

theorem Takes.zero {ls : List (List α)} {out : List α} (h : Takes key 0 ls out) : out = [] := by
  cases h <;> rfl

/-- What is to come from a single list. -/
theorem takes_single {n : ℕ} {l out : List α} (h : Takes key n (putBack l []) out) : out = l.take n := by
  induction n generalizing l out with
  | zero => simp [h.zero]
  | succ n ih =>
    cases l with
    | nil =>
      rw [putBack] at h
      cases h with
      | exhausted => rfl
      | take hperm => simp at hperm
    | cons a l =>
      rw [putBack] at h
      cases h with
      | take hperm _ h =>
        obtain ⟨hhead, hrest⟩ := List.cons.inj (List.singleton_perm.1 hperm)
        cases hhead
        subst hrest
        rw [List.take_succ_cons, ih h]

/-- The least key of all comes first in ascending order, as often as there are elements with it. -/
theorem take_sorted_eq {n : ℕ} {ls : List (List α)} {sorted : List κ} {k : κ}
    (hperm : sorted.Perm (ls.flatten.map key))
    (hsorted : sorted.Pairwise (· ≤ ·)) (hmin : ∀ x ∈ sorted, k ≤ x) (hk : ∀ l ∈ ls, ∀ a ∈ l.take n, key a = k) :
    ∀ x ∈ sorted.take n, x = k := by
  intro x hx
  by_contra hne
  obtain ⟨i, hi, rfl⟩ := List.mem_take_iff_getElem.1 hx
  have hlt : i < sorted.length := by omega
  have hsplit : sorted = sorted.take i ++ sorted[i] :: sorted.drop (i + 1) := by simp
  have hcount := count_le_of_sorted hsorted hsplit (lt_of_le_of_ne (hmin _ (List.getElem_mem _)) (Ne.symm hne))
  rw [hperm.count_eq, List.length_take] at hcount
  by_cases hlong : ∃ l ∈ ls, n ≤ l.length
  · obtain ⟨l, hl, hn⟩ := hlong
    have htake : (l.take n).map key = List.replicate n k := by
      refine List.eq_replicate_iff.2 ⟨by simp [hn], ?_⟩
      intro y hy
      obtain ⟨a, ha, rfl⟩ := List.mem_map.1 hy
      exact hk l hl a ha
    have hsub : ((l.take n).map key).Sublist (ls.flatten.map key) :=
      ((List.take_sublist n l).trans (List.sublist_flatten_of_mem hl)).map key
    have hle := hsub.count_le k
    rw [htake, List.count_replicate_self] at hle
    omega
  · obtain ⟨a, ha, hkey⟩ := List.mem_map.1 (hperm.subset (List.getElem_mem hlt))
    obtain ⟨l, hl, hal⟩ := List.mem_flatten.1 ha
    refine hne (hkey ▸ hk l hl a ?_)
    rwa [List.take_of_length_le (le_of_not_ge fun hn => hlong ⟨l, hl, hn⟩)]

theorem le_of_head {k : κ} {ls : List (List α)} (hsorted : ∀ l ∈ ls, Merge.Sorted key l)
    (hhead : ∀ b l, b :: l ∈ ls → k ≤ key b) : ∀ a ∈ ls.flatten, k ≤ key a := by
  intro a ha
  obtain ⟨l, hl, hal⟩ := List.mem_flatten.1 ha
  cases l with
  | nil => simp at hal
  | cons b l =>
    rcases List.mem_cons.1 hal with rfl | hal
    · exact hhead a l hl
    · exact (hhead b l hl).trans ((List.pairwise_cons.1 (hsorted _ hl)).1 a hal)

/-- The keys come in the right order from one list, or if all that can be taken has the same key. -/
theorem Takes.first {n : ℕ} {ls : List (List α)} {out : List α} (h : Takes key n ls out) (hne : ∀ l ∈ ls, l ≠ [])
    (hsorted : ∀ l ∈ ls, Merge.Sorted key l) (hsame : ls.length ≤ 1 ∨ ∃ k, ∀ l ∈ ls, ∀ a ∈ l.take n, key a = k) :
    First n (ls.flatten.map key) (out.map key) := by
  rcases hsame with hone | ⟨k, hk⟩
  · obtain ⟨l, hl, hlist⟩ : ∃ l, ls = putBack l [] ∧ Merge.Sorted key l := by
      match ls, hone with
      | [], _ => exact ⟨[], rfl, .nil⟩
      | [l], _ =>
        obtain ⟨a, l', rfl⟩ := List.exists_cons_of_ne_nil (hne l (by simp))
        exact ⟨a :: l', rfl, hsorted _ (by simp)⟩
    subst hl
    rw [flatten_putBack, takes_single h]
    exact ⟨l.map key, by simp, List.pairwise_map.2 hlist, List.map_take ..⟩
  · have hperm : ((ls.flatten.map key).mergeSort (· ≤ ·)).Perm (ls.flatten.map key) := List.mergeSort_perm ..
    refine ⟨_, hperm, List.pairwise_mergeSort' .., ?_⟩
    have hlength := h.length
    have hout : out.map key = List.replicate (min n ls.flatten.length) k := by
      refine List.eq_replicate_iff.2 ⟨by rw [List.length_map, hlength], ?_⟩
      intro x hx
      obtain ⟨a, ha, rfl⟩ := List.mem_map.1 hx
      obtain ⟨l, hl, hal⟩ := h.mem ha
      exact hk l hl a hal
    have htake : ∀ x ∈ ((ls.flatten.map key).mergeSort (· ≤ ·)).take n, x = k := by
      rcases Nat.eq_zero_or_pos n with rfl | hpos
      · simp
      refine take_sorted_eq hperm (List.pairwise_mergeSort' ..) ?_ hk
      intro x hx
      obtain ⟨a, ha, rfl⟩ := List.mem_map.1 (hperm.subset hx)
      refine le_of_head hsorted ?_ a ha
      intro b l hbl
      refine (hk _ hbl b ?_).ge
      obtain ⟨m, rfl⟩ := Nat.exists_eq_succ_of_ne_zero hpos.ne'
      simp
    rw [hout, eq_comm, List.eq_replicate_iff]
    exact ⟨by rw [List.length_take, hperm.length_eq, List.length_map], htake⟩

theorem exists_first_of_mem_take {p : α → Prop} {n : ℕ} {l : List α} {x : α} (hx : x ∈ l.take n) (hp : ¬p x) :
    ∃ front y back, l = front ++ y :: back ∧ (∀ b ∈ front, p b) ∧ ¬p y ∧ front.length < n := by
  induction l generalizing n with
  | nil => simp at hx
  | cons a l ih =>
    cases n with
    | zero => simp at hx
    | succ n =>
      by_cases ha : p a
      · rw [List.take_succ_cons, List.mem_cons] at hx
        obtain ⟨front, y, back, rfl, hfront, hy, hlt⟩ := ih (hx.resolve_left (by rintro rfl; exact hp ha))
        refine ⟨a :: front, y, back, rfl, ?_, hy, by simpa using hlt⟩
        intro b hb
        rcases List.mem_cons.1 hb with rfl | hb
        · exact ha
        · exact hfront b hb
      · exact ⟨[], a, l, rfl, by simp, ha, by simp⟩

/-- Otherwise some way to take the elements has the wrong order. -/
theorem same_of_forall_first {n : ℕ} {ls : List (List α)} (hne : ∀ l ∈ ls, l ≠ [])
    (hsorted : ∀ l ∈ ls, Merge.Sorted key l)
    (hfirst : ∀ out, Takes key n ls out → First n (ls.flatten.map key) (out.map key)) :
    ls.length ≤ 1 ∨ ∃ k, ∀ l ∈ ls, ∀ a ∈ l.take n, key a = k := by
  by_cases hlen : ls.length ≤ 1
  · exact .inl hlen
  have hnil : ls ≠ [] := by
    rintro rfl
    simp at hlen
  obtain ⟨a, l, rest, hperm, hmax⟩ := exists_greatest key hnil hne
  refine .inr ⟨key a, ?_⟩
  rcases Nat.eq_zero_or_pos n with rfl | hpos
  · simp
  have hrest : ∀ l' ∈ rest, l' ≠ [] := fun l' h => hne l' (hperm.symm.subset (by simp [h]))
  have hle : ∀ b l', b :: l' ∈ ls → key b ≤ key a := by
    intro b l' hmem
    rcases List.mem_cons.1 (hperm.subset hmem) with heq | hmem
    · cases heq
      exact le_rfl
    · exact hmax b l' hmem
  -- The first one taken has the greatest of the heads, so all heads have its key.
  have hmin : ∀ b ∈ ls.flatten, key a ≤ key b := by
    obtain ⟨m, rfl⟩ := Nat.exists_eq_succ_of_ne_zero hpos.ne'
    obtain ⟨out, hout⟩ := exists_takes key m (putBack_ne_nil (l := l) hrest)
    obtain ⟨sorted, hsortedPerm, hpairwise, htake⟩ := hfirst _ (.take hperm hmax hout)
    cases sorted with
    | nil => simp at htake
    | cons x sorted =>
      rw [List.take_succ_cons, List.map_cons] at htake
      rw [(List.cons.inj htake).1]
      intro b hb
      rcases List.mem_cons.1 (hsortedPerm.symm.subset (List.mem_map_of_mem hb)) with heq | hmem
      · exact heq.ge
      · exact (List.pairwise_cons.1 hpairwise).1 _ hmem
  have hhead : ∀ b l', b :: l' ∈ ls → key b = key a := fun b l' hmem =>
    (hle b l' hmem).antisymm (hmin b (List.mem_flatten.2 ⟨_, hmem, by simp⟩))
  intro l₀ hl₀ x₀ hx₀
  by_contra hne₀
  -- All of `l₀` before its first element with another key is taken, and then this one before another head.
  obtain ⟨front, x, back, hsplit, hfront, hx, hlt⟩ :=
    exists_first_of_mem_take (p := fun b => key b = key a) hx₀ hne₀
  have hsplitMem : x ∈ l₀ := by simp [hsplit]
  have hgreater : key a < key x :=
    lt_of_le_of_ne (hmin x (List.mem_flatten.2 ⟨l₀, hl₀, hsplitMem⟩)) (Ne.symm hx)
  obtain ⟨before, after, rfl⟩ := List.append_of_mem hl₀
  have hothers : (before ++ l₀ :: after).Perm (l₀ :: (before ++ after)) := List.perm_middle
  obtain ⟨m, rfl⟩ := Nat.exists_eq_add_of_lt hlt
  have hne' : ∀ l' ∈ before ++ after, l' ≠ [] := fun l' h => hne l' (hothers.symm.subset (List.mem_cons_of_mem _ h))
  have hothersHead : ∀ b l', b :: l' ∈ before ++ after → key b = key a := fun b l' h =>
    hhead b l' (hothers.symm.subset (List.mem_cons_of_mem _ h))
  obtain ⟨out, hout⟩ := exists_takes key m (putBack_ne_nil (l := back) hne')
  have htakes : Takes key (front.length + m + 1) (before ++ l₀ :: after) (front ++ x :: out) := by
    refine Takes.perm ?_ hothers.symm
    rw [hsplit, Nat.add_assoc]
    refine takes_append hfront (by simp) (fun b l' h => (hothersHead b l' h).le) ?_
    exact .take (.refl _) (fun b l' h => (hothersHead b l' h).le.trans hgreater.le) hout
  obtain ⟨sorted, hsortedPerm, hpairwise, htake⟩ := hfirst _ htakes
  have heq : sorted = front.map key ++ key x :: (out.map key ++ sorted.drop (front.length + m + 1)) := by
    calc sorted = sorted.take (front.length + m + 1) ++ sorted.drop (front.length + m + 1) :=
          (List.take_append_drop ..).symm
      _ = front.map key ++ key x :: (out.map key ++ sorted.drop (front.length + m + 1)) := by
          rw [← htake]
          simp
  have hcount := count_le_of_sorted hpairwise heq hgreater
  have hfrontCount : (front.map key).count (key a) = (front.map key).length := by
    refine List.count_eq_length.2 ?_
    intro y hy
    obtain ⟨b, hb, rfl⟩ := List.mem_map.1 hy
    exact (hfront b hb).symm
  have hother : key a ∈ (before ++ after).flatten.map key := by
    obtain ⟨l', hl'⟩ := List.exists_mem_of_ne_nil (before ++ after) (by
      rintro hnil
      have := hothers.length_eq
      simp only [hnil, List.length_singleton] at this
      omega)
    obtain ⟨b, l', rfl⟩ := List.exists_cons_of_ne_nil (hne' l' hl')
    exact List.mem_map.2 ⟨b, List.mem_flatten.2 ⟨_, hl', by simp⟩, hothersHead b l' hl'⟩
  rw [hsortedPerm.count_eq, (hothers.flatten.map key).count_eq, List.flatten_cons, List.map_append, List.count_append,
    hsplit, List.map_append, List.count_append, hfrontCount] at hcount
  have := List.count_pos_iff.2 hother
  omega

theorem forall_first_iff {n : ℕ} {ls : List (List α)} (hne : ∀ l ∈ ls, l ≠ [])
    (hsorted : ∀ l ∈ ls, Merge.Sorted key l) :
    (∀ out, Takes key n ls out → First n (ls.flatten.map key) (out.map key)) ↔
      ls.length ≤ 1 ∨ ∃ k, ∀ l ∈ ls, ∀ a ∈ l.take n, key a = k :=
  ⟨same_of_forall_first hne hsorted, fun hsame _ h => h.first hne hsorted hsame⟩

end GreatestFirst
