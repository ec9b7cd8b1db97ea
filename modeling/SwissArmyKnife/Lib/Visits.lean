import Mathlib.Data.Finset.Card

/-!
# Visits

A call goes through a list of keys and clears those that are live.  `look` is what there is under a key, `clear` what
is left of it.  When visits of one key do not touch the others, every key that was visited is cleared once
(`look_visit`), and the visits that succeed are counted (`count_eq`): those of the live keys, each once, and those
that found nothing where this is a success, too.
-/

namespace Visits

variable {σ κ ν : Type*} [DecidableEq κ] (del : σ → κ → σ × Bool) (look : σ → κ → ν) (live missing : ν → Bool)
  (clear : ν → ν)

def visit (s : σ) (keys : List κ) : σ := keys.foldl (fun s k => (del s k).1) s

/-- The number of visits that succeed. -/
def count : σ → List κ → ℕ
  | _, [] => 0
  | s, k :: keys => (del s k).2.toNat + count (del s k).1 keys

/-- The number of visits that find nothing. -/
def misses : σ → List κ → ℕ
  | _, [] => 0
  | s, k :: keys => (missing (look s k)).toNat + misses (del s k).1 keys

/-- A visit of a key clears it when it is live, and does not touch the other keys. -/
structure Clears (keys : List κ) : Prop where
  self : ∀ s, ∀ k ∈ keys, look (del s k).1 k = if live (look s k) then clear (look s k) else look s k
  other : ∀ s, ∀ k ∈ keys, ∀ k' ∈ keys, k' ≠ k → look (del s k).1 k' = look s k'

variable {del look live missing clear} {keys : List κ}

omit [DecidableEq κ] in
/-- A visit that does something to a live key and nothing else. -/
theorem clears_of_ite {f : σ → κ → σ} (hdel : ∀ s k, (del s k).1 = if live (look s k) then f s k else s)
    (hself : ∀ s, ∀ k ∈ keys, look (f s k) k = clear (look s k))
    (hother : ∀ s, ∀ k ∈ keys, ∀ k' ∈ keys, k' ≠ k → look (f s k) k' = look s k') :
    Clears del look live clear keys := by
  constructor
  · intro s k hk
    rw [hdel]
    split
    · exact hself s k hk
    · rfl
  · intro s k hk k' hk' hne
    rw [hdel]
    split
    · exact hother s k hk k' hk' hne
    · rfl

theorem Clears.look_del (h : Clears del look live clear keys) (s : σ) {k k' : κ} (hk : k ∈ keys) (hk' : k' ∈ keys) :
    look (del s k).1 k' = if k' = k ∧ live (look s k') then clear (look s k') else look s k' := by
  by_cases hkey : k' = k
  · subst hkey
    simpa using h.self s k' hk
  · rw [if_neg fun hand => hkey hand.1]
    exact h.other s k hk k' hk' hkey

/-- A key that was visited is cleared, if it was live, and stays so. -/
theorem Clears.look_visit_of_subset (h : Clears del look live clear keys) {s : σ} {l : List κ}
    (hl : ∀ k ∈ l, k ∈ keys)
    {k : κ} (hk : k ∈ keys) (hclear : live (look s k) → live (clear (look s k)) = false) :
    look (visit del s l) k = if k ∈ l ∧ live (look s k) then clear (look s k) else look s k := by
  induction l generalizing s with
  | nil => simp [visit]
  | cons k' l ih =>
    have hlook := h.look_del s (hl k' (List.mem_cons_self ..)) hk
    have hstep : look (visit del s (k' :: l)) k = look (visit del (del s k').1 l) k := rfl
    rw [hstep]
    have hl' : ∀ k ∈ l, k ∈ keys := fun k hk => hl k (List.mem_cons_of_mem _ hk)
    by_cases hcleared : k = k' ∧ live (look s k) = true
    · rw [if_pos hcleared] at hlook
      have hdead := hclear hcleared.2
      rw [ih hl' (by rw [hlook, hdead]; simp), hlook, hdead, if_neg (by simp),
        if_pos ⟨hcleared.1 ▸ List.mem_cons_self .., hcleared.2⟩]
    · rw [if_neg hcleared] at hlook
      rw [ih hl' (by rwa [hlook]), hlook]
      by_cases hlive : live (look s k) = true
      · have hne : k ≠ k' := fun heq => hcleared ⟨heq, hlive⟩
        simp [hlive, hne]
      · simp [hlive]

theorem Clears.look_visit (h : Clears del look live clear keys) {s : σ} {k : κ} (hk : k ∈ keys)
    (hclear : live (look s k) → live (clear (look s k)) = false) :
    look (visit del s keys) k = if live (look s k) then clear (look s k) else look s k := by
  rw [h.look_visit_of_subset (fun _ => id) hk hclear]
  simp [hk]

/-- No key that was visited is live. -/
theorem Clears.dead_visit (h : Clears del look live clear keys) {s : σ} {k : κ} (hk : k ∈ keys)
    (hclear : live (look s k) → live (clear (look s k)) = false) : live (look (visit del s keys) k) = false := by
  rw [h.look_visit hk hclear]
  split
  · rename_i hlive
    exact hclear hlive
  · simpa using ‹¬ live (look s k) = true›

section Count

/-- The live keys, each once. -/
def liveKeys (look : σ → κ → ν) (live : ν → Bool) (s : σ) (keys : List κ) : Finset κ :=
  keys.toFinset.filter fun k => live (look s k) = true

private theorem liveKeys_del (h : Clears del look live clear keys) {s : σ}
    (hclear : ∀ k ∈ keys, live (look s k) → live (clear (look s k)) = false) {l : List κ}
    (hl : ∀ k ∈ l, k ∈ keys) {k : κ}
    (hk : k ∈ keys) : liveKeys look live (del s k).1 l = (liveKeys look live s l).erase k := by
  ext k'
  simp only [liveKeys, Finset.mem_filter, List.mem_toFinset, Finset.mem_erase]
  constructor
  · rintro ⟨hmem, hlive⟩
    rw [h.look_del s hk (hl k' hmem)] at hlive
    by_cases hkey : k' = k ∧ live (look s k') = true
    · rw [if_pos hkey, hclear k' (hl k' hmem) hkey.2] at hlive
      cases hlive
    · rw [if_neg hkey] at hlive
      exact ⟨fun heq => hkey ⟨heq, hlive⟩, hmem, hlive⟩
  · rintro ⟨hne, hmem, hlive⟩
    refine ⟨hmem, ?_⟩
    rwa [h.look_del s hk (hl k' hmem), if_neg fun hand => hne hand.1]

private theorem liveKeys_cons (s : σ) (k : κ) (l : List κ) :
    (liveKeys look live s (k :: l)).card = (live (look s k)).toNat + ((liveKeys look live s l).erase k).card := by
  cases hlive : live (look s k) with
  | true =>
    have hcons : liveKeys look live s (k :: l) = insert k ((liveKeys look live s l).erase k) := by
      ext k'
      by_cases hkey : k' = k
      · simp [liveKeys, hkey, hlive]
      · simp [liveKeys, hkey]
    rw [hcons, Finset.card_insert_of_notMem (Finset.notMem_erase k _)]
    simp [Nat.add_comm]
  | false =>
    have hcons : liveKeys look live s (k :: l) = (liveKeys look live s l).erase k := by
      ext k'
      by_cases hkey : k' = k
      · simp [liveKeys, hkey, hlive]
      · simp [liveKeys, hkey]
    rw [hcons]
    simp

/-- The visits that succeed are those of the live keys and those that find nothing. -/
theorem Clears.count_eq (h : Clears del look live clear keys) (missing : ν → Bool) (s : σ)
    (hclear : ∀ k ∈ keys, live (look s k) → live (clear (look s k)) = false)
    (hok : ∀ s, ∀ k ∈ keys, (del s k).2.toNat = (live (look s k)).toNat + (missing (look s k)).toNat) :
    count del s keys = (liveKeys look live s keys).card + misses del look missing s keys := by
  suffices hcount : ∀ l, (∀ k ∈ l, k ∈ keys) →
      count del s l = (liveKeys look live s l).card + misses del look missing s l from hcount keys fun _ => id
  intro l hl
  induction l generalizing s with
  | nil => rfl
  | cons k l ih =>
    have hk := hl k (List.mem_cons_self ..)
    have hl' : ∀ k ∈ l, k ∈ keys := fun k hk => hl k (List.mem_cons_of_mem _ hk)
    have hclear' : ∀ k' ∈ keys, live (look (del s k).1 k') → live (clear (look (del s k).1 k')) = false := by
      intro k' hk' hlive
      rw [h.look_del s hk hk'] at hlive ⊢
      split at hlive
      · rename_i hcleared
        rw [hclear k' hk' hcleared.2] at hlive
        cases hlive
      · rename_i hkept
        rw [if_neg hkept]
        exact hclear k' hk' hlive
    rw [count, misses, liveKeys_cons, hok s k hk, ih (del s k).1 hclear' hl', liveKeys_del h hclear hl' hk]
    omega

omit [DecidableEq κ] in
theorem misses_eq_zero_of_false (h : ∀ x, missing x = false) (s : σ) (keys : List κ) :
    misses del look missing s keys = 0 := by
  induction keys generalizing s with
  | nil => rfl
  | cons k keys ih => simp [misses, h, ih]

/-- Where only visits of live keys succeed, the live keys are counted. -/
theorem Clears.count_eq_card (h : Clears del look live clear keys) (s : σ)
    (hclear : ∀ k ∈ keys, live (look s k) → live (clear (look s k)) = false)
    (hok : ∀ s k, (del s k).2 = live (look s k)) : count del s keys = (liveKeys look live s keys).card := by
  rw [h.count_eq (fun _ => false) s hclear fun s k _ => by rw [hok s k]; rfl,
    misses_eq_zero_of_false fun _ => rfl, Nat.add_zero]

/-- No visit finds nothing when there is something under every key and no live key is visited again. -/
theorem Clears.misses_eq_zero_iff (h : Clears del look live clear keys) (s : σ)
    (hgone : ∀ x, missing (clear x) = true) :
    misses del look missing s keys = 0 ↔
      (∀ k ∈ keys, missing (look s k) = false) ∧ (keys.filter fun k => live (look s k)).Nodup := by
  suffices hmisses : ∀ l, (∀ k ∈ l, k ∈ keys) → (misses del look missing s l = 0 ↔
      (∀ k ∈ l, missing (look s k) = false) ∧ (l.filter fun k => live (look s k)).Nodup) from hmisses keys fun _ => id
  intro l hl
  induction l generalizing s with
  | nil => simp [misses]
  | cons k l ih =>
    have hk := hl k (List.mem_cons_self ..)
    have hl' : ∀ k ∈ l, k ∈ keys := fun k hk => hl k (List.mem_cons_of_mem _ hk)
    have hlook : ∀ k' ∈ l, look (del s k).1 k' =
        if k' = k ∧ live (look s k') then clear (look s k') else look s k' :=
          fun k' hk' => h.look_del s hk (hl' k' hk')
    have hsame (hnot : live (look s k) = true → k ∉ l) : ∀ k' ∈ l, look (del s k).1 k' = look s k' := by
      intro k' hk'
      rw [hlook k' hk', if_neg]
      rintro ⟨rfl, hlive⟩
      exact hnot hlive hk'
    rw [misses, Nat.add_eq_zero_iff, ih (del s k).1 hl']
    constructor
    · rintro ⟨hfirst, hrest, hnodup⟩
      -- A live key that is visited again finds nothing then.
      have hnot : live (look s k) = true → k ∉ l := by
        intro hlive hmem
        have := hrest k hmem
        rw [hlook k hmem, if_pos ⟨rfl, hlive⟩, hgone] at this
        cases this
      refine ⟨?_, ?_⟩
      · intro k' hk'
        rcases List.mem_cons.1 hk' with rfl | hk'
        · simpa using hfirst
        · rw [← hsame hnot k' hk']
          exact hrest k' hk'
      · rw [List.filter_congr fun k' hk' => by rw [hsame hnot k' hk']] at hnodup
        rw [List.filter_cons]
        split
        · rename_i hlive
          exact List.nodup_cons.2 ⟨fun hmem => hnot hlive (List.mem_filter.1 hmem).1, hnodup⟩
        · exact hnodup
    · rintro ⟨hall, hnodup⟩
      have hnot : live (look s k) = true → k ∉ l := by
        intro hlive hmem
        rw [List.filter_cons, if_pos hlive] at hnodup
        exact (List.nodup_cons.1 hnodup).1 (List.mem_filter.2 ⟨hmem, hlive⟩)
      refine ⟨by simp [hall k (List.mem_cons_self ..)], ?_, ?_⟩
      · intro k' hk'
        rw [hsame hnot k' hk']
        exact hall k' (List.mem_cons_of_mem _ hk')
      · rw [List.filter_congr fun k' hk' => by rw [hsame hnot k' hk']]
        rw [List.filter_cons] at hnodup
        split at hnodup
        · exact (List.nodup_cons.1 hnodup).2
        · exact hnodup

end Count

end Visits
