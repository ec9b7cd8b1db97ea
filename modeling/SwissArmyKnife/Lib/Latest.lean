import Mathlib.Data.List.Induction
import Mathlib.Data.List.Nodup
import Mathlib.Tactic.Common

/-!
# Changes by key

What the keys have after a list of changes, each of which puts a value under a key or takes it away.  Tokens that are
given to the values tell whether a key was changed in between (`latest_token_iff`).
-/

namespace Latest

variable {κ α τ : Type*} [DecidableEq κ]

/-- A value that is put under a key, or none. -/
structure Change (κ α : Type*) where
  key : κ
  value : Option α

def Change.apply (c : Change κ α) (found : κ → Option α) (k : κ) : Option α := if k = c.key then c.value else found k

def latest (l : List (Change κ α)) (k : κ) : Option α :=
  l.foldl (fun found c => c.apply found) (fun _ => none) k

theorem latest_concat (l : List (Change κ α)) (c : Change κ α) (k : κ) :
    latest (l ++ [c]) k = if k = c.key then c.value else latest l k := by
  simp [latest, Change.apply]

/-- What a key has is what it had, or a change has put it there. -/
theorem latest_append_cases (l l' : List (Change κ α)) (k : κ) :
    (latest (l ++ l') k = latest l k ∧ ∀ c ∈ l', c.key ≠ k) ∨
    (∃ c ∈ l', c.key = k ∧ latest (l ++ l') k = c.value) := by
  induction l' using List.reverseRecOn with
  | nil => exact .inl ⟨by rw [List.append_nil], nofun⟩
  | append_singleton l' c ih =>
    rw [← List.append_assoc, latest_concat]
    by_cases hk : k = c.key
    · rw [if_pos hk]
      exact .inr ⟨c, by simp, hk.symm, rfl⟩
    · rw [if_neg hk]
      rcases ih with ⟨heq, hnot⟩ | ⟨c', hc', hkey, heq⟩
      · refine .inl ⟨heq, ?_⟩
        intro c' hc'
        rcases List.mem_append.1 hc' with hc' | hc'
        · exact hnot c' hc'
        · rw [List.mem_singleton.1 hc']
          exact Ne.symm hk
      · exact .inr ⟨c', by simp [hc'], hkey, heq⟩

theorem mem_of_latest {l : List (Change κ α)} {k : κ} {a : α} (h : latest l k = some a) :
    ∃ c ∈ l, c.key = k ∧ c.value = some a := by
  rcases latest_append_cases [] l k with ⟨heq, -⟩ | ⟨c, hc, hkey, heq⟩
  · rw [List.nil_append, h] at heq
    cases heq
  · rw [List.nil_append, h] at heq
    exact ⟨c, hc, hkey, heq.symm⟩

/-- The tokens of the values that were put anywhere. -/
def tokens (token : α → τ) (l : List (Change κ α)) : List τ := l.filterMap fun c => c.value.map token

omit [DecidableEq κ] in
theorem mem_tokens {token : α → τ} {l : List (Change κ α)} {c : Change κ α} {a : α} (hc : c ∈ l)
    (ha : c.value = some a) :
    token a ∈ tokens token l := List.mem_filterMap.2 ⟨c, hc, by rw [ha]; rfl⟩

/-- The token is still the same if and only if the key was not changed. -/
theorem latest_token_iff {token : α → τ} {l l' : List (Change κ α)}
    (h : (tokens token (l ++ l')).Nodup) {k : κ} {a : α}
    (ha : latest l k = some a) :
    (∃ b, latest (l ++ l') k = some b ∧ token b = token a) ↔ ∀ c ∈ l', c.key ≠ k := by
  unfold tokens at h
  rw [List.filterMap_append, List.nodup_append] at h
  constructor
  · rintro ⟨b, hb, htoken⟩
    rcases latest_append_cases l l' k with ⟨-, hnot⟩ | ⟨c, hc, -, heq⟩
    · exact hnot
    · obtain ⟨c', hc', -, hvalue⟩ := mem_of_latest ha
      rw [hb] at heq
      exact absurd htoken.symm (h.2.2 _ (mem_tokens hc' hvalue) _ (mem_tokens hc heq.symm))
  · intro hnot
    rcases latest_append_cases l l' k with ⟨heq, -⟩ | ⟨c, hc, hkey, -⟩
    · exact ⟨a, heq.trans ha, rfl⟩
    · exact absurd hkey (hnot c hc)

end Latest
