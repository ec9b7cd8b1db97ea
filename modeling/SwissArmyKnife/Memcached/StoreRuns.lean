import SwissArmyKnife.Lib.Latest
import SwissArmyKnife.Lib.Transition
import SwissArmyKnife.Memcached.Store
import Mathlib.Data.List.Range
import Mathlib.Tactic.Linarith
import Mathlib.Tactic.NormNum

/-!
# Runs of the store

The threads call `storeItem`, `getItem` and `deleteItem`, each under the mutex of its shard, so that a run is a list
of calls.  In a run in which no value gets too long, every call answers by what the keys have after the calls before
it (`run_answers`).
-/

namespace Memcached

open Ascii (crlf)
open Transition (Outcome Meets run)

/-- A call that has returned, with its answer and the item that it has stored. -/
inductive Event where
  | store (item : ConstItem) (policy : UpdatePolicy) (stored : Option ConstItem) (exist : Bool)
  | get (key : Bytes) (found : Option ConstItem)
  | delete (key : Bytes) (deleted : Bool)

inductive Call where
  | store (item : ConstItem) (policy : { policy : UpdatePolicy // policy ≠ .invalid })
  | get (key : Bytes)
  | delete (key : Bytes)

structure State where
  server : MemcacheServer
  history : List Event

/-- An empty store; the counter has any value. -/
def State.init (cas : UInt64) : State := ⟨⟨cas, fun _ => []⟩, []⟩

def step (hash : Bytes → ℕ) (s : State) : Call → Outcome State
  | .store item policy =>
    match s.server.storeItem hash item policy with
    | some (server, stored, exist) => .next ⟨server, s.history ++ [.store item policy stored exist]⟩
    | none => .aborted
  | .get key => .next ⟨s.server, s.history ++ [.get key (s.server.getItem hash key)]⟩
  | .delete key =>
    let r := s.server.deleteItem hash key
    .next ⟨r.1, s.history ++ [.delete key r.2]⟩

/-! ### What the calls have to answer -/

/-- The change that a call makes. -/
def Event.change : Event → Option (Latest.Change Bytes ConstItem)
  | .store _ _ (some new) _ => some ⟨new.key, some new⟩
  | .delete key true => some ⟨key, none⟩
  | _ => none

def changes (history : List Event) : List (Latest.Change Bytes ConstItem) := history.filterMap Event.change

/-- What a key has after the calls. -/
def contents (history : List Event) (key : Bytes) : Option ConstItem := Latest.latest (changes history) key

/-- The cas values that have been given. -/
def casValues (history : List Event) : List UInt64 :=
  Latest.tokens (fun item : ConstItem => item.1.cas) (changes history)

/-- The answer is the one of a map, and an item that is stored has a cas value of its own. -/
def Event.Right (before : List Event) : Event → Prop
  | .store item policy stored exist =>
    (stored.isSome ↔ Allowed (contents before item.key) item policy) ∧ exist = (contents before item.key).isSome ∧
      ∀ new, stored = some new → new.1 = updated (contents before item.key) item.1 policy new.1.cas ∧
        new.1.cas ∉ casValues before
  | .get key found => found = contents before key
  | .delete key deleted => deleted = (contents before key).isSome

structure State.Exact (s : State) : Prop where
  unique : s.server.Unique
  right : ∀ before e after, s.history = before ++ e :: after → e.Right before
  cas : ∀ before key found between item stored exist after,
    s.history = before ++ .get key (some found) :: (between ++ .store item .cas stored exist :: after) →
    item.key = key → item.1.cas = found.1.cas →
    (stored.isSome ↔ (contents (before ++ .get key (some found) :: between) key).isSome ∧
      ∀ e ∈ between, ∀ c, e.change = some c → c.key ≠ key)

/-! ### The runs -/

theorem changes_concat (history : List Event) (e : Event) :
    changes (history ++ [e]) = changes history ++ e.change.toList := by
  unfold changes
  rw [List.filterMap_append]
  cases h : e.change <;> simp [h]

theorem contents_of_change {history : List Event} {e : Event}
    {c : Latest.Change Bytes ConstItem} (h : e.change = some c)
    (key : Bytes) : contents (history ++ [e]) key = if key = c.key then c.value else contents history key := by
  unfold contents
  rw [changes_concat, h]
  exact Latest.latest_concat ..

theorem contents_of_same {history : List Event} {e : Event} (h : e.change = none) (key : Bytes) :
    contents (history ++ [e]) key = contents history key := by
  unfold contents
  rw [changes_concat, h, Option.toList_none, List.append_nil]

theorem casValues_concat (history : List Event) (e : Event) :
    casValues (history ++ [e]) = casValues history ++
      Latest.tokens (fun item : ConstItem => item.1.cas) e.change.toList := by
  unfold casValues
  rw [changes_concat, Latest.tokens, List.filterMap_append]
  rfl

/-- The counter takes no value twice before it has taken all. -/
private theorem add_ofNat_inj {c : UInt64} {i j : ℕ} (hi : i < 2 ^ 64) (hj : j < 2 ^ 64)
    (h : c + UInt64.ofNat i = c + UInt64.ofNat j) : i = j := by
  rw [UInt64.add_comm c, UInt64.add_comm c] at h
  have hsub := congrArg (fun x => x - c) h
  simp only [UInt64.add_sub_cancel] at hsub
  have hnat := congrArg UInt64.toNat hsub
  rwa [UInt64.toNat_ofNat_of_lt' hi, UInt64.toNat_ofNat_of_lt' hj] at hnat

/-- The values that a counter takes from `c` on. -/
def counted (c : UInt64) (n : ℕ) : List UInt64 := (List.range n).map fun i => c + UInt64.ofNat i

private theorem not_mem_counted {c : UInt64} {n : ℕ} (h : n < 2 ^ 64) : c + UInt64.ofNat n ∉ counted c n := by
  intro hmem
  obtain ⟨i, hi, heq⟩ := List.mem_map.1 hmem
  rw [List.mem_range] at hi
  have := add_ofNat_inj (by omega) h heq
  omega

private theorem nodup_counted (c : UInt64) {n : ℕ} (h : n ≤ 2 ^ 64) : (counted c n).Nodup := by
  refine List.Nodup.map_on ?_ List.nodup_range
  intro i hi j hj heq
  rw [List.mem_range] at hi hj
  exact add_ofNat_inj (by omega) (by omega) heq

private theorem counted_succ (c : UInt64) (n : ℕ) : counted c (n + 1) = counted c n ++ [c + UInt64.ofNat n] := by
  unfold counted
  rw [List.range_succ, List.map_append]
  rfl

/-- The shards have what the calls have put there, under the next values of the counter. -/
structure State.Inv (hash : Bytes → ℕ) (cas : UInt64) (s : State) : Prop where
  unique : s.server.Unique
  contents : ∀ key, s.server.getItem hash key = contents s.history key
  casValues : casValues s.history = counted cas (casValues s.history).length
  cas : s.server.cas = cas + UInt64.ofNat (Memcached.casValues s.history).length
  bound : (Memcached.casValues s.history).length ≤ 2 ^ 64
  right : ∀ before e after, s.history = before ++ e :: after → e.Right before

/-- A value that is stored fits into an item, and there is a cas value that was not given yet. -/
def Sane (s : State) : Call → Prop
  | .store item policy => Fits (contents s.history item.key) item policy ∧ (casValues s.history).length < 2 ^ 64
  | _ => True

instance (s : State) (call : Call) : Decidable (Sane s call) := by
  cases call <;> unfold Sane <;> infer_instance

namespace State

variable {hash : Bytes → ℕ} {cas : UInt64} {s s' : State}

theorem Inv.init (hash : Bytes → ℕ) (cas : UInt64) : (State.init cas).Inv hash cas where
  unique _ := List.nodup_nil
  contents _ := rfl
  casValues := rfl
  cas := (UInt64.add_zero cas).symm
  bound := Nat.zero_le _
  right before e after h := by simp [State.init] at h

/-- The events before the last one are right, and so is the last one. -/
private theorem right_concat {history : List Event} {e : Event}
    (h : ∀ before e after, history = before ++ e :: after → e.Right before) (he : e.Right history) :
    ∀ before e' after, history ++ [e] = before ++ e' :: after → e'.Right before := by
  intro before e' after heq
  rcases List.eq_nil_or_concat after with rfl | ⟨after, e'', rfl⟩
  · obtain ⟨rfl, he'⟩ := List.append_inj' heq rfl
    cases he'
    exact he
  · rw [List.concat_eq_append, ← List.cons_append, ← List.append_assoc] at heq
    exact h before e' after (List.append_inj' heq rfl).1

/-- A call that changes nothing. -/
private theorem Inv.same (h : s.Inv hash cas) {server : MemcacheServer} {e : Event} (hunique : server.Unique)
    (hget : ∀ key, server.getItem hash key = s.server.getItem hash key) (hcounter : server.cas = s.server.cas)
    (he : e.Right s.history) (hsame : e.change = none) : (⟨server, s.history ++ [e]⟩ : State).Inv hash cas := by
  have hcas : Memcached.casValues (s.history ++ [e]) = Memcached.casValues s.history := by
    rw [casValues_concat, hsame]
    exact List.append_nil _
  refine ⟨hunique, ?_, ?_, ?_, ?_, right_concat h.right he⟩
  · intro key
    rw [contents_of_same hsame, hget]
    exact h.contents key
  · rw [hcas]
    exact h.casValues
  · rw [hcas, hcounter]
    exact h.cas
  · rw [hcas]
    exact h.bound

private theorem Inv.stored (h : s.Inv hash cas) {item new : ConstItem} {policy : UpdatePolicy} {exist : Bool}
    (he : (Event.store item policy (some new) exist).Right s.history) (hcas : new.1.cas = s.server.cas)
    (hbound : (Memcached.casValues s.history).length < 2 ^ 64) :
    (⟨s.server.replaceItem hash new, s.history ++ [.store item policy (some new) exist]⟩ : State).Inv hash cas := by
  have hchange : (Event.store item policy (some new) exist).change = some ⟨new.key, some new⟩ := rfl
  have hvalues : Memcached.casValues (s.history ++ [.store item policy (some new) exist]) =
      Memcached.casValues s.history ++ [cas + UInt64.ofNat (Memcached.casValues s.history).length] := by
    rw [casValues_concat, hchange, ← h.cas, ← hcas]
    rfl
  have hlength : (Memcached.casValues (s.history ++ [.store item policy (some new) exist])).length =
      (Memcached.casValues s.history).length + 1 := by
    rw [hvalues, List.length_append, List.length_singleton]
  refine ⟨h.unique.replaceItem new, ?_, ?_, ?_, by rw [hlength]; omega, right_concat h.right he⟩
  · intro key
    rw [contents_of_change hchange, MemcacheServer.getItem_replaceItem h.unique, h.contents]
  · rw [hlength, counted_succ, ← h.casValues, hvalues]
  · rw [hlength, UInt64.ofNat_add, ← UInt64.add_assoc, ← h.cas]
    rfl

private theorem Inv.deleted (h : s.Inv hash cas) (key : Bytes) :
    (⟨(s.server.deleteItem hash key).1, s.history ++ [.delete key (s.server.deleteItem hash key).2]⟩ : State).Inv hash
      cas := by
  have hdeleted : (s.server.deleteItem hash key).2 = (Memcached.contents s.history key).isSome := by
    rw [← h.contents]
    rfl
  cases hkey : Memcached.contents s.history key with
  | none =>
    rw [hkey] at hdeleted
    rw [hdeleted]
    refine h.same (h.unique.deleteItem key) ?_ rfl (by rw [Event.Right, hkey]) rfl
    intro key'
    rw [MemcacheServer.getItem_deleteItem h.unique]
    split_ifs with heq
    · rw [heq, h.contents, hkey]
    · rfl
  | some item =>
    rw [hkey] at hdeleted
    rw [hdeleted]
    have hchange : (Event.delete key true).change = some ⟨key, none⟩ := rfl
    have hcas : Memcached.casValues (s.history ++ [.delete key true]) = Memcached.casValues s.history := by
      rw [casValues_concat, hchange]
      exact List.append_nil _
    refine ⟨h.unique.deleteItem key, ?_, ?_, ?_, ?_, right_concat h.right (by rw [Event.Right, hkey])⟩
    · intro key'
      rw [Option.isSome_some, contents_of_change hchange, MemcacheServer.getItem_deleteItem h.unique, h.contents]
    · rw [Option.isSome_some, hcas]
      exact h.casValues
    · rw [Option.isSome_some, hcas]
      exact h.cas
    · rw [Option.isSome_some, hcas]
      exact h.bound

/-- An item that is stored, or not, as the policy wants it. -/
private theorem Inv.storeItem (h : s.Inv hash cas) {item : ConstItem} {policy : UpdatePolicy}
    (hpolicy : policy ≠ .invalid)
    (hsane : Fits (Memcached.contents s.history item.key) item policy)
    (hbound : (Memcached.casValues s.history).length < 2 ^ 64) :
    ∃ r, s.server.storeItem hash item policy = some r ∧
      (⟨r.1, s.history ++ [.store item policy r.2.1 r.2.2]⟩ : State).Inv hash cas := by
  rw [← h.contents] at hsane
  obtain ⟨stored, heq, hallowed, hupdated⟩ := MemcacheServer.storeItem_eq hpolicy hsane
  refine ⟨_, heq, ?_⟩
  dsimp only
  rw [h.contents] at hallowed hupdated ⊢
  cases stored with
  | none => exact h.same h.unique (fun _ => rfl) rfl ⟨hallowed, rfl, by simp⟩ rfl
  | some new =>
    have hnew := hupdated new rfl
    have hcas : new.1.cas = s.server.cas := by
      rw [hnew]
      unfold updated
      split <;> rfl
    refine h.stored ⟨hallowed, rfl, ?_⟩ hcas hbound
    rintro _ ⟨⟩
    rw [hcas]
    refine ⟨hnew, ?_⟩
    rw [h.cas, h.casValues]
    have hlength : (counted cas (Memcached.casValues s.history).length).length =
        (Memcached.casValues s.history).length := by
      unfold counted
      rw [List.length_map, List.length_range]
    rw [hlength]
    exact not_mem_counted hbound

theorem Inv.step (h : s.Inv hash cas) {call : Call} (hsane : Sane s call)
    (hstep : Memcached.step hash s call = .next s') :
    s'.Inv hash cas := by
  cases call with
  | store item policy =>
    obtain ⟨r, heq, hinv⟩ := h.storeItem policy.2 hsane.1 hsane.2
    simp only [Memcached.step, heq] at hstep
    cases hstep
    exact hinv
  | get key =>
    cases hstep
    exact h.same h.unique (fun _ => rfl) rfl (h.contents key) rfl
  | delete key =>
    cases hstep
    exact h.deleted key

theorem Inv.not_aborted (h : s.Inv hash cas) {call : Call} (hsane : Sane s call) :
    Memcached.step hash s call ≠ .aborted := by
  cases call with
  | store item policy =>
    obtain ⟨r, heq, -⟩ := h.storeItem policy.2 hsane.1 hsane.2
    simp [Memcached.step, heq]
  | get key => simp [Memcached.step]
  | delete key => simp [Memcached.step]

/-- A token is current until its key is changed. -/
private theorem Inv.casSafe (h : s.Inv hash cas) {before between after : List Event} {key : Bytes}
    {found item : ConstItem}
    {stored : Option ConstItem} {exist : Bool}
    (hhistory : s.history = before ++ .get key (some found) :: (between ++ .store item .cas stored exist :: after))
    (hkey : item.key = key) (hcas : item.1.cas = found.1.cas) :
    stored.isSome ↔ (Memcached.contents (before ++ .get key (some found) :: between) key).isSome ∧
      ∀ e ∈ between, ∀ c, e.change = some c → c.key ≠ key := by
  have hget : some found = Memcached.contents before key := h.right _ _ _ hhistory
  have hsplit : s.history = (before ++ .get key (some found) :: between) ++
      .store item .cas stored exist :: after := by
    rw [hhistory, List.append_assoc, List.cons_append]
  have hstore := (h.right _ _ _ hsplit).1
  rw [hkey] at hstore
  have hchanges : changes (before ++ .get key (some found) :: between) = changes before ++ changes between := by
    unfold changes
    rw [List.filterMap_append]
    rfl
  -- the values given before the call are different from each other
  have hnodup : (Latest.tokens (fun item : ConstItem => item.1.cas) (changes before ++ changes between)).Nodup := by
    have hall : (Memcached.casValues s.history).Nodup := by
      rw [h.casValues]
      exact nodup_counted cas h.bound
    rw [hsplit] at hall
    unfold Memcached.casValues at hall
    rw [changes, List.filterMap_append, ← changes, hchanges, Latest.tokens, List.filterMap_append] at hall
    exact (List.nodup_append.1 hall).1
  have hiff := Latest.latest_token_iff hnodup hget.symm
  have hbetween : (∀ c ∈ changes between, c.key ≠ key) ↔ ∀ e ∈ between, ∀ c, e.change = some c → c.key ≠ key := by
    constructor
    · intro hall e he c hc
      exact hall c (List.mem_filterMap.2 ⟨e, he, hc⟩)
    · intro hall c hc
      obtain ⟨e, he, hec⟩ := List.mem_filterMap.1 hc
      exact hall e he c hec
  rw [hstore, ← hbetween, ← hiff]
  unfold Memcached.contents Allowed
  rw [hchanges, hcas]
  constructor
  · rintro ⟨found', hfound', heq⟩
    exact ⟨by rw [hfound']; rfl, found', hfound', heq⟩
  · rintro ⟨-, hcurrent⟩
    exact hcurrent

theorem Inv.exact (h : s.Inv hash cas) : s.Exact where
  unique := h.unique
  right := h.right
  cas _ _ _ _ _ _ _ _ hhistory hkey hcas := h.casSafe hhistory hkey hcas

end State

/-- No assertion fails, and every call answers as it has to. -/
theorem run_answers (hash : Bytes → ℕ) (cas : UInt64) {calls : List Call}
    (hmeets : Meets (step hash) Sane (.init cas) calls) :
    run (step hash) (.init cas) calls ≠ .aborted ∧
      ∀ s, run (step hash) (.init cas) calls = .next s → s.Exact := by
  constructor
  · refine @Transition.run_safe _ _ _ _ (fun _ s => s.Inv hash cas) _ (State.Inv.init hash cas) ?_ ?_ _ hmeets
    · intro _ s call s' hinv hsane hstep
      exact hinv.step hsane hstep
    · intro _ s call hinv hsane
      exact hinv.not_aborted hsane
  · intro s hrun
    refine State.Inv.exact
      (@Transition.run_invariant _ _ _ _ (fun _ s => s.Inv hash cas) _ (State.Inv.init hash cas) ?_ _
      hmeets _ hrun)
    intro _ s call s' hinv hsane hstep
    exact hinv.step hsane hstep

/-- An item with the given value. -/
def itemOf (key body : Bytes) (cas : UInt64) (h : key.length + body.length + 2 < 2 ^ 31) : ConstItem :=
  ⟨⟨key, 0, 0, body.length + 2, body ++ crlf, cas⟩, by
    refine ⟨by dsimp only; omega, by dsimp only; omega, by simp [crlf], ?_⟩
    simp [crlf]⟩

/-- A value is set, read, appended to, and a `cas` with the token of the read fails. -/
def someCalls : List Call :=
  [.store (itemOf [107] [1, 2] 0 (by decide)) ⟨.set, by decide⟩, .get [107],
    .store (itemOf [107] [3] 0 (by decide)) ⟨.append, by decide⟩, .delete [108],
    .store (itemOf [107] [4] 7 (by decide)) ⟨.cas, by decide⟩]

theorem run_answers_some : ∃ s, run (step fun _ => 0) (.init 7) someCalls = .next s ∧ s.Exact := by
  have hmeets : Meets (step fun _ => 0) Sane (.init 7) someCalls := by decide
  exact ⟨_, rfl, (run_answers (fun _ => 0) 7 hmeets).2 _ rfl⟩

/-- Values are appended until the length does not fit. -/
private theorem run_append_aborted {hash : Bytes → ℕ} {item : ConstItem} {n : ℕ} {s : State} {old : ConstItem}
    (hunique : s.server.Unique) (hold : s.server.getItem hash item.key = some old)
    (hfits : item.key.length + old.1.valueLen + n * (item.1.valueLen - 2) < 2 ^ 31)
    (hlong : 2 ^ 31 ≤ item.key.length + old.1.valueLen + (n + 1) * (item.1.valueLen - 2)) :
    run (step hash) s (List.replicate (n + 1) (.store item ⟨.append, by decide⟩)) = .aborted := by
  induction n generalizing s old with
  | zero =>
    have hkey : old.key = item.key := KeyedSet.key_of_find hold
    have hnone := @MemcacheServer.concatItem_of_long s.server old item .append hkey (by push_cast at hlong; omega)
    simp [run, step, MemcacheServer.storeItem, hold, hnone, Outcome.bind]
  | succ n ih =>
    have hmade := item.2.made
    have hstep : item.key.length + (item.1.valueLen + old.1.valueLen - 2) < 2 ^ 31 := by
      have : 0 ≤ (n : ℤ) * (item.1.valueLen - 2) := Int.mul_nonneg (by omega) (by omega)
      push_cast at hfits
      rw [add_mul, one_mul] at hfits
      omega
    obtain ⟨new, hnew, hupdated⟩ := @MemcacheServer.concatItem_of_fits s.server old item .append (.inl rfl) hstep
    have hkey : new.key = item.key := by
      unfold ConstItem.key
      rw [hupdated]
      rfl
    have hlength : new.1.valueLen = item.1.valueLen + old.1.valueLen - 2 := by
      rw [hupdated]
      rfl
    have hget := @MemcacheServer.getItem_replaceItem hash _ hunique new item.key
    rw [if_pos hkey.symm] at hget
    rw [List.replicate_succ, run]
    simp only [step, MemcacheServer.storeItem, hold, hnew, Option.map_some, Outcome.bind]
    refine ih (hunique.replaceItem new) hget ?_ ?_
    · rw [hlength]
      push_cast at hfits
      linarith
    · rw [hlength]
      push_cast at hlong
      linarith

/-- The first of the values is set. -/
private theorem run_set_append_aborted (hash : Bytes → ℕ) (cas : UInt64) {item : ConstItem} {n : ℕ}
    (hfits : item.key.length + item.1.valueLen + n * (item.1.valueLen - 2) < 2 ^ 31)
    (hlong : 2 ^ 31 ≤ item.key.length + item.1.valueLen + (n + 1) * (item.1.valueLen - 2)) :
    run (step hash) (.init cas) (.store item ⟨.set, by decide⟩ ::
      List.replicate (n + 1) (.store item ⟨.append, by decide⟩)) = .aborted := by
  have hinsert : MemcacheServer.storeItem hash (State.init cas).server item .set =
      some ((State.init cas).server.replaceItem hash (item.setCas cas), some (item.setCas cas), false) := rfl
  have hunique := (State.Inv.init hash cas).unique
  have hget := @MemcacheServer.getItem_replaceItem hash _ hunique (item.setCas cas) item.key
  rw [if_pos (show item.key = (item.setCas cas).key from rfl)] at hget
  rw [run]
  simp only [step, hinsert, Outcome.bind]
  exact run_append_aborted (hunique.replaceItem _) hget hfits hlong

/-- A value of 2 ^ 20 bytes under the key `k`. -/
def mebiItem : ConstItem :=
  itemOf [107] (List.replicate (2 ^ 20) 120) 0 (by rw [List.length_replicate]; decide)

/-- The value is set and then appended 2047 times. -/
theorem not_exact_append : run (step fun _ => 0) (.init 0)
    (.store mebiItem ⟨.set, by decide⟩ :: List.replicate 2047 (.store mebiItem ⟨.append, by decide⟩)) = .aborted := by
  have hkey : mebiItem.key.length = 1 := rfl
  have hlength : mebiItem.1.valueLen = 2 ^ 20 + 2 := by
    unfold mebiItem itemOf
    dsimp only
    rw [List.length_replicate]
    norm_num
  refine @run_set_append_aborted (fun _ => 0) 0 mebiItem 2046 ?_ ?_
  · rw [hlength, hkey]
    norm_num
  · rw [hlength, hkey]
    norm_num

end Memcached
