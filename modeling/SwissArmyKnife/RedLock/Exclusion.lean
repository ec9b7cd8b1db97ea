import SwissArmyKnife.RedLock.RedLock
import Mathlib.Data.Finset.Card
import Mathlib.Data.Fintype.Card
import Mathlib.Algebra.Order.Field.Basic
import Mathlib.Tactic.NormNum
import Mathlib.Tactic.Positivity

/-!
# Mutual exclusion

What a call has been granted stays until it expires or the call unlocks it.  So two calls do not have the lock at
once, in the runs in which an attempt is followed by another one of the call only when no instance granted it
(`run_excludes`).
-/

namespace RedLock

open Transition (Meets run)

variable {N : ℕ} {R V : Type*}

/-! ### The validity time -/

theorem roundEven_nonneg {x : ℚ} (h : 0 ≤ x) : 0 ≤ roundEven x := by
  have hfloor := Int.floor_nonneg.2 h
  unfold roundEven
  dsimp only
  split_ifs <;> omega

theorem toFloat_nonneg {x : ℚ} (h : 0 ≤ x) : 0 ≤ toFloat x := by
  unfold toFloat
  split_ifs
  · exact le_refl 0
  · have hunit : (0 : ℚ) ≤ 2 ^ (Int.log 2 |x| - 23) := zpow_nonneg (by norm_num) _
    have hround : 0 ≤ roundEven (x / 2 ^ (Int.log 2 |x| - 23)) := roundEven_nonneg (div_nonneg h hunit)
    exact mul_nonneg (by exact_mod_cast hround) hunit

theorem drift_nonneg {ttl : Int32} (h : 0 < ttl.toInt) : 0 ≤ drift ttl := by
  have hfactor : 0 ≤ clockDriftFactor := toFloat_nonneg (by norm_num)
  have httl : 0 ≤ toFloat (ttl.toInt : ℚ) := toFloat_nonneg (by exact_mod_cast h.le)
  have hproduct : 0 ≤ toFloat (toFloat ttl.toInt * clockDriftFactor) := toFloat_nonneg (by positivity)
  have hsum : 0 ≤ toFloat (toFloat (toFloat ttl.toInt * clockDriftFactor) + 2) := toFloat_nonneg (by positivity)
  rw [drift, truncate, if_pos hsum]
  exact Int.floor_nonneg.2 hsum

/-! ### What an instance keeps -/

namespace State

variable (s : State N R V)

theorem get_of_live {server : Fin N} {resource : R} {e : Entry V} (he : s.store server resource = some e)
    (hlive : s.now < e.expires) : s.get server resource = some e.value := by
  rw [get, he]
  exact if_pos hlive

section Store

variable [DecidableEq R]

/-- A value is set where there is none. -/
theorem store_setNX {server server' : Fin N} {resource resource' : R} {value : V} {ttl : Int32} {e : Entry V}
    (he : s.store server' resource' = some e) (hlive : s.now < e.expires) :
    (s.setNX server resource value ttl).1.store server' resource' = some e := by
  unfold setNX
  split_ifs with hset
  · have hne : ¬ (server' = server ∧ resource' = resource) := by
      rintro ⟨rfl, rfl⟩
      rw [s.get_of_live he hlive] at hset
      cases hset.2
    dsimp only
    rw [Function.update_apply]
    split_ifs with hserver
    · rw [Function.update_apply, if_neg fun hresource => hne ⟨hserver, hresource⟩, ← hserver, he]
    · exact he
  · exact he

@[simp] theorem now_setNX (server : Fin N) (resource : R) (value : V) (ttl : Int32) :
    (s.setNX server resource value ttl).1.now = s.now := by
  unfold setNX
  split_ifs <;> rfl

@[simp] theorem calls_setNX (server : Fin N) (resource : R) (value : V) (ttl : Int32) :
    (s.setNX server resource value ttl).1.calls = s.calls := by
  unfold setNX
  split_ifs <;> rfl

/-- A grant is an entry that lasts for the time to live. -/
theorem setNX_granted {server : Fin N} {resource : R} {value : V} {ttl : Int32}
    (h : (s.setNX server resource value ttl).2 = true) :
    0 < ttl.toInt ∧ (s.setNX server resource value ttl).1.store server resource =
      some ⟨value, s.now + ttl.toInt⟩ := by
  unfold setNX at h ⊢
  split_ifs at h ⊢ with hset
  exact ⟨hset.1, by simp⟩

variable [DecidableEq V]

/-- A value is deleted by its own. -/
theorem store_unlockScript {server server' : Fin N} {resource resource' : R} {value : V} {e : Entry V}
    (he : s.store server' resource' = some e) (hlive : s.now < e.expires) (hne : e.value ≠ value) :
    (s.unlockScript server resource value).store server' resource' = some e := by
  unfold unlockScript
  split_ifs with hget
  · have hother : ¬ (server' = server ∧ resource' = resource) := by
      rintro ⟨rfl, rfl⟩
      rw [s.get_of_live he hlive] at hget
      exact hne (Option.some.inj hget)
    dsimp only
    rw [Function.update_apply]
    split_ifs with hserver
    · rw [Function.update_apply, if_neg fun hresource => hother ⟨hserver, hresource⟩, ← hserver, he]
    · exact he
  · exact he

@[simp] theorem now_unlockScript (server : Fin N) (resource : R) (value : V) :
    (s.unlockScript server resource value).now = s.now := by
  unfold unlockScript
  split_ifs <;> rfl

@[simp] theorem calls_unlockScript (server : Fin N) (resource : R) (value : V) :
    (s.unlockScript server resource value).calls = s.calls := by
  unfold unlockScript
  split_ifs <;> rfl

end Store

end State

/-! ### The calls -/

/-- The grants of the present attempt last at least as long as if they had been given at its start. -/
def Kept (s : State N R V) (val : V) (call : Call N R) : Prop :=
  ∀ server ∈ call.granted, s.now < call.startTime + call.ttl.toInt →
    ∃ e, s.store server call.resource = some e ∧ e.value = val ∧ call.startTime + call.ttl.toInt ≤ e.expires

/-- What holds of a call in each of its phases. -/
def Good (s : State N R V) (val : V) (call : Call N R) : Prop :=
  match call.phase with
  | .locking left => call.n = call.granted.length ∧ (call.granted ++ left).Nodup ∧ call.startTime ≤ s.now ∧
      (call.granted ≠ [] → 0 < call.ttl.toInt) ∧ Kept s val call
  | .held expires => N / 2 + 1 ≤ call.granted.length ∧ call.granted.Nodup ∧
      expires ≤ call.startTime + call.ttl.toInt ∧ Kept s val call
  | _ => True

def Inv (s : State N R V) : Prop := ∀ val call, s.calls val = some call → Good s val call

variable {s s' : State N R V} {val : V} {call : Call N R}

/-- The entries with the value of a call stay. -/
def Spares (s s' : State N R V) (val : V) : Prop :=
  s.now ≤ s'.now ∧ ∀ server resource e, s.store server resource = some e → e.value = val → s.now < e.expires →
    s'.store server resource = some e

theorem Spares.refl (s : State N R V) (val : V) : Spares s s val := ⟨le_refl _, fun _ _ _ he _ _ => he⟩

theorem Kept.spares (h : Kept s val call) (hspares : Spares s s' val) : Kept s' val call := by
  intro server hserver hnow
  have hbefore : s.now < call.startTime + call.ttl.toInt := by
    have := hspares.1
    omega
  obtain ⟨e, he, hvalue, hexpires⟩ := h server hserver hbefore
  exact ⟨e, hspares.2 server call.resource e he hvalue (by omega), hvalue, hexpires⟩

theorem Good.spares (h : Good s val call) (hspares : Spares s s' val) : Good s' val call := by
  unfold Good at h ⊢
  cases hphase : call.phase with
  | locking left =>
    rw [hphase] at h
    obtain ⟨hn, hnodup, hstart, httl, hkept⟩ := h
    have := hspares.1
    exact ⟨hn, hnodup, by omega, httl, hkept.spares hspares⟩
  | held expires =>
    rw [hphase] at h
    obtain ⟨hmajority, hnodup, hexpires, hkept⟩ := h
    exact ⟨hmajority, hnodup, hexpires, hkept.spares hspares⟩
  | unlocking left => trivial
  | releasing left => trivial
  | returned => trivial

/-- The value is read as it was before it was freed, no attempt takes so long that the validity time does not fit into
32 bits, and no attempt comes after one in which an instance granted the value. -/
def Sane (s : State N R V) : Action N R V → Prop
  | .lockInstance val _ _ _ read => ∀ call, s.calls val = some call → call.freed → read = val
  | .unlockInstance val _ _ read => ∀ call, s.calls val = some call → call.freed → read = val
  | .returnLock val => ∀ call, s.calls val = some call → -2 ^ 31 ≤ validity call.ttl (s.now - call.startTime)
  | .retry val => ∀ call, s.calls val = some call → 1 < call.count → call.n = 0
  | _ => True

instance [DecidableEq V] (s : State N R V) (a : Action N R V) : Decidable (Sane s a) := by
  cases a <;> unfold Sane <;> infer_instance

private theorem value_eq {read : V} (h : call.freed → read = val) : call.value val read = val := by
  unfold Call.value
  split_ifs with hfreed
  · exact h hfreed
  · rfl

/-- An instance grants the value, or it does not. -/
private theorem good_lockInstance {left : List (Fin N)} {server : Fin N} {s₁ : State N R V} {granted : Bool}
    (h : Good s val { call with phase := .locking left }) (hserver : server ∈ left) (hnow : s₁.now = s.now)
    (hspares : Spares s s₁ val)
    (hgranted : granted = true → 0 < call.ttl.toInt ∧
      s₁.store server call.resource = some ⟨val, s.now + call.ttl.toInt⟩) :
    Good s₁ val (if granted then
      { call with phase := .locking (left.erase server), n := call.n + 1, granted := server :: call.granted }
      else { call with phase := .locking (left.erase server) }) := by
  obtain ⟨hn, hnodup, hstart, httl, hkept⟩ := h
  dsimp only at hn hnodup hstart httl
  have hperm := List.perm_cons_erase hserver
  split_ifs with hyes
  · obtain ⟨hpos, hstore⟩ := hgranted hyes
    refine ⟨by simp [hn], ?_, by rw [hnow]; exact hstart, fun _ => hpos, ?_⟩
    · refine (List.Perm.nodup_iff ?_).1 hnodup
      exact (hperm.append_left call.granted).trans List.perm_middle
    · intro server' hserver' hlive
      rcases List.mem_cons.1 hserver' with rfl | hserver'
      · exact ⟨_, hstore, rfl, by dsimp only; omega⟩
      · exact hkept.spares hspares server' hserver' hlive
  · refine ⟨hn, hnodup.sublist ?_, by rw [hnow]; exact hstart, httl, hkept.spares hspares⟩
    exact (List.Sublist.refl _).append (List.erase_sublist ..)

/-- A call without a grant of its present attempt. -/
private theorem good_start (s : State N R V) (val : V) {left : List (Fin N)} (hleft : left.Nodup)
    (hphase : call.phase = .locking left) (hgranted : call.granted = []) (hn : call.n = 0)
    (hstart : call.startTime = s.now) : Good s val call := by
  unfold Good
  rw [hphase]
  refine ⟨by rw [hn, hgranted]; rfl, by rwa [hgranted], le_of_eq hstart, fun hne => absurd hgranted hne, ?_⟩
  intro server hserver
  rw [hgranted] at hserver
  cases hserver

private theorem quoRum_of_pos (h : 0 < N) : quoRum N = N / 2 + 1 := by
  cases N with
  | zero => cases h
  | succ N => rfl

/-- The validity time ends before the grants expire. -/
private theorem good_held {left : List (Fin N)} (hN : 0 < N) (h : Good s val { call with phase := .locking left })
    (hmajority : quoRum N ≤ call.n) (hfits : -2 ^ 31 ≤ validity call.ttl (s.now - call.startTime)) :
    Good s val { call with
      freed := true
      phase := .held (s.now + (Int32.ofInt (validity call.ttl (s.now - call.startTime))).toInt) } := by
  obtain ⟨hn, hnodup, hstart, httl, hkept⟩ := h
  dsimp only at hn hnodup hstart httl
  rw [quoRum_of_pos hN] at hmajority
  have hne : call.granted ≠ [] := by
    intro hnil
    rw [hnil, List.length_nil] at hn
    omega
  have hdrift := drift_nonneg (httl hne)
  have hmax := Int32.toInt_lt call.ttl
  have hvalidity : (Int32.ofInt (validity call.ttl (s.now - call.startTime))).toInt =
      call.ttl.toInt - (s.now - call.startTime) - drift call.ttl := by
    unfold validity at hfits ⊢
    exact Int32.toInt_ofInt_of_le hfits (by omega)
  refine ⟨by dsimp only; omega, hnodup.of_append_left, ?_, hkept⟩
  dsimp only
  omega

theorem Spares.setNX [DecidableEq R] (s : State N R V) (server : Fin N) (resource : R) (value : V)
    (ttl : Int32) (val : V) :
    Spares s (s.setNX server resource value ttl).1 val :=
  ⟨by simp, fun _ _ _ he _ hlive => s.store_setNX he hlive⟩

variable [DecidableEq V]

/-- One call goes on while the entries of the others stay. -/
theorem Inv.put (h : Inv s) (hcalls : s'.calls = s.calls) (hspares : ∀ val', val' ≠ val → Spares s s' val')
    (hgood : Good s' val call) : Inv (s'.put val call) := by
  intro val' call' hcall'
  simp only [State.put, Function.update_apply] at hcall'
  split_ifs at hcall' with heq
  · cases hcall'
    rw [heq]
    exact hgood
  · rw [hcalls] at hcall'
    exact (h val' call' hcall').spares (hspares val' heq)

variable [DecidableEq R]

theorem Spares.unlockScript (s : State N R V) (server : Fin N) (resource : R) {value val : V} (hne : val ≠ value) :
    Spares s (s.unlockScript server resource value) val :=
  ⟨by simp, fun _ _ _ he hval hlive => s.store_unlockScript he hlive (hval ▸ hne)⟩

omit [DecidableEq V] in
/-- What a command does that is executed or not. -/
private theorem lockInstance_spares {server : Fin N} {resource : R} {ttl : Int32} {executed : Bool}
    {r : State N R V × Bool} (hr : (if executed then s.setNX server resource val ttl else (s, false)) = r) :
    r.1.calls = s.calls ∧ r.1.now = s.now ∧ (∀ val', Spares s r.1 val') ∧
      (r.2 = true → 0 < ttl.toInt ∧ r.1.store server resource = some ⟨val, s.now + ttl.toInt⟩) := by
  subst hr
  split_ifs
  · exact ⟨by simp, by simp, Spares.setNX s server resource val ttl, s.setNX_granted⟩
  · exact ⟨rfl, rfl, Spares.refl s, nofun⟩

private theorem unlockInstance_spares {server : Fin N} {resource : R} {executed : Bool} {s₁ : State N R V}
    (hs₁ : (if executed then s.unlockScript server resource val else s) = s₁) :
    s₁.calls = s.calls ∧ ∀ val', val' ≠ val → Spares s s₁ val' := by
  subst hs₁
  split_ifs
  · exact ⟨by simp, fun val' hne => Spares.unlockScript s server resource hne⟩
  · exact ⟨rfl, fun val' _ => Spares.refl s val'⟩

omit [DecidableEq R] [DecidableEq V] in
/-- A call that neither has the lock nor tries to get it. -/
private theorem good_idle (s : State N R V) (val : V)
    (hphase : (∃ left, call.phase = .unlocking left) ∨ (∃ left, call.phase = .releasing left) ∨
      call.phase = .returned) :
    Good s val call := by
  unfold Good
  rcases hphase with ⟨left, hphase⟩ | ⟨left, hphase⟩ | hphase
  all_goals rw [hphase]; trivial

private theorem releasing_cases (left : List (Fin N)) :
    (∃ left', releasing left = .unlocking left') ∨ (∃ left', releasing left = .releasing left') ∨
      releasing left = .returned := by
  unfold releasing
  split_ifs
  · exact .inr (.inr rfl)
  · exact .inr (.inl ⟨left, rfl⟩)

theorem Inv.step (hN : 0 < N) (h : Inv s) {retryCount : ℤ} {a : Action N R V} (hsane : Sane s a)
    (hstep : RedLock.step retryCount s a = .next s') : Inv s' := by
  cases a with
  | tick ms =>
    cases hstep
    intro val call hcall
    exact (h val call hcall).spares ⟨by dsimp only; omega, fun _ _ _ he _ _ => he⟩
  | lock resource ttl val =>
    simp only [RedLock.step] at hstep
    cases hval : s.calls val with
    | some call => simp [hval] at hstep
    | none =>
      rw [hval] at hstep
      cases hstep
      exact h.put rfl (fun _ _ => Spares.refl s _) (good_start s val (List.nodup_finRange N) rfl rfl rfl rfl)
  | lockInstance val server executed replied read =>
    simp only [RedLock.step] at hstep
    cases hval : s.calls val with
    | none => simp [hval] at hstep
    | some call =>
      have hvalue := value_eq (hsane call hval)
      have hgood := h val call hval
      simp only [hval] at hstep
      cases hphase : call.phase with
      | locking left =>
        have hcall : { call with phase := .locking left } = call := by rw [← hphase]
        rw [← hcall] at hgood
        simp only [hphase, hvalue] at hstep
        by_cases hserver : server ∈ left
        swap
        · simp [hserver] at hstep
        rw [if_pos hserver] at hstep
        generalize hr : (if executed then s.setNX server call.resource val call.ttl else (s, false)) = r at hstep
        obtain ⟨hcalls, hnow, hspares, hgranted⟩ := lockInstance_spares hr
        have hyes : (r.2 && replied) = true → 0 < call.ttl.toInt ∧
            r.1.store server call.resource = some ⟨val, s.now + call.ttl.toInt⟩ :=
          fun hyes => hgranted (Bool.and_eq_true_iff.1 hyes).1
        have hput :=
          h.put hcalls (fun val' _ => hspares val') (good_lockInstance hgood hserver hnow (hspares val) hyes)
        by_cases hgrant : (r.2 && replied) = true
        · rw [if_pos hgrant] at hstep hput
          cases hstep
          exact hput
        · rw [if_neg hgrant] at hstep hput
          cases hstep
          exact hput
      | _ => simp [hphase] at hstep
  | returnLock val =>
    simp only [RedLock.step] at hstep
    cases hval : s.calls val with
    | none => simp [hval] at hstep
    | some call =>
      have hgood := h val call hval
      simp only [hval] at hstep
      cases hphase : call.phase with
      | locking left =>
        have hcall : { call with phase := .locking left } = call := by rw [← hphase]
        rw [← hcall] at hgood
        simp only [hphase] at hstep
        cases left with
        | cons server left => cases hstep
        | nil =>
          dsimp only at hstep
          split_ifs at hstep with hsuccess
          · cases hstep
            exact h.put rfl (fun _ _ => Spares.refl s _) (good_held hN hgood hsuccess.1 (hsane call hval))
          · cases hstep
            exact h.put rfl (fun _ _ => Spares.refl s _) (good_idle s val (.inl ⟨_, rfl⟩))
      | _ => simp [hphase] at hstep
  | unlockInstance val server executed read =>
    simp only [RedLock.step] at hstep
    cases hval : s.calls val with
    | none => simp [hval] at hstep
    | some call =>
      have hvalue := value_eq (hsane call hval)
      simp only [hval, hvalue] at hstep
      generalize hs₁ : (if executed then s.unlockScript server call.resource val else s) = s₁ at hstep
      obtain ⟨hcalls, hspares⟩ := unlockInstance_spares hs₁
      cases hphase : call.phase with
      | unlocking left =>
        simp only [hphase] at hstep
        split_ifs at hstep
        cases hstep
        exact h.put hcalls hspares (good_idle s₁ val (.inl ⟨_, rfl⟩))
      | releasing left =>
        simp only [hphase] at hstep
        split_ifs at hstep
        cases hstep
        exact h.put hcalls hspares (good_idle s₁ val (releasing_cases _))
      | _ => simp [hphase] at hstep
  | retry val =>
    simp only [RedLock.step] at hstep
    cases hval : s.calls val with
    | none => simp [hval] at hstep
    | some call =>
      simp only [hval] at hstep
      cases hphase : call.phase with
      | unlocking left =>
        simp only [hphase] at hstep
        cases left with
        | cons server left => cases hstep
        | nil =>
          dsimp only at hstep
          split_ifs at hstep with hcount
          · cases hstep
            have hzero := hsane call hval (by omega)
            exact h.put rfl (fun _ _ => Spares.refl s _)
              (good_start s val (List.nodup_finRange N) rfl rfl hzero rfl)
          · cases hstep
            exact h.put rfl (fun _ _ => Spares.refl s _) (good_idle s val (.inr (.inr rfl)))
      | _ => simp [hphase] at hstep
  | unlock val =>
    simp only [RedLock.step] at hstep
    cases hval : s.calls val with
    | none => simp [hval] at hstep
    | some call =>
      simp only [hval] at hstep
      have hput : Inv (s.put val { call with phase := releasing (List.finRange N) }) :=
        h.put rfl (fun _ _ => Spares.refl s _) (good_idle s val (releasing_cases _))
      cases hphase : call.phase with
      | held expires =>
        simp only [hphase] at hstep
        cases hstep
        exact hput
      | returned =>
        simp only [hphase] at hstep
        cases hstep
        exact hput
      | _ => simp [hphase] at hstep

/-- Two majorities have an instance in common. -/
private theorem exists_common {l l' : List (Fin N)} (hl : l.Nodup) (hl' : l'.Nodup) (hlength : N / 2 + 1 ≤ l.length)
    (hlength' : N / 2 + 1 ≤ l'.length) : ∃ server, server ∈ l ∧ server ∈ l' := by
  have hcard : (Finset.univ : Finset (Fin N)).card < l.toFinset.card + l'.toFinset.card := by
    rw [Finset.card_univ, Fintype.card_fin, List.toFinset_card_of_nodup hl, List.toFinset_card_of_nodup hl']
    omega
  obtain ⟨server, hserver⟩ := Finset.inter_nonempty_of_card_lt_card_add_card (Finset.subset_univ _)
    (Finset.subset_univ _) hcard
  rw [Finset.mem_inter, List.mem_toFinset, List.mem_toFinset] at hserver
  exact ⟨server, hserver⟩

omit [DecidableEq R] [DecidableEq V] in
theorem Inv.exclusive (h : Inv s) : s.Exclusive where
  majority val call expires hcall hphase := by
    have hgood := h val call hcall
    unfold Good at hgood
    rw [hphase] at hgood
    exact ⟨hgood.1, hgood.2.1⟩
  exclusive := by
    rintro resource val val' ⟨call, expires, hcall, rfl, hphase, hlive⟩
      ⟨call', expires', hcall', hresource, hphase', hlive'⟩
    have hgood := h val call hcall
    have hgood' := h val' call' hcall'
    unfold Good at hgood hgood'
    rw [hphase] at hgood
    rw [hphase'] at hgood'
    obtain ⟨hmajority, hnodup, hexpires, hkept⟩ := hgood
    obtain ⟨hmajority', hnodup', hexpires', hkept'⟩ := hgood'
    obtain ⟨server, hserver, hserver'⟩ := exists_common hnodup hnodup' hmajority hmajority'
    -- the common instance holds the value of both
    obtain ⟨e, he, hvalue, -⟩ := hkept server hserver (by omega)
    obtain ⟨e', he', hvalue', -⟩ := hkept' server hserver' (by omega)
    rw [hresource, he] at he'
    cases he'
    rw [← hvalue, ← hvalue']

/-- A lock is granted by a majority, and held by one call at a time. -/
theorem run_excludes (hN : 0 < N) (retryCount : ℤ) {actions : List (Action N R V)}
    (hmeets : Meets (step retryCount) Sane State.init actions)
    (hrun : run (step retryCount) State.init actions = .next s) : s.Exclusive := by
  refine Inv.exclusive ?_
  refine @Transition.run_invariant _ _ _ _ (fun _ s => Inv s) _ ?_ ?_ _ hmeets _ hrun
  · intro val call hcall
    cases hcall
  · intro _ s a s' hinv hsane hstep
    exact hinv.step hN hsane hstep

/-- Two clients lock a resource on three servers.  The first one gets two of them, and the other one unlocks again. -/
def majorities : List (Action 3 ℕ ℕ) :=
  [.lock 0 1000 1, .lock 0 1000 2, .lockInstance 1 0 true true 1, .lockInstance 2 2 true true 2,
    .lockInstance 1 1 true true 1, .lockInstance 2 0 true true 2, .lockInstance 1 2 true true 1,
    .lockInstance 2 1 false false 2, .tick 5, .returnLock 2, .unlockInstance 2 2 true 2, .returnLock 1]

theorem run_excludes_example :
    ∃ s, run (step 3) .init majorities = .next s ∧ s.Holds 0 1 ∧ ¬ s.Holds 0 2 ∧ s.Exclusive := by
  have hholds : ∃ s, run (step 3) .init majorities = .next s ∧ s.Holds 0 1 ∧ ¬ s.Holds 0 2 := by decide +kernel
  obtain ⟨s, hrun, hone, htwo⟩ := hholds
  exact ⟨s, hrun, hone, htwo, run_excludes (by decide) 3 (by decide +kernel) hrun⟩

/-- The first client is granted its value twice by one server, and the second one is granted its own by the others. -/
def twoClients : List (Action 3 ℕ ℕ) :=
  [.lock 0 1000 1, .lockInstance 1 0 true true 1, .lockInstance 1 1 false false 1, .lockInstance 1 2 false false 1,
    .returnLock 1, .unlockInstance 1 0 true 1, .unlockInstance 1 1 false 1, .unlockInstance 1 2 false 1, .tick 100,
    .retry 1, .lockInstance 1 0 true true 1, .lockInstance 1 1 false false 1, .lockInstance 1 2 false false 1,
    .returnLock 1, .lock 0 1000 2, .lockInstance 2 0 true true 2, .lockInstance 2 1 true true 2,
    .lockInstance 2 2 true true 2, .returnLock 2]

theorem not_exclusive_two : ∃ s, run (step 3) .init twoClients = .next s ∧ ¬ s.Exclusive := by
  have hholds : ∃ s, run (step 3) .init twoClients = .next s ∧ s.Holds 0 1 ∧ s.Holds 0 2 := by decide +kernel
  obtain ⟨s, hrun, hone, htwo⟩ := hholds
  refine ⟨s, hrun, fun h => ?_⟩
  have := h.exclusive 0 1 2 hone htwo
  cases this

end RedLock
