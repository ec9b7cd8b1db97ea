import Mathlib.Logic.Function.Basic
import SwissArmyKnife.Lib.Transition

/-!
# Interleaved calls

Clients run calls on a shared store.  A call locks, reads the store in steps of its own and at last writes to it at
most once, in one step, before it unlocks and returns.  The steps of the clients are interleaved in any order.

`AllSee.step` keeps what the calls in progress rely on, as long as no write disturbs it (`Undisturbed`).  When what
they have read stays current, the calls take effect one after another (`run_sound`).  Calls that hold a common lock
while they read and write do not disturb each other (`Undisturbed.of_guarded`).
-/

namespace Interleaving

open Transition

universe u v w x

variable {σ : Type u} {ℓ : Type v} {ρ : Type w} {κ : Type x}

/-- What is left of a call: `held` are the locks that it releases after it has taken effect. -/
inductive Program (σ : Type u) (ℓ : Type v) (ρ : Type w) where
  | lock (l : ℓ) (next : Program σ ℓ ρ)
  | read (next : σ → Program σ ℓ ρ)
  | write (f : σ → σ) (r : ρ) (held : List ℓ)
  | finish (r : ρ) (held : List ℓ)

namespace Program

/-- The store after the program and its result, when no other client takes a step. -/
def alone : Program σ ℓ ρ → σ → σ × ρ
  | lock _ next, s => next.alone s
  | read next, s => (next s).alone s
  | write f r _, s => (f s, r)
  | finish r _, s => (s, r)

/-- The program has taken effect. -/
def finished : Program σ ℓ ρ → Bool
  | finish _ _ => true
  | _ => false

/-- The next step of the program has effect: it writes, or it is the last one before the program ends without a
write. -/
def takesEffect : Program σ ℓ ρ → σ → Bool
  | lock _ next, _ => next.finished
  | read next, s => (next s).finished
  | write _ _ _, _ => true
  | finish _ _, _ => false

end Program

/-- A call took effect. -/
structure Event (σ : Type u) (ρ : Type w) (κ : Type x) where
  call : κ
  result : ρ
  before : σ
  after : σ

/-- The calls in the order in which they took effect are the history; `returned` are those that were answered. -/
structure State (σ : Type u) (ℓ : Type v) (ρ : Type w) (κ : Type x) where
  store : σ
  owner : ℓ → Option ℕ
  running : ℕ → Option (κ × Program σ ℓ ρ)
  history : List (Event σ ρ κ)
  returned : List (κ × ρ)

inductive Action (κ : Type x) where
  | call (i : ℕ) (c : κ)
  | step (i : ℕ)

def init (s₀ : σ) : State σ ℓ ρ κ := ⟨s₀, fun _ => none, fun _ => none, [], []⟩

/-- What a step to a program adds to the history. -/
def effect (c : κ) (before after : σ) : Program σ ℓ ρ → List (Event σ ρ κ)
  | .finish r _ => [⟨c, r, before, after⟩]
  | _ => []

theorem exists_finish {p : Program σ ℓ ρ} (h : p.finished = true) : ∃ r held, p = .finish r held := by
  cases p with
  | finish r held => exact ⟨r, held, rfl⟩
  | _ => cases h

theorem effect_eq_nil {c : κ} {before after : σ} {p : Program σ ℓ ρ} (h : p.finished = false) :
    effect c before after p = [] := by
  cases p with
  | finish r held => cases h
  | _ => rfl

/-- The client goes on with a program, in a store. -/
def State.resume (s : State σ ℓ ρ κ) (i : ℕ) (c : κ) (p : Program σ ℓ ρ) (t : σ) : State σ ℓ ρ κ :=
  { s with
    store := t
    running := Function.update s.running i (some (c, p))
    history := s.history ++ effect c s.store t p }

theorem running_resume (s : State σ ℓ ρ κ) (i : ℕ) (c : κ) (p : Program σ ℓ ρ) (t : σ) (j : ℕ) :
    (s.resume i c p t).running j = if j = i then some (c, p) else s.running j :=
  Function.update_apply s.running i (some (c, p)) j

variable [DecidableEq ℓ] (program : κ → Program σ ℓ ρ)

/-- A step of a client that runs a program.  It waits for a lock that is taken, and it is an error to release a lock
that it does not hold. -/
def advance (s : State σ ℓ ρ κ) (i : ℕ) (c : κ) : Program σ ℓ ρ → Outcome (State σ ℓ ρ κ)
  | .lock l next =>
    match s.owner l with
    | some _ => .disabled
    | none => .next ({ s with owner := Function.update s.owner l (some i) }.resume i c next s.store)
  | .read next => .next (s.resume i c (next s.store) s.store)
  | .write f r held => .next (s.resume i c (.finish r held) (f s.store))
  | .finish r (l :: held) =>
    if s.owner l = some i then
      .next { s with
        owner := Function.update s.owner l none
        running := Function.update s.running i (some (c, .finish r held)) }
    else .aborted
  | .finish r [] =>
    .next { s with running := Function.update s.running i none, returned := s.returned ++ [(c, r)] }

def step (s : State σ ℓ ρ κ) : Action κ → Outcome (State σ ℓ ρ κ)
  | .call i c =>
    match s.running i with
    | some _ => .disabled
    | none => .next (s.resume i c (program c) s.store)
  | .step i =>
    match s.running i with
    | some (c, p) => advance s i c p
    | none => .disabled

/-- What the steps of a run do to the state. -/
inductive Step (s : State σ ℓ ρ κ) : Action κ → State σ ℓ ρ κ → Prop
  | call {i : ℕ} {c : κ} (h : s.running i = none) : Step s (.call i c) (s.resume i c (program c) s.store)
  | lock {i : ℕ} {c : κ} {l : ℓ} {next : Program σ ℓ ρ} (h : s.running i = some (c, .lock l next))
      (hfree : s.owner l = none) :
      Step s (.step i) ({ s with owner := Function.update s.owner l (some i) }.resume i c next s.store)
  | read {i : ℕ} {c : κ} {next : σ → Program σ ℓ ρ} (h : s.running i = some (c, .read next)) :
      Step s (.step i) (s.resume i c (next s.store) s.store)
  | write {i : ℕ} {c : κ} {f : σ → σ} {r : ρ} {held : List ℓ} (h : s.running i = some (c, .write f r held)) :
      Step s (.step i) (s.resume i c (.finish r held) (f s.store))
  | unlock {i : ℕ} {c : κ} {r : ρ} {l : ℓ} {held : List ℓ} (h : s.running i = some (c, .finish r (l :: held)))
      (howner : s.owner l = some i) : Step s (.step i) { s with
        owner := Function.update s.owner l none
        running := Function.update s.running i (some (c, .finish r held)) }
  | return {i : ℕ} {c : κ} {r : ρ} (h : s.running i = some (c, .finish r [])) :
      Step s (.step i) { s with running := Function.update s.running i none, returned := s.returned ++ [(c, r)] }

variable {program}

theorem step_cases {s s' : State σ ℓ ρ κ} {a : Action κ} (h : step program s a = .next s') : Step program s a s' := by
  cases a with
  | call i c =>
    rw [step] at h
    split at h
    · cases h
    · cases h
      exact .call ‹_›
  | step i =>
    rw [step] at h
    split at h
    · rename_i c p hrun
      cases p with
      | lock l next =>
        rw [advance] at h
        split at h
        · cases h
        · cases h
          exact .lock hrun ‹_›
      | read next =>
        cases h
        exact .read hrun
      | write f r held =>
        cases h
        exact .write hrun
      | finish r held =>
        cases held with
        | nil =>
          cases h
          exact .return hrun
        | cons l held =>
          rw [advance] at h
          split at h
          · cases h
            exact .unlock hrun ‹_›
          · cases h
    · cases h

/-! ### What calls in progress rely on -/

/-- What a call relies on when it goes on with a program holds in the beginning and as it reads. -/
structure Relies (program : κ → Program σ ℓ ρ) (Sees : κ → Program σ ℓ ρ → σ → Prop) : Prop where
  call : ∀ c s, Sees c (program c) s
  lock : ∀ c l next s, Sees c (.lock l next) s → Sees c next s
  read : ∀ c next s, Sees c (.read next) s → Sees c (next s) s

/-- A write leaves what the other calls in progress rely on as it is, where the calls are rivals. -/
def Undisturbed (Rivals : κ → κ → Prop) (Sees : κ → Program σ ℓ ρ → σ → Prop) (s : State σ ℓ ρ κ) (a : Action κ) :
    Prop :=
  ∀ i c f r held, a = .step i → s.running i = some (c, .write f r held) →
    ∀ j d q, j ≠ i → s.running j = some (d, q) → q.finished = false → Rivals c d →
      Sees d q s.store → Sees d q (f s.store)

/-- The calls in progress may rely on what they do. -/
def AllSee (Sees : κ → Program σ ℓ ρ → σ → Prop) (s : State σ ℓ ρ κ) : Prop :=
  ∀ i c q, s.running i = some (c, q) → q.finished = false → Sees c q s.store

variable {Sees : κ → Program σ ℓ ρ → σ → Prop} {s s' : State σ ℓ ρ κ} {a : Action κ}

omit [DecidableEq ℓ] in
private theorem AllSee.resume (h : AllSee Sees s) {i : ℕ} {c : κ} {p : Program σ ℓ ρ}
    (hp : p.finished = false → Sees c p s.store) : AllSee Sees (s.resume i c p s.store) := by
  intro j d q hrun hq
  rw [running_resume] at hrun
  split at hrun
  · cases hrun
    exact hp hq
  · exact h j d q hrun hq

theorem AllSee.step (hrelies : Relies program Sees) (h : AllSee Sees s)
    (hcond : Undisturbed (fun _ _ => True) Sees s a)
    (hstep : Step program s a s') : AllSee Sees s' := by
  cases hstep with
  | call hrun => exact h.resume fun _ => hrelies.call _ _
  | lock hrun hfree =>
    refine AllSee.resume h fun _ => ?_
    exact hrelies.lock _ _ _ _ (h _ _ _ hrun rfl)
  | read hrun => exact h.resume fun _ => hrelies.read _ _ _ (h _ _ _ hrun rfl)
  | write hrun =>
    intro j d q hj hq
    rw [running_resume] at hj
    split at hj
    · cases hj
      cases hq
    · exact hcond _ _ _ _ _ rfl hrun j d q ‹_› hj hq trivial (h j d q hj hq)
  | unlock hrun howner =>
    intro j d q hj hq
    dsimp only at hj
    rw [Function.update_apply] at hj
    split at hj
    · cases hj
      cases hq
    · exact h j d q hj hq
  | «return» hrun =>
    intro j d q hj hq
    dsimp only at hj
    rw [Function.update_apply] at hj
    split at hj
    · cases hj
    · exact h j d q hj hq

omit [DecidableEq ℓ] in
theorem allSee_init (s₀ : σ) : AllSee Sees (init s₀ : State σ ℓ ρ κ) := by
  intro i c q hrun
  cases hrun

/-- The call, if it goes on alone with what it has read, does what it would do if it began anew. -/
def Current (program : κ → Program σ ℓ ρ) (c : κ) (q : Program σ ℓ ρ) (s : σ) : Prop :=
  (program c).alone s = q.alone s

/-- The calls that are watched go on as if they began anew. -/
def WatchedCurrent (program : κ → Program σ ℓ ρ) (Watched : κ → Prop) (c : κ) (q : Program σ ℓ ρ) (s : σ) : Prop :=
  Watched c → Current program c q s

omit [DecidableEq ℓ] in
theorem relies_current (program : κ → Program σ ℓ ρ) (Watched : κ → Prop) :
    Relies program (WatchedCurrent program Watched) where
  call _ _ _ := rfl
  lock _ _ _ _ h := h
  read _ _ _ h := h

/-! ### Calls one after another -/

/-- The events follow each other from one store to another. -/
def Linked : σ → List (Event σ ρ κ) → σ → Prop
  | s, [], t => s = t
  | s, e :: es, t => e.before = s ∧ Linked e.after es t

theorem Linked.append {es es' : List (Event σ ρ κ)} {s t u : σ} (h : Linked s es t) (h' : Linked t es' u) :
    Linked s (es ++ es') u := by
  induction es generalizing s with
  | nil =>
    cases h
    exact h'
  | cons e es ih => exact ⟨h.1, ih h.2⟩

theorem linked_append {es es' : List (Event σ ρ κ)} {s u : σ} (h : Linked s (es ++ es') u) :
    ∃ t, Linked s es t ∧ Linked t es' u := by
  induction es generalizing s with
  | nil => exact ⟨s, rfl, h⟩
  | cons e es ih =>
    obtain ⟨t, ht, ht'⟩ := ih h.2
    exact ⟨t, ⟨h.1, ht⟩, ht'⟩

/-- What does not hold any more was ended by one of the events. -/
theorem Linked.exists_end {P : σ → Bool} {es : List (Event σ ρ κ)} {s t : σ} (h : Linked s es t) (hs : P s = true)
    (ht : P t = false) : ∃ e ∈ es, P e.before = true ∧ P e.after = false := by
  induction es generalizing s with
  | nil =>
    cases h
    rw [hs] at ht
    cases ht
  | cons e es ih =>
    obtain ⟨rfl, hes⟩ := h
    cases hafter : P e.after with
    | false => exact ⟨e, List.mem_cons_self .., hs, hafter⟩
    | true =>
      obtain ⟨e', he', hend⟩ := ih hes hafter
      exact ⟨e', List.mem_cons_of_mem _ he', hend⟩

/-- The call that takes effect, if it is watched, may be run in the store. -/
def EffectOk (program : κ → Program σ ℓ ρ) (Watched : κ → Prop) (Ok : κ → σ → Prop) (s : State σ ℓ ρ κ) :
    Action κ → Prop
  | .call _ c => (program c).finished → Watched c → Ok c s.store
  | .step i => ∀ c p, s.running i = some (c, p) → p.takesEffect s.store → Watched c → Ok c s.store

/-- The call did what it does alone, in a store that it may be run in. -/
structure EventOk (program : κ → Program σ ℓ ρ) (Ok : κ → σ → Prop) (e : Event σ ρ κ) : Prop where
  alone : (program e.call).alone e.before = (e.after, e.result)
  ok : Ok e.call e.before

/-- The calls have taken effect one after another, those that are watched as they do alone, and those that were
answered are among them. -/
structure Serialized (program : κ → Program σ ℓ ρ) (Watched : κ → Prop) (Ok : κ → σ → Prop) (s₀ : σ)
    (s : State σ ℓ ρ κ) : Prop where
  linked : Linked s₀ s.history s.store
  events : ∀ e ∈ s.history, Watched e.call → EventOk program Ok e
  finished : ∀ i c r held, s.running i = some (c, .finish r held) → ∃ e ∈ s.history, e.call = c ∧ e.result = r
  returned : ∀ x ∈ s.returned, ∃ e ∈ s.history, e.call = x.1 ∧ e.result = x.2

variable {Watched : κ → Prop} {Ok : κ → σ → Prop}

omit [DecidableEq ℓ] in
/-- What holds in the beginning and is kept by every call that may be run holds after a history. -/
theorem history_induction {P : List (Event σ ρ κ) → σ → Prop} {s₀ : σ} (hinit : P [] s₀)
    (hstep : ∀ h e, P h e.before → EventOk program Ok e → P (h ++ [e]) e.after) {history : List (Event σ ρ κ)} {t : σ}
    (hlinked : Linked s₀ history t) (hevents : ∀ e ∈ history, EventOk program Ok e) : P history t := by
  induction history using List.reverseRecOn generalizing t with
  | nil =>
    cases hlinked
    exact hinit
  | append_singleton h e ih =>
    obtain ⟨u, hbefore, rfl, hafter⟩ := linked_append hlinked
    cases hafter
    have hp := ih hbefore fun e' he' => hevents e' (List.mem_append_left _ he')
    exact hstep h e hp (hevents e (List.mem_append_right _ (List.mem_singleton.2 rfl)))

omit [DecidableEq ℓ] in
private theorem Serialized.resume {s₀ : σ} (h : Serialized program Watched Ok s₀ s) {i : ℕ} {c : κ}
    {p : Program σ ℓ ρ} {t : σ} {owner : ℓ → Option ℕ} (hok : p.finished → Watched c → Ok c s.store)
    (hfinish : Watched c → ∀ r held, p = .finish r held → (program c).alone s.store = (t, r))
    (hnot : p.finished = false → t = s.store) :
    Serialized program Watched Ok s₀ ({ s with owner := owner }.resume i c p t) := by
  have hmem : ∀ e ∈ s.history, e ∈ s.history ++ effect c s.store t p := fun e he => List.mem_append_left _ he
  refine ⟨?_, ?_, ?_, ?_⟩
  · refine h.linked.append ?_
    cases hp : p.finished with
    | true =>
      obtain ⟨r, held, rfl⟩ := exists_finish hp
      exact ⟨rfl, rfl⟩
    | false =>
      change Linked s.store (effect c s.store t p) t
      rw [effect_eq_nil hp, hnot hp]
      rfl
  · intro e he hwatched
    rcases List.mem_append.1 he with he | he
    · exact h.events e he hwatched
    · cases p with
      | finish r held =>
        obtain rfl := List.mem_singleton.1 he
        exact ⟨hfinish hwatched r held rfl, hok rfl hwatched⟩
      | _ => cases he
  · intro j d r held hrun
    rw [running_resume] at hrun
    split at hrun
    · cases hrun
      exact ⟨⟨c, r, s.store, t⟩, List.mem_append_right _ (List.mem_singleton.2 rfl), rfl, rfl⟩
    · obtain ⟨e, he, heq⟩ := h.finished j d r held hrun
      exact ⟨e, hmem e he, heq⟩
  · intro x hx
    obtain ⟨e, he, heq⟩ := h.returned x hx
    exact ⟨e, hmem e he, heq⟩

theorem Serialized.step {s₀ : σ} (hall : AllSee (WatchedCurrent program Watched) s)
    (heffect : EffectOk program Watched Ok s a) (h : Serialized program Watched Ok s₀ s)
    (hstep : Step program s a s') : Serialized program Watched Ok s₀ s' := by
  cases hstep with
  | call hrun =>
    refine h.resume heffect (fun _ r held hp => ?_) fun _ => rfl
    rw [hp]
    rfl
  | lock hrun hfree =>
    refine h.resume (heffect _ _ hrun) (fun hwatched r held hp => ?_) fun _ => rfl
    rw [hall _ _ _ hrun rfl hwatched, Program.alone, hp]
    rfl
  | read hrun =>
    refine h.resume (heffect _ _ hrun) (fun hwatched r held hp => ?_) fun _ => rfl
    rw [hall _ _ _ hrun rfl hwatched, Program.alone, hp]
    rfl
  | write hrun =>
    refine h.resume (fun _ => heffect _ _ hrun rfl) (fun hwatched r held hp => ?_) fun hp => nomatch hp
    cases hp
    exact hall _ _ _ hrun rfl hwatched
  | unlock hrun howner =>
    refine ⟨h.linked, h.events, ?_, h.returned⟩
    intro j d r held hj
    dsimp only at hj
    rw [Function.update_apply] at hj
    split at hj
    · cases hj
      exact h.finished _ _ _ _ hrun
    · exact h.finished j d r held hj
  | «return» hrun =>
    refine ⟨h.linked, h.events, ?_, ?_⟩
    · intro j d r held hj
      dsimp only at hj
      rw [Function.update_apply] at hj
      split at hj
      · cases hj
      · exact h.finished j d r held hj
    · intro x hx
      rcases List.mem_append.1 hx with hx | hx
      · exact h.returned x hx
      · rw [List.mem_singleton.1 hx]
        exact h.finished _ _ _ _ hrun

omit [DecidableEq ℓ] in
theorem serialized_init (program : κ → Program σ ℓ ρ) (Watched : κ → Prop) (Ok : κ → σ → Prop) (s₀ : σ) :
    Serialized program Watched Ok s₀ (init s₀) where
  linked := rfl
  events _ h := nomatch h
  finished _ _ _ _ h := nomatch h
  returned _ h := nomatch h

/-! ### Calls that hold a lock -/

/-- The calls lock the lock first. -/
def Guarded (program : κ → Program σ ℓ ρ) (l : ℓ) (c : κ) : Prop := ∃ next, program c = .lock l next

/-- A call that locks the lock first and has gone on holds it until it has taken effect. -/
def Inside (program : κ → Program σ ℓ ρ) (s : State σ ℓ ρ κ) : Prop :=
  ∀ l i c q, Guarded program l c → s.running i = some (c, q) → q.finished = false →
    q = program c ∨ s.owner l = some i

omit [DecidableEq ℓ] in
theorem inside_init (program : κ → Program σ ℓ ρ) (s₀ : σ) : Inside program (init s₀) := by
  intro l i c q _ hrun
  cases hrun

theorem Inside.step (h : Inside program s) (hstep : Step program s a s') : Inside program s' := by
  cases hstep with
  | call hrun =>
    intro l j d q hguard hj hq
    rw [running_resume] at hj
    split at hj
    · cases hj
      exact .inl rfl
    · exact h l j d q hguard hj hq
  | @lock i c l' next hrun hfree =>
    intro l j d q hguard hj hq
    rw [running_resume] at hj
    change q = program d ∨ Function.update s.owner l' (some i) l = some j
    rw [Function.update_apply]
    split at hj
    · cases hj
      right
      rename_i hji
      subst hji
      split
      · rfl
      · rename_i hne
        rcases h l j c _ hguard hrun rfl with heq | howner
        · obtain ⟨next', hnext⟩ := hguard
          rw [hnext] at heq
          cases heq
          exact absurd rfl hne
        · exact howner
    · refine (h l j d q hguard hj hq).imp_right fun howner => ?_
      split
      · rename_i heq
        subst heq
        rw [hfree] at howner
        cases howner
      · exact howner
  | @read i c next hrun =>
    intro l j d q hguard hj hq
    rw [running_resume] at hj
    split at hj
    · cases hj
      rename_i hji
      subst hji
      right
      refine (h l j c _ hguard hrun rfl).resolve_left fun heq => ?_
      obtain ⟨next', hnext⟩ := hguard
      rw [hnext] at heq
      cases heq
    · exact h l j d q hguard hj hq
  | write hrun =>
    intro l j d q hguard hj hq
    rw [running_resume] at hj
    split at hj
    · cases hj
      cases hq
    · exact h l j d q hguard hj hq
  | @unlock i c r l' held hrun howner =>
    intro l j d q hguard hj hq
    dsimp only at hj ⊢
    rw [Function.update_apply] at hj ⊢
    split at hj
    · cases hj
      cases hq
    · rename_i hne
      refine (h l j d q hguard hj hq).imp_right fun howner' => ?_
      split
      · rename_i heq
        subst heq
        rw [howner] at howner'
        exact absurd (Option.some.inj howner').symm hne
      · exact howner'
  | «return» hrun =>
    intro l j d q hguard hj hq
    dsimp only at hj
    rw [Function.update_apply] at hj
    split at hj
    · cases hj
    · exact h l j d q hguard hj hq

variable {Rivals : κ → κ → Prop}

omit [DecidableEq ℓ] in
/-- Calls that lock the same lock first do not disturb each other. -/
theorem Undisturbed.of_guarded (hguard : ∀ c d, ¬ Rivals c d → ∃ l, Guarded program l c ∧ Guarded program l d)
    (hrelies : Relies program Sees) (hinside : Inside program s) (h : Undisturbed Rivals Sees s a) :
    Undisturbed (fun _ _ => True) Sees s a := by
  intro i c f r held ha hrun j d q hne hj hq _ hsees
  by_cases hrivals : Rivals c d
  · exact h i c f r held ha hrun j d q hne hj hq hrivals hsees
  · obtain ⟨l, hc, hd⟩ := hguard c d hrivals
    have howner : s.owner l = some i := by
      refine (hinside l i c _ hc hrun rfl).resolve_left fun heq => ?_
      obtain ⟨next, hnext⟩ := hc
      rw [hnext] at heq
      cases heq
    rcases hinside l j d q hd hj hq with rfl | howner'
    · exact hrelies.call d _
    · rw [howner] at howner'
      exact absurd (Option.some.inj howner').symm hne

/-- The calls in progress that are watched read what is current, and they took effect one after another. -/
structure Sound (program : κ → Program σ ℓ ρ) (Watched : κ → Prop) (Ok : κ → σ → Prop) (s₀ : σ) (s : State σ ℓ ρ κ) :
    Prop where
  current : AllSee (WatchedCurrent program Watched) s
  inside : Inside program s
  serialized : Serialized program Watched Ok s₀ s

variable (program Watched Ok Rivals) in
/-- A step in which no call disturbs a rival that is watched, and a watched call takes effect in a store that it may
be run in. -/
structure Fair (s : State σ ℓ ρ κ) (a : Action κ) : Prop where
  undisturbed : Undisturbed Rivals (WatchedCurrent program Watched) s a
  effect : EffectOk program Watched Ok s a

/-- When calls that are not rivals lock the same lock, then in a run of fair steps the watched calls take effect as
they do alone. -/
theorem run_sound (hguard : ∀ c d, ¬ Rivals c d → ∃ l, Guarded program l c ∧ Guarded program l d) {s₀ : σ}
    {as : List (Action κ)} (hmeets : Meets (step program) (Fair program Watched Ok Rivals) (init s₀) as)
    (hrun : run (step program) (init s₀) as = .next s) : Sound program Watched Ok s₀ s := by
  refine @run_invariant _ _ _ _ (fun _ s => Sound program Watched Ok s₀ s) (init s₀) ?_ ?_ _ hmeets _ hrun
  · exact ⟨allSee_init s₀, inside_init program s₀, serialized_init program Watched Ok s₀⟩
  intro _ s a s' hs hfair hstep
  have hcases := step_cases hstep
  have hundisturbed := hfair.undisturbed.of_guarded hguard (relies_current program Watched) hs.inside
  exact ⟨hs.current.step (relies_current program Watched) hundisturbed hcases, hs.inside.step hcases,
    hs.serialized.step hs.current hfair.effect hcases⟩

variable {i : ℕ} {c : κ} {p : Program σ ℓ ρ}

omit [DecidableEq ℓ] in
/-- A call that does not take effect at once is fair. -/
theorem Fair.call (h : (program c).finished = false) : Fair program Watched Ok Rivals s (.call i c) := by
  refine ⟨?_, ?_⟩
  · intro j d f r held ha
    cases ha
  · intro hfinished
    rw [h] at hfinished
    cases hfinished

omit [DecidableEq ℓ] in
/-- A step that has no effect is fair. -/
theorem Fair.step (hrun : s.running i = some (c, p)) (h : p.takesEffect s.store = false) :
    Fair program Watched Ok Rivals s (.step i) := by
  refine ⟨?_, ?_⟩
  · intro j d f r held ha hj
    cases ha
    rw [hrun] at hj
    cases hj
    cases h
  · intro d q hq heffect
    rw [hrun] at hq
    cases hq
    rw [h] at heffect
    cases heffect

omit [DecidableEq ℓ] in
/-- A step of the only call in progress is fair when the call may take effect. -/
theorem Fair.only (hrun : s.running i = some (c, p))
    (hothers : ∀ j d q, j ≠ i → s.running j = some (d, q) → q.finished = true) (hok : Watched c → Ok c s.store) :
    Fair program Watched Ok Rivals s (.step i) := by
  refine ⟨?_, ?_⟩
  · intro j d f r held ha _ j' d' q hne hj' hfinished
    cases ha
    rw [hothers j' d' q hne hj'] at hfinished
    cases hfinished
  · intro d q hq _ hwatched
    rw [hrun] at hq
    cases hq
    exact hok hwatched

end Interleaving
