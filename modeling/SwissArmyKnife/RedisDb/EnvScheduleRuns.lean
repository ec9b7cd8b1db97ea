import SwissArmyKnife.RedisDb.EnvSchedule

/-!
# Runs of the background thread

Each step keeps the invariant (`Inv.step`).  A task that calls `Schedule` waits for the mutex, and its own thread has
it (`Inv.callsSchedule`), so every call of `Schedule` returns exactly if no task makes one (`noSelfLock_iff`).
-/

namespace RedisDb.EnvSchedule

open Transition

variable {τ : Type*} {s s' : State τ}

/-! ### What a step preserves -/

theorem Inv.acquire (h : Inv s) (hfree : s.bgmutex = none) {t : Thread}
    (hs : EnvSchedule.acquire s t = .next s') : Inv s' := by
  have hnone := h.free hfree
  cases t with
  | client i =>
    unfold EnvSchedule.acquire at hs
    cases hi : s.clients i with
    | schedule func exiting =>
      simp only [hi] at hs
      cases hs
      refine ⟨?_, h.started, h.notLocked, ?_⟩
      · intro t
        show some (Thread.client i) = some t ↔ Holds (setClient s i (.locked func exiting)) t = true
        rw [holds_setClient]
        by_cases ht : t = .client i
        · simp [ht, Client.holds]
        · simp [ht, hnone t, Ne.symm ht]
      · intro db
        refine (h.callback db).congr ?_
        intro p
        show callbacks (setClient s i (.locked func exiting)) db p = callbacks s db p
        have hcb : Client.callbacks db (.locked func exiting) = callbacks s db (.client i) := by
          simp [callbacks, hi, Client.callbacks]
        rw [callbacks_setClient, hcb]
        exact congrFun (Function.update_eq_self _ _) p
    | idle => simp [hi] at hs
    | locked func exiting => simp [hi] at hs
    | join => simp [hi] at hs
  | background =>
    have hbg : s.background.holds = false := hnone .background
    have hgoes : ∀ b : Background τ, b = .lock ∨ b = .wait → s.background = b →
        Inv { s with bgmutex := some Thread.background, background := .test } := by
      intro b hb hsb
      have hthere : s.startbgthread = true := by
        refine h.there ?_ ?_ <;> rcases hb with rfl | rfl <;> simp [hsb]
      refine ⟨?_, ?_, by simp, ?_⟩
      · intro t
        cases t with
        | client i => simpa [Holds] using hnone (.client i)
        | background => simp [Holds, Background.holds]
      · intro hs
        rw [hthere] at hs
        cases hs
      · intro db
        refine (h.callback db).congr ?_
        intro p
        cases p with
        | client i => rfl
        | queued => rfl
        | running => rcases hb with rfl | rfl <;> simp [callbacks, hsb, Background.callbacks]
    unfold EnvSchedule.acquire at hs
    cases hb : s.background with
    | lock =>
      simp only [hb] at hs
      cases hs
      exact hgoes .lock (Or.inl rfl) hb
    | wait =>
      simp only [hb] at hs
      cases hs
      exact hgoes .wait (Or.inr rfl) hb
    -- A functor that runs has the mutex, so it cannot get it in its call.
    | schedule func called => simp [hb, Background.holds] at hbg
    | none => simp [hb] at hs
    | loop => simp [hb] at hs
    | test => simp [hb] at hs
    | body func => simp [hb] at hs
    | locked func called => simp [hb] at hs
    | done => simp [hb] at hs
    | exited => simp [hb] at hs

theorem Inv.push (h : Inv s) {t : Thread} (hs : EnvSchedule.push s t = .next s') : Inv s' := by
  cases t with
  | client i =>
    unfold EnvSchedule.push at hs
    cases hi : s.clients i with
    | locked func exiting =>
      simp only [hi] at hs
      cases hs
      have hholds : Holds s (.client i) = true := by simp [Holds, hi, Client.holds]
      have hother : ∀ t, t ≠ .client i → Holds s t = false := by
        intro t ht
        cases hht : Holds s t with
        | false => rfl
        | true => exact absurd (h.holds_unique hht hholds) ht
      have hc : ∀ db, Client.callbacks db (if exiting then .join else .idle : Client τ) = 0 := by
        intro db
        cases exiting <;> rfl
      have hrunning : ∀ db, s.startbgthread = false → s.background.callbacks db = 0 := by
        intro db hstart
        rcases h.started hstart with hb | hb <;> simp [hb, Background.callbacks]
      refine ⟨?_, (fun hstart => by cases hstart), ?_, ?_⟩
      · intro t
        cases t with
        | client j =>
          by_cases hj : j = i
          · subst hj
            cases exiting <;> simp [Schedule, setClient, Holds, Client.holds]
          · have := hother (.client j) (by simpa using hj)
            simpa [Schedule, setClient, Holds, hj] using this
        | background =>
          have := hother .background (by simp)
          cases hstart : s.startbgthread with
          | true => simpa [Schedule, setClient, Holds, hstart] using this
          | false => simp [Schedule, setClient, Holds, hstart, Background.holds]
      · intro func' called'
        cases hstart : s.startbgthread with
        | true => simpa [Schedule, setClient, hstart] using h.notLocked func' called'
        | false => simp [Schedule, setClient, hstart]
      · intro db
        refine (h.callback db).move (p := .client i) (q := .queued) (by simp) ?_ ?_
        · have hlocked : Client.callbacks db (.locked func exiting) = func.callbacks db := rfl
          simp [callbacks, Schedule, setClient, hi, hc, hlocked]
          omega
        · intro r hr hrq
          cases r with
          | client j =>
            have hj : j ≠ i := by
              rintro rfl
              exact hr rfl
            simp [callbacks, Schedule, setClient, hj]
          | queued => exact absurd rfl hrq
          | running =>
            cases hstart : s.startbgthread with
            | true => simp [callbacks, Schedule, setClient, hstart]
            | false =>
              have hloop : Background.callbacks db (.loop : Background τ) = 0 := rfl
              simp [callbacks, Schedule, setClient, hstart, hrunning db hstart, hloop]
    | idle => simp [hi] at hs
    | schedule func exiting => simp [hi] at hs
    | join => simp [hi] at hs
  | background =>
    unfold EnvSchedule.push at hs
    dsimp only at hs
    split at hs
    · rename_i func called hb
      exact absurd hb (h.notLocked func called)
    · cases hs

/-- The background thread gives the mutex back. -/
theorem Inv.release (h : Inv s) {b : Background τ} (hholds : s.background.holds = true) (hfree : b.holds = false)
    (hcb : ∀ db, b.callbacks db = s.background.callbacks db) :
    Inv { s with bgmutex := none, background := b } := by
  have hothers : ∀ i, (s.clients i).holds = false := by
    intro i
    cases hi : (s.clients i).holds with
    | false => rfl
    | true => exact absurd (@Inv.holds_unique _ _ h (.client i) .background hi hholds) (by simp)
  refine ⟨?_, ?_, ?_, ?_⟩
  · intro t
    cases t with
    | client i => simp [Holds, hothers i]
    | background => simp [Holds, hfree]
  · intro hs
    have : s.startbgthread = true := by
      refine h.there ?_ ?_
      · intro hb
        simp [hb, Background.holds] at hholds
      · intro hb
        simp [hb, Background.holds] at hholds
    rw [this] at hs
    cases hs
  · rintro func called rfl
    cases hfree
  · intro db
    refine (h.callback db).congr ?_
    intro p
    cases p with
    | client i => rfl
    | queued => rfl
    | running => exact hcb db

/-- The background thread takes the first functor of the queue. -/
theorem Inv.take (h : Inv s) {func : Functor τ} {bgqueue : List (Functor τ)} {b : Background τ}
    (hb : s.background = .test) (hq : s.bgqueue = func :: bgqueue)
    (hbody : b = .body func ∨ b = .done ∧ func = .empty) :
    Inv { s with bgqueue := bgqueue, background := b } := by
  have hcb : ∀ db, b.callbacks db = func.callbacks db := by
    intro db
    rcases hbody with rfl | ⟨rfl, rfl⟩ <;> rfl
  refine ⟨?_, ?_, ?_, ?_⟩
  · intro t
    cases t with
    | client i => exact h.owner (.client i)
    | background =>
      have hown : s.bgmutex = some .background := (h.owner .background).2 (by simp [Holds, hb, Background.holds])
      have hholds : b.holds = true := by rcases hbody with rfl | ⟨rfl, rfl⟩ <;> rfl
      simp [Holds, hown, hholds]
  · intro hs
    rw [h.there (by simp [hb]) (by simp [hb])] at hs
    cases hs
  · rcases hbody with rfl | ⟨rfl, -⟩ <;> simp
  · intro db
    refine (h.callback db).move (p := .queued) (q := .running) (by simp) ?_ ?_
    · have htest : Background.callbacks db (.test : Background τ) = 0 := rfl
      simp [callbacks, hcb, hb, hq, htest]
      omega
    · intro r hr hrr
      cases r with
      | client i => rfl
      | queued => exact absurd rfl hr
      | running => exact absurd rfl hrr

/-- A client sets the flag of a database, for which there is no callback, and is about to schedule one. -/
theorem Inv.spawn (h : Inv s) {i db : ℕ} (hi : s.clients i = .idle) (hflag : s.bgcompactionscheduled db = false) :
    Inv (setScheduled (setClient s i (.schedule (.BackgroundCallback db) false)) db true) := by
  refine ⟨?_, h.started, h.notLocked, ?_⟩
  · intro t
    show s.bgmutex = some t ↔ Holds (setClient s i (.schedule (.BackgroundCallback db) false)) t = true
    rw [holds_setClient]
    split
    · rename_i ht
      subst ht
      have := h.owner (.client i)
      simpa [Holds, hi, Client.holds] using this
    · exact h.owner t
  · intro db'
    show OneWhen (callbacks (setClient s i (.schedule (.BackgroundCallback db) false)) db')
      (Function.update s.bgcompactionscheduled db true db')
    have hidle : callbacks s db' (.client i) = 0 := by simp [callbacks, hi, Client.callbacks]
    by_cases hdb : db' = db
    · subst hdb
      rw [Function.update_self]
      have hnone := h.callback db'
      rw [hflag] at hnone
      refine hnone.spawn (p := .client i) ?_ ?_
      · simp [Client.callbacks, Functor.callbacks]
      · intro q hq
        simp [hq]
    · rw [Function.update_of_ne hdb]
      refine (h.callback db').congr ?_
      intro p
      have hzero : Client.callbacks db' (.schedule (.BackgroundCallback db) false : Client τ) = 0 := by
        simp [Client.callbacks, Functor.callbacks, Ne.symm hdb]
      rw [callbacks_setClient, hzero, ← hidle]
      exact congrFun (Function.update_eq_self _ _) p

/-- `BackgroundCallback` clears the flag at its end. -/
theorem Inv.drop (h : Inv s) {db : ℕ} (hb : s.background = .body (.BackgroundCallback db)) :
    Inv { setScheduled s db false with background := .done } := by
  have hrunning : ∀ db', callbacks s db' .running = if db = db' then 1 else 0 := by
    intro db'
    simp [callbacks, hb, Background.callbacks, Functor.callbacks]
  refine ⟨?_, ?_, by simp, ?_⟩
  · intro t
    cases t with
    | client i => exact h.owner (.client i)
    | background =>
      have := h.owner .background
      simpa [setScheduled, Holds, hb, Background.holds] using this
  · intro hs
    have hs : s.startbgthread = false := hs
    rw [h.there (by simp [hb]) (by simp [hb])] at hs
    cases hs
  · intro db'
    have hother : ∀ q, q ≠ Place.running →
        callbacks { setScheduled s db false with background := .done } db' q = callbacks s db' q := by
      intro q hq
      cases q with
      | client i => rfl
      | queued => rfl
      | running => exact absurd rfl hq
    show OneWhen _ (Function.update s.bgcompactionscheduled db false db')
    by_cases hdb : db' = db
    · subst hdb
      rw [Function.update_self]
      have hone := h.callback db'
      have hcount : callbacks s db' .running ≠ 0 := by simp [hrunning]
      rw [hone.flag hcount] at hone
      exact hone.drop hcount rfl hother
    · rw [Function.update_of_ne hdb]
      refine (h.callback db').congr ?_
      intro p
      by_cases hp : p = .running
      · subst hp
        rw [hrunning, if_neg (Ne.symm hdb)]
        rfl
      · exact hother p hp

theorem MaybeScheduleCompaction.flag {flag : Bool} {members : Members}
    (h : MaybeScheduleCompaction flag members = true) : flag = false := by
  cases flag with
  | false => rfl
  | true => cases h

theorem Inv.step (h : Inv s) {a : Action τ} (hs : EnvSchedule.step s a = .next s') : Inv s' := by
  cases a with
  | schedule i t =>
    simp only [EnvSchedule.step] at hs
    split at hs
    · rename_i hi
      cases hs
      refine h.client ?_ ?_ <;> simp [hi, Client.holds, Client.callbacks, Functor.callbacks]
    · cases hs
  | maybeSchedule i db members =>
    simp only [EnvSchedule.step] at hs
    split at hs
    · rename_i hi
      split at hs
      · rename_i hmaybe
        cases hs
        exact h.spawn hi (MaybeScheduleCompaction.flag hmaybe)
      · cases hs
        exact h
    · cases hs
  | exitSchedule i =>
    simp only [EnvSchedule.step] at hs
    split at hs
    · rename_i hi
      split at hs
      · cases hs
        have hclient : Inv (setClient s i (.schedule .empty true)) := by
          refine h.client ?_ ?_ <;> simp [hi, Client.holds, Client.callbacks, Functor.callbacks]
        exact ⟨hclient.owner, hclient.started, hclient.notLocked, hclient.callback⟩
      · cases hs
        exact h
    · cases hs
  | join i =>
    simp only [EnvSchedule.step] at hs
    split at hs
    · rename_i hi hb
      cases hs
      have hclient : Inv (setClient s i .idle) := by
        refine h.client ?_ ?_ <;> simp [hi, Client.holds, Client.callbacks]
      exact ⟨hclient.owner, fun _ => Or.inr hb, hclient.notLocked, hclient.callback⟩
    · cases hs
  | acquire t =>
    simp only [EnvSchedule.step] at hs
    split at hs
    · rename_i hfree
      exact h.acquire hfree hs
    · cases hs
  | push t => exact h.push hs
  | loop =>
    simp only [EnvSchedule.step] at hs
    split at hs
    · rename_i hb
      cases hs
      refine h.goesOn (by simp [hb]) (by simp [hb]) ?_ ?_ ?_
      · cases s.shuttingdown <;> simp [hb, Background.holds]
      · cases s.shuttingdown <;> simp [hb, Background.callbacks]
      · cases s.shuttingdown <;> simp
    · cases hs
  | test =>
    simp only [EnvSchedule.step] at hs
    split at hs
    · rename_i hb hq
      cases hs
      refine h.release ?_ rfl ?_ <;> simp [hb, Background.holds, Background.callbacks]
    · rename_i bgqueue hb hq
      cases hs
      exact h.take hb hq (Or.inr ⟨rfl, rfl⟩)
    · rename_i func bgqueue hne hb hq
      cases hs
      exact h.take hb hq (Or.inl rfl)
    · cases hs
  | call t =>
    simp only [EnvSchedule.step] at hs
    split at hs
    · rename_i u hb
      cases hs
      refine h.goesOn (by simp [hb]) (by simp [hb]) ?_ ?_ (by simp)
      · simp [hb, Background.holds]
      · simp [hb, Background.callbacks, Functor.callbacks]
    · cases hs
  | callback members =>
    simp only [EnvSchedule.step] at hs
    split at hs
    · rename_i db hb
      split at hs
      · split at hs
        · cases hs
          refine h.goesOn (by simp [hb]) (by simp [hb]) ?_ ?_ (by simp)
          · simp [hb, Background.holds]
          · simp [hb, Background.callbacks]
        · cases hs
          exact h.drop hb
      · cases hs
    · cases hs
  | finish =>
    simp only [EnvSchedule.step] at hs
    split at hs
    · rename_i t hb
      cases hs
      refine h.goesOn (by simp [hb]) (by simp [hb]) ?_ ?_ (by simp)
      · simp [hb, Background.holds]
      · simp [hb, Background.callbacks, Functor.callbacks]
    · cases hs
  | unlock =>
    simp only [EnvSchedule.step] at hs
    split at hs
    · rename_i hb
      cases hs
      refine h.release ?_ rfl ?_ <;> simp [hb, Background.holds, Background.callbacks]
    · cases hs

theorem run_inv {as : List (Action τ)} (hrun : run step init as = .next s) : Inv s :=
  @run_invariant _ _ _ _ (fun _ s => Inv s) _ inv_init (fun _ _ _ _ h _ hs => h.step hs) _ (meets_true init as) _ hrun

/-! ### The queue and the calls of tasks -/

/-- The task that runs calls `Schedule`.  The callback does when there is more work at its end. -/
def CallsSchedule (s : State τ) : Action τ → Prop
  | .call _ => ∃ t, s.background = .body (.task t)
  | .callback members =>
    ∃ db, s.background = .body (.BackgroundCallback db) ∧ MaybeScheduleCompaction false members = true
  | _ => False

/-- A step of a client outside the mutex, one that ends a call of `Schedule` by a client or by a task, one that begins
such a call by a task, or another step of the background thread. -/
theorem step_cases {a : Action τ} (hs : step s a = .next s') :
    (s'.background = s.background ∧ s'.bgqueue = s.bgqueue) ∨
    (∃ i func exiting, s.clients i = .locked func exiting ∧ s'.bgqueue = s.bgqueue ++ [func] ∧
      s'.background = if s.startbgthread then s.background else .loop) ∨
    (∃ func called, s.background = .locked func called ∧ s'.bgqueue = s.bgqueue ++ [called] ∧
      s'.background = Background.after func) ∨
    (CallsSchedule s a ∧ s'.bgqueue = s.bgqueue ∧ ∃ func called, s'.background = .schedule func called) ∨
    ((∀ func called, s'.background ≠ .schedule func called) ∧ (∃ n, s'.bgqueue = s.bgqueue.drop n) ∧
      ((∀ func called, s.background ≠ .schedule func called) ∨ s.bgmutex = none)) := by
  cases a with
  | schedule i t =>
    simp only [step] at hs
    split at hs <;> cases hs
    exact Or.inl ⟨rfl, rfl⟩
  | maybeSchedule i db members =>
    simp only [step] at hs
    split at hs
    · split at hs <;> cases hs <;> exact Or.inl ⟨rfl, rfl⟩
    · cases hs
  | exitSchedule i =>
    simp only [step] at hs
    split at hs
    · split at hs <;> cases hs <;> exact Or.inl ⟨rfl, rfl⟩
    · cases hs
  | join i =>
    simp only [step] at hs
    split at hs <;> cases hs
    exact Or.inl ⟨rfl, rfl⟩
  | acquire t =>
    simp only [step] at hs
    split at hs
    · rename_i hfree
      unfold acquire at hs
      cases t with
      | client i =>
        dsimp only at hs
        split at hs <;> cases hs
        exact Or.inl ⟨rfl, rfl⟩
      | background =>
        dsimp only at hs
        split at hs <;> cases hs <;> exact Or.inr (Or.inr (Or.inr (Or.inr ⟨by simp, ⟨0, rfl⟩, Or.inr hfree⟩)))
    · cases hs
  | push t =>
    simp only [step] at hs
    unfold push at hs
    cases t with
    | client i =>
      dsimp only at hs
      split at hs
      · rename_i func exiting hi
        cases hs
        exact Or.inr (Or.inl ⟨i, func, exiting, hi, rfl, rfl⟩)
      · cases hs
    | background =>
      dsimp only at hs
      split at hs
      · rename_i func called hb
        cases hs
        exact Or.inr (Or.inr (Or.inl ⟨func, called, hb, rfl, rfl⟩))
      · cases hs
  | loop =>
    simp only [step] at hs
    split at hs
    · rename_i hb
      cases hs
      refine Or.inr (Or.inr (Or.inr (Or.inr ⟨?_, ⟨0, rfl⟩, Or.inl (by simp [hb])⟩)))
      cases s.shuttingdown <;> simp
    · cases hs
  | test =>
    simp only [step] at hs
    split at hs
    · rename_i hb hq
      cases hs
      exact Or.inr (Or.inr (Or.inr (Or.inr ⟨by simp, ⟨0, rfl⟩, Or.inl (by simp [hb])⟩)))
    · rename_i bgqueue hb hq
      cases hs
      exact Or.inr (Or.inr (Or.inr (Or.inr ⟨by simp, ⟨1, by simp [hq]⟩, Or.inl (by simp [hb])⟩)))
    · rename_i func bgqueue hne hb hq
      cases hs
      exact Or.inr (Or.inr (Or.inr (Or.inr ⟨by simp, ⟨1, by simp [hq]⟩, Or.inl (by simp [hb])⟩)))
    · cases hs
  | call t =>
    simp only [step] at hs
    split at hs
    · rename_i u hb
      cases hs
      exact Or.inr (Or.inr (Or.inr (Or.inl ⟨⟨u, hb⟩, rfl, _, _, rfl⟩)))
    · cases hs
  | callback members =>
    simp only [step] at hs
    split at hs
    · rename_i db hb
      split at hs
      · split at hs
        · rename_i hmaybe
          cases hs
          exact Or.inr (Or.inr (Or.inr (Or.inl ⟨⟨db, hb, hmaybe⟩, rfl, _, _, rfl⟩)))
        · cases hs
          exact Or.inr (Or.inr (Or.inr (Or.inr ⟨by simp, ⟨0, rfl⟩, Or.inl (by simp [hb])⟩)))
      · cases hs
    · cases hs
  | finish =>
    simp only [step] at hs
    split at hs
    · rename_i t hb
      cases hs
      exact Or.inr (Or.inr (Or.inr (Or.inr ⟨by simp, ⟨0, rfl⟩, Or.inl (by simp [hb])⟩)))
    · cases hs
  | unlock =>
    simp only [step] at hs
    split at hs
    · rename_i hb
      cases hs
      exact Or.inr (Or.inr (Or.inr (Or.inr ⟨by simp, ⟨0, rfl⟩, Or.inl (by simp [hb])⟩)))
    · cases hs

/-- A task that calls `Schedule` waits for the mutex, and has it. -/
theorem Inv.callsSchedule (h : Inv s) {a : Action τ} (ha : CallsSchedule s a) : ∃ s' func called,
    EnvSchedule.step s a = .next s' ∧ s'.background = .schedule func called ∧ s'.bgmutex = some .background := by
  cases a with
  | call t =>
    obtain ⟨u, hb⟩ := ha
    have hmutex := (h.owner .background).2 (by simp [Holds, hb, Background.holds])
    exact ⟨{ s with background := .schedule (.task u) (.task t) }, .task u, .task t, by simp [EnvSchedule.step, hb],
      rfl, hmutex⟩
  | callback members =>
    obtain ⟨db, hb, hmaybe⟩ := ha
    have hmutex := (h.owner .background).2 (by simp [Holds, hb, Background.holds])
    have hset : s.bgcompactionscheduled db = true := by
      refine (h.callback db).flag (p := .running) ?_
      simp [callbacks, hb, Background.callbacks, Functor.callbacks]
    exact ⟨{ s with background := .schedule (.BackgroundCallback db) (.BackgroundCallback db) },
      .BackgroundCallback db, .BackgroundCallback db, by simp [EnvSchedule.step, hb, hset, hmaybe], rfl, hmutex⟩
  | _ => exact absurd ha id

/-! ### Calls of `Schedule` from inside a task -/

/-- In every state reached no thread waits for a mutex that it has, and a task that calls `Schedule` can go on until
the call returns, which leaves the new functor in the queue. -/
structure CallsReturn (as : List (Action τ)) : Prop where
  noSelfLock : ∀ before s t, before <+: as → run step init before = .next s → Acquires s t → s.bgmutex ≠ some t
  returns : ∀ before s func called, before <+: as → run step init before = .next s →
    s.background = .schedule func called →
    ∃ more s', run step s more = .next s' ∧ s'.background = Background.after func ∧ called ∈ s'.bgqueue

/-- The task that runs is in no call of `Schedule`. -/
def Quiet (s : State τ) : Prop := ∀ func called, s.background ≠ .schedule func called

theorem Quiet.step (h : Quiet s) {a : Action τ} (ha : ¬ CallsSchedule s a)
    (hs : EnvSchedule.step s a = .next s') : Quiet s' := by
  intro func called
  rcases step_cases hs with ⟨hb, -⟩ | ⟨i, func', exiting, -, -, hb⟩ | ⟨func', called', -, -, hb⟩ | ⟨hcalls, -⟩ |
    ⟨hother, -, -⟩
  · rw [hb]
    exact h func called
  · rw [hb]
    split
    · exact h func called
    · simp
  · rw [hb]
    cases func' <;> simp [Background.after]
  · exact absurd hcalls ha
  · exact hother func called

theorem quiet_init : Quiet (init : State τ) := by
  intro func called hb
  cases hb

theorem run_quiet {as : List (Action τ)} (hmeets : Meets step (fun s a => ¬ CallsSchedule s a) init as)
    (hrun : run step init as = .next s) : Quiet s :=
  @run_invariant _ _ _ _ (fun _ s => Quiet s) _ quiet_init (fun _ _ _ _ h ha hs => h.step ha hs) _ hmeets _ hrun

/-- A thread waits for a mutex of its own exactly when a task calls `Schedule`. -/
theorem noSelfLock_iff (as : List (Action τ)) :
    CallsReturn as ↔ Meets step (fun s a => ¬ CallsSchedule s a) init as := by
  constructor
  · intro h
    refine meets_of_forall ?_
    rintro before a after rfl s hrun ha
    obtain ⟨s', func, called, hs, hb, hmutex⟩ := (run_inv hrun).callsSchedule ha
    have hnext : run step init (before ++ [a]) = .next s' := by
      rw [run_append, hrun]
      simp [Outcome.bind, run, hs]
    exact h.noSelfLock (before ++ [a]) s' .background ⟨after, by simp⟩ hnext
      (Or.inr (Or.inr ⟨func, called, hb⟩)) hmutex
  · intro h
    have hquiet : ∀ before s, before <+: as → run step init before = .next s → Quiet s := by
      rintro before s ⟨after, rfl⟩ hrun
      exact run_quiet h.append.1 hrun
    refine ⟨?_, ?_⟩
    · intro before s t hbefore hrun hacq hmutex
      have hholds := ((run_inv hrun).owner t).1 hmutex
      cases t with
      | client i =>
        obtain ⟨func, exiting, hi⟩ := hacq
        simp [Holds, hi, Client.holds] at hholds
      | background =>
        rcases hacq with hb | hb | ⟨func, called, hb⟩
        · simp [Holds, hb, Background.holds] at hholds
        · simp [Holds, hb, Background.holds] at hholds
        · exact hquiet before s hbefore hrun func called hb
    · intro before s func called hbefore hrun hb
      exact absurd hb (hquiet before s hbefore hrun func called)

/-- A database with more work after its compaction. -/
def moreWork : Members := ⟨false, false, false, false, true⟩

/-- A write schedules a compaction, which leaves more work. -/
def selfLock : List (Action ℕ) :=
  [.maybeSchedule 0 0 moreWork, .acquire (.client 0), .push (.client 0), .loop, .acquire .background, .test,
    .callback moreWork]

/-- The callback waits for `bgmutex`, which its own thread has. -/
theorem backgroundCallback_selfLock : ¬ ∀ as : List (Action ℕ), CallsReturn as := by
  intro h
  exact (h selfLock).noSelfLock selfLock _ .background (List.prefix_refl _) rfl (Or.inr (Or.inr ⟨_, _, rfl⟩)) rfl

end RedisDb.EnvSchedule
