import SwissArmyKnife.Lib.Transition
import SwissArmyKnife.Lib.Wheel
import Mathlib.Data.List.TakeWhile

/-!
# Idle connections

`TimeWheel` keeps an entry for each connection in the buckets of a ring, one bucket for each second.  A connection is
shut down when its entry is destroyed, that is after `idleSeconds` ticks in a row before which nothing came from it
(`run_shutdown`).
-/

namespace IdleConnection

open Transition (Outcome run)

/-- An entry is given by the number of its connection.  `shutdowns` are the calls of `shutdown` so far. -/
structure TimeWheel where
  connectionBuckets : List (List ℕ)
  connections : List ℕ
  destroyed : List ℕ
  shutdowns : List ℕ
deriving DecidableEq, Repr

inductive Event where
  | connect (conn : ℕ)
  | disconnect (conn : ℕ)
  | message (conn : ℕ)
  | timer
deriving DecidableEq, Repr

namespace TimeWheel

def new (idleSeconds : ℕ) : TimeWheel := ⟨List.replicate idleSeconds [], [], [], []⟩

/-- The weak pointer to the entry can be locked. -/
def entryAlive (w : TimeWheel) (conn : ℕ) : Bool := w.connectionBuckets.any fun bucket => conn ∈ bucket

/-- There is no last bucket when there are no buckets. -/
def insert (w : TimeWheel) (conn : ℕ) : Outcome TimeWheel :=
  if w.connectionBuckets = [] then .aborted
  else .next { w with connectionBuckets := Wheel.put conn w.connectionBuckets }

def onMessage (w : TimeWheel) (conn : ℕ) : Outcome TimeWheel := if w.entryAlive conn then w.insert conn else .next w

/-- The ring drops its first bucket when it is full, and a ring without room takes none.  The destructor of an entry
shuts the connection down if it is still there. -/
def onTimer (w : TimeWheel) : TimeWheel :=
  if w.connectionBuckets = [] then w
  else { w with
    connectionBuckets := Wheel.turn w.connectionBuckets
    shutdowns := w.shutdowns ++ (Wheel.expired w.connectionBuckets).filter (· ∉ w.destroyed) }

/-- Every connection is a new one, and there are no messages after it has been destroyed. -/
def step (w : TimeWheel) : Event → Outcome TimeWheel
  | .connect conn =>
    if conn ∈ w.connections then .disabled else { w with connections := w.connections ++ [conn] }.insert conn
  | .disconnect conn =>
    if conn ∈ w.connections ∧ conn ∉ w.destroyed then .next { w with destroyed := w.destroyed ++ [conn] } else
      .disabled
  | .message conn => if conn ∈ w.connections ∧ conn ∉ w.destroyed then w.onMessage conn else .disabled
  | .timer => .next w.onTimer

end TimeWheel

/-! ### Quiet connections -/

/-- Something comes from the connection. -/
def Event.comesFrom (conn : ℕ) : Event → Bool
  | .connect c | .message c => c = conn
  | .disconnect _ | .timer => false

/-- The ticks since something came from the connection. -/
def quiet (conn : ℕ) (events : List Event) : ℕ := (events.reverse.takeWhile fun e => !e.comesFrom conn).count .timer

/-- So many ticks have come and nothing from the connection in between, and the events up to then satisfy `P`. -/
def Idle (idleSeconds conn : ℕ) (P : List Event → Prop) (events : List Event) : Prop :=
  ∃ before during after, events = before ++ during ++ after ∧ .connect conn ∈ before ∧
    (∀ e ∈ during, e.comesFrom conn = false) ∧ idleSeconds ≤ during.count .timer ∧ P (before ++ during)

theorem quiet_append (conn : ℕ) (events : List Event) (e : Event) : quiet conn (events ++ [e]) =
    if e.comesFrom conn then 0 else quiet conn events + if e = .timer then 1 else 0 := by
  rw [quiet, List.reverse_append, List.reverse_singleton, List.singleton_append, List.takeWhile_cons]
  cases hfrom : e.comesFrom conn with
  | true => rfl
  | false =>
    simp only [Bool.not_false, if_true, Bool.false_eq_true, if_false, List.count_cons, beq_iff_eq]
    rfl

section Windows

variable {idleSeconds conn : ℕ} {P : List Event → Prop} {events : List Event} {e : Event}

theorem le_quiet {before during : List Event} (h : ∀ e ∈ during, e.comesFrom conn = false) :
    during.count .timer ≤ quiet conn (before ++ during) := by
  rw [quiet, List.reverse_append, List.takeWhile_append_of_pos fun e he => by simpa using h e (List.mem_reverse.1 he),
    List.count_append, List.count_reverse]
  exact Nat.le_add_right ..

/-- Where the connection has been quiet up to now. -/
theorem exists_quiet (h : .connect conn ∈ events) :
    ∃ before during, events = before ++ during ∧ .connect conn ∈ before ∧
    (∀ e ∈ during, e.comesFrom conn = false) ∧ during.count .timer = quiet conn events := by
  have hsplit := congrArg List.reverse
    (List.takeWhile_append_dropWhile (p := fun e : Event => !e.comesFrom conn) (l := events.reverse))
  rw [List.reverse_append, List.reverse_reverse] at hsplit
  have hduring : ∀ e ∈ (events.reverse.takeWhile fun e => !e.comesFrom conn).reverse, e.comesFrom conn = false := by
    intro e he
    simpa using List.mem_takeWhile_imp (List.mem_reverse.1 he)
  refine ⟨_, _, hsplit.symm, ?_, hduring, by rw [List.count_reverse]; rfl⟩
  rw [← hsplit] at h
  refine (List.mem_append.1 h).resolve_right fun hmem => ?_
  have hfrom := hduring _ hmem
  simp [Event.comesFrom] at hfrom

theorem idle_append : Idle idleSeconds conn P (events ++ [e]) ↔ Idle idleSeconds conn P events ∨
    .connect conn ∈ events ++ [e] ∧ idleSeconds ≤ quiet conn (events ++ [e]) ∧ P (events ++ [e]) := by
  constructor
  · rintro ⟨before, during, after, hsplit, hconnect, hduring, hle, hP⟩
    rcases List.eq_nil_or_concat' after with rfl | ⟨after, last, rfl⟩
    · rw [List.append_nil] at hsplit
      rw [hsplit]
      exact Or.inr ⟨List.mem_append_left _ hconnect, Nat.le_trans hle (le_quiet hduring), hP⟩
    · rw [← List.append_assoc] at hsplit
      exact Or.inl ⟨before, during, after, (List.append_inj' hsplit rfl).1, hconnect, hduring, hle, hP⟩
  · rintro (⟨before, during, after, rfl, hrest⟩ | ⟨hconnect, hle, hP⟩)
    · exact ⟨before, during, after ++ [e], by simp, hrest⟩
    · obtain ⟨before, during, hsplit, hbefore, hduring, hcount⟩ := exists_quiet hconnect
      exact ⟨before, during, [], by rw [hsplit, List.append_nil], hbefore, hduring, hcount ▸ hle, hsplit ▸ hP⟩

theorem Idle.connect_mem (h : Idle idleSeconds conn P events) : .connect conn ∈ events := by
  obtain ⟨before, during, after, rfl, hconnect, -⟩ := h
  exact List.mem_append_left _ (List.mem_append_left _ hconnect)

/-- A connection that is quiet for so long is idle. -/
theorem idle_of_quiet (h : .connect conn ∈ events) (hle : idleSeconds ≤ quiet conn events) (hP : P events) :
    Idle idleSeconds conn P events := by
  obtain ⟨before, during, rfl, hbefore, hduring, hcount⟩ := exists_quiet h
  exact ⟨before, during, [], (List.append_nil _).symm, hbefore, hduring, hcount ▸ hle, hP⟩

theorem Idle.mono {Q : List Event → Prop} (h : Idle idleSeconds conn P events)
    (himp : ∀ front, front <+: events → P front → Q front) : Idle idleSeconds conn Q events := by
  obtain ⟨before, during, after, rfl, hconnect, hduring, hle, hP⟩ := h
  exact ⟨before, during, after, rfl, hconnect, hduring, hle, himp _ (List.prefix_append ..) hP⟩

/-- Only a tick makes a connection idle. -/
theorem idle_append_of_ne (hidle : 0 < idleSeconds) (he : e ≠ .timer) (hP : P (events ++ [e]) → P events) :
    Idle idleSeconds conn P (events ++ [e]) ↔ Idle idleSeconds conn P events := by
  rw [idle_append, quiet_append]
  refine ⟨?_, Or.inl⟩
  rintro (h | ⟨hconnect, hle, hP'⟩)
  · exact h
  · cases hfrom : e.comesFrom conn with
    | true =>
      rw [if_pos hfrom] at hle
      omega
    | false =>
      have hmem : .connect conn ∈ events := by
        refine (List.mem_append.1 hconnect).resolve_right fun hlast => ?_
        obtain rfl := List.mem_singleton.1 hlast
        simp [Event.comesFrom] at hfrom
      rw [if_neg (by simp [hfrom]), if_neg he] at hle
      exact idle_of_quiet hmem hle (hP hP')

theorem idle_append_timer : Idle idleSeconds conn P (events ++ [.timer]) ↔ Idle idleSeconds conn P events ∨
    .connect conn ∈ events ∧ idleSeconds ≤ quiet conn events + 1 ∧ P (events ++ [.timer]) := by
  rw [idle_append, quiet_append]
  simp [Event.comesFrom]

end Windows

/-! ### Runs -/

namespace TimeWheel

/-- The entries are in the buckets as long as their connections are not idle, and the connections that were idle while
they were there have been shut down. -/
structure Inv (idleSeconds : ℕ) (events : List Event) (w : TimeWheel) : Prop where
  length : w.connectionBuckets.length = idleSeconds
  connections : ∀ conn, conn ∈ w.connections ↔ .connect conn ∈ events
  destroyed : ∀ conn, conn ∈ w.destroyed ↔ .disconnect conn ∈ events
  present : ∀ conn, .connect conn ∈ events → ¬ Idle idleSeconds conn (fun _ => True) events →
    Wheel.left conn w.connectionBuckets + quiet conn events = idleSeconds
  absent : ∀ conn, .connect conn ∉ events ∨ Idle idleSeconds conn (fun _ => True) events →
    Wheel.left conn w.connectionBuckets = 0
  shutdowns : ∀ conn, conn ∈ w.shutdowns ↔ Idle idleSeconds conn (fun events => .disconnect conn ∉ events) events
  nodup : w.shutdowns.Nodup

variable {idleSeconds : ℕ} {events : List Event} {w w' : TimeWheel}

theorem Inv.init (idleSeconds : ℕ) : Inv idleSeconds [] (new idleSeconds) where
  length := List.length_replicate ..
  connections := by simp [new]
  destroyed := by simp [new]
  present := by simp
  absent := by
    intro conn _
    rw [Wheel.left_eq_zero]
    intro bucket hbucket
    rw [List.eq_of_mem_replicate hbucket]
    simp
  shutdowns := by
    intro conn
    refine ⟨by simp [new], fun h => absurd h.connect_mem (by simp)⟩
  nodup := List.nodup_nil

/-- An event that is not a tick makes no connection idle. -/
theorem Inv.idle_iff (hidle : 0 < idleSeconds) {e : Event} (he : e ≠ .timer) (conn : ℕ) :
    (Idle idleSeconds conn (fun _ => True) (events ++ [e]) ↔ Idle idleSeconds conn (fun _ => True) events) ∧
    (Idle idleSeconds conn (fun events => .disconnect conn ∉ events) (events ++ [e]) ↔
      Idle idleSeconds conn (fun events => .disconnect conn ∉ events) events) :=
  ⟨idle_append_of_ne hidle he fun _ => trivial, idle_append_of_ne hidle he fun h hmem =>
    h (List.mem_append_left _ hmem)⟩

/-- The entry of a connection is put into the newest bucket. -/
theorem Inv.put (hidle : 0 < idleSeconds) (h : Inv idleSeconds events w) {e : Event} {conn : ℕ}
    (he : ∀ c, e.comesFrom c = decide (conn = c)) (hnot : e ≠ .timer) (hdisconnect : ∀ c, e ≠ .disconnect c)
    (hfresh : ¬ Idle idleSeconds conn (fun _ => True) events) (hconnect : .connect conn ∈ events ++ [e])
    (hconnects : ∀ c, c ≠ conn → e ≠ .connect c) {connections : List ℕ}
    (hconnections : ∀ c, c ∈ connections ↔ .connect c ∈ events ++ [e]) :
    Inv idleSeconds (events ++ [e])
      { w with connections := connections, connectionBuckets := Wheel.put conn w.connectionBuckets } := by
  have hne : w.connectionBuckets ≠ [] := List.length_pos_iff.1 (by rw [h.length]; exact hidle)
  have hmem : ∀ c, c ≠ conn → (.connect c ∈ events ++ [e] ↔ .connect c ∈ events) := by
    intro c hc
    simp [(hconnects c hc).symm]
  refine ⟨by rw [Wheel.length_put, h.length], hconnections, ?_, ?_, ?_, ?_, h.nodup⟩
  · intro c
    rw [h.destroyed]
    simp [(hdisconnect c).symm]
  · intro c hc hlive
    rw [(idle_iff hidle hnot c).1] at hlive
    rw [quiet_append, he c]
    by_cases heq : conn = c
    · subst heq
      rw [Wheel.left_put_self hne, h.length]
      simp
    · rw [Wheel.left_put_of_ne (Ne.symm heq)]
      simpa [heq, hnot] using h.present c ((hmem c (Ne.symm heq)).1 hc) hlive
  · intro c hc
    rw [(idle_iff hidle hnot c).1] at hc
    by_cases heq : conn = c
    · subst heq
      rcases hc with hc | hc
      · exact absurd hconnect hc
      · exact absurd hc hfresh
    · rw [Wheel.left_put_of_ne (Ne.symm heq)]
      exact h.absent c (hc.imp_left fun hc hmem' => hc ((hmem c (Ne.symm heq)).2 hmem'))
  · intro c
    rw [(idle_iff hidle hnot c).2]
    exact h.shutdowns c

/-- Nothing happens to the entries. -/
theorem Inv.same (hidle : 0 < idleSeconds) (h : Inv idleSeconds events w) {e : Event} (hnot : e ≠ .timer)
    (hconnects : ∀ c, e ≠ .connect c) (hquiet : ∀ c, e.comesFrom c = true → Idle idleSeconds c (fun _ => True) events)
    {destroyed : List ℕ} (hdestroyed : ∀ c, c ∈ destroyed ↔ .disconnect c ∈ events ++ [e]) :
    Inv idleSeconds (events ++ [e]) { w with destroyed := destroyed } := by
  have hmem : ∀ c, .connect c ∈ events ++ [e] ↔ .connect c ∈ events := by
    intro c
    simp [(hconnects c).symm]
  refine ⟨h.length, fun c => (h.connections c).trans (hmem c).symm, hdestroyed, ?_, ?_, ?_, h.nodup⟩
  · intro c hc hlive
    rw [(idle_iff hidle hnot c).1] at hlive
    have hfrom : ¬ e.comesFrom c = true := fun hfrom => hlive (hquiet c hfrom)
    rw [quiet_append, if_neg hfrom, if_neg hnot]
    exact h.present c ((hmem c).1 hc) hlive
  · intro c hc
    rw [hmem, (idle_iff hidle hnot c).1] at hc
    exact h.absent c hc
  · intro c
    rw [(idle_iff hidle hnot c).2]
    exact h.shutdowns c

theorem Inv.timer (hidle : 0 < idleSeconds) (h : Inv idleSeconds events w) :
    Inv idleSeconds (events ++ [.timer]) w.onTimer := by
  have hne : w.connectionBuckets ≠ [] := List.length_pos_iff.1 (by rw [h.length]; exact hidle)
  have hquiet : ∀ c, quiet c (events ++ [.timer]) = quiet c events + 1 := fun c => by
    rw [quiet_append]
    rfl
  -- the connections whose entries are destroyed now
  have hexpired : ∀ c, c ∈ Wheel.expired w.connectionBuckets ↔ .connect c ∈ events ∧
      ¬ Idle idleSeconds c (fun _ => True) events ∧ idleSeconds ≤ quiet c events + 1 := by
    intro c
    rw [Wheel.mem_expired]
    constructor
    · intro hleft
      have hlive : .connect c ∈ events ∧ ¬ Idle idleSeconds c (fun _ => True) events := by
        by_contra hdead
        have hzero := h.absent c (by tauto)
        omega
      have hpresent := h.present c hlive.1 hlive.2
      exact ⟨hlive.1, hlive.2, by omega⟩
    · rintro ⟨hconnect, hlive, hle⟩
      have hpresent := h.present c hconnect hlive
      have hlt : quiet c events < idleSeconds := by
        by_contra hge
        exact hlive (idle_of_quiet hconnect (by omega) trivial)
      omega
  rw [onTimer, if_neg hne]
  refine ⟨by rw [Wheel.length_turn hne, h.length], ?_, ?_, ?_, ?_, ?_, ?_⟩
  · intro c
    rw [h.connections]
    simp
  · intro c
    rw [h.destroyed]
    simp
  · intro c hc hlive
    rw [idle_append_timer, not_or] at hlive
    have hconnect : .connect c ∈ events := by simpa using hc
    have hpresent := h.present c hconnect hlive.1
    have hlt : ¬ idleSeconds ≤ quiet c events + 1 := fun hle => hlive.2 ⟨hconnect, hle, trivial⟩
    rw [Wheel.left_turn, hquiet]
    omega
  · intro c hc
    rw [Wheel.left_turn]
    by_cases hdead : .connect c ∉ events ∨ Idle idleSeconds c (fun _ => True) events
    · rw [h.absent c hdead]
    · simp only [not_or, not_not] at hdead
      rw [idle_append_timer] at hc
      have hle : idleSeconds ≤ quiet c events + 1 := by
        rcases hc with hc | hc | hc
        · exact absurd (List.mem_append_left _ hdead.1) hc
        · exact absurd hc hdead.2
        · exact hc.2.1
      have hleft := (Wheel.mem_expired).1 ((hexpired c).2 ⟨hdead.1, hdead.2, hle⟩)
      omega
  · intro c
    rw [List.mem_append, List.mem_filter, hexpired, h.shutdowns, idle_append_timer, decide_eq_true_eq, h.destroyed]
    have hnot : .disconnect c ∉ events ++ [.timer] ↔ .disconnect c ∉ events := by simp
    rw [hnot]
    constructor
    · rintro (hidle' | ⟨⟨hconnect, -, hle⟩, hthere⟩)
      · exact Or.inl hidle'
      · exact Or.inr ⟨hconnect, hle, hthere⟩
    · rintro (hidle' | ⟨hconnect, hle, hthere⟩)
      · exact Or.inl hidle'
      · by_cases hdead : Idle idleSeconds c (fun _ => True) events
        · exact Or.inl (hdead.mono fun front hfront _ hmem => hthere (hfront.subset hmem))
        · exact Or.inr ⟨⟨hconnect, hdead, hle⟩, hthere⟩
  · refine List.nodup_append.2 ⟨h.nodup, (Wheel.nodup_expired _).filter _, ?_⟩
    rintro c hc c' hc' rfl
    obtain ⟨-, hlive, -⟩ := (hexpired c).1 (List.mem_filter.1 hc').1
    exact hlive (((h.shutdowns c).1 hc).mono fun _ _ _ => trivial)

theorem Inv.step (hidle : 0 < idleSeconds) (h : Inv idleSeconds events w) {e : Event} (hstep : w.step e = .next w') :
    Inv idleSeconds (events ++ [e]) w' := by
  have hne : w.connectionBuckets ≠ [] := List.length_pos_iff.1 (by rw [h.length]; exact hidle)
  cases e with
  | connect conn =>
    rw [TimeWheel.step] at hstep
    split at hstep
    · cases hstep
    · rename_i hnew
      rw [insert, if_neg hne] at hstep
      cases hstep
      have hnew' : .connect conn ∉ events := fun hmem => hnew ((h.connections conn).2 hmem)
      refine h.put hidle (fun c => rfl) (by simp) (by simp) (fun hidle' => hnew' hidle'.connect_mem) (by simp)
        (fun c hc heq => hc (by simpa using heq.symm)) fun c => ?_
      rw [List.mem_append, List.mem_append, h.connections]
      simp [eq_comm]
  | disconnect conn =>
    rw [TimeWheel.step] at hstep
    split at hstep
    · cases hstep
      refine h.same hidle (by simp) (by simp) (by simp [Event.comesFrom]) fun c => ?_
      rw [List.mem_append, List.mem_append, h.destroyed]
      simp [eq_comm]
    · cases hstep
  | message conn =>
    rw [TimeWheel.step] at hstep
    split at hstep
    · rename_i hthere
      have hconnect := (h.connections conn).1 hthere.1
      have halive : w.entryAlive conn = true ↔ Wheel.left conn w.connectionBuckets ≠ 0 := by
        rw [Ne, Wheel.left_eq_zero, entryAlive, List.any_eq_true]
        simp
      rw [onMessage] at hstep
      split at hstep
      · rename_i hentry
        rw [insert, if_neg hne] at hstep
        cases hstep
        refine h.put hidle (fun c => rfl) (by simp) (by simp) (fun hdead => ?_)
          (List.mem_append_left _ hconnect) (by simp)
          fun c => ?_
        · exact (halive.1 hentry) (h.absent conn (Or.inr hdead))
        · rw [h.connections]
          simp
      · rename_i hentry
        cases hstep
        have hdead : Idle idleSeconds conn (fun _ => True) events := by
          by_contra hlive
          have hpresent := h.present conn hconnect hlive
          have hzero : Wheel.left conn w.connectionBuckets = 0 := by
            by_contra hleft
            exact hentry (halive.2 hleft)
          exact hlive (idle_of_quiet hconnect (by omega) trivial)
        refine h.same hidle (by simp) (by simp) (fun c hfrom => ?_) fun c => ?_
        · have heq : conn = c := by simpa [Event.comesFrom] using hfrom
          rwa [← heq]
        · rw [h.destroyed]
          simp
    · cases hstep
  | timer =>
    cases hstep
    exact h.timer hidle

/-- A connection is shut down just when `idleSeconds` ticks have come while it was there and nothing from it in
between, and only once. -/
theorem run_shutdown (hidle : 0 < idleSeconds) (hrun : run TimeWheel.step (new idleSeconds) events = .next w) :
    w.shutdowns.Nodup ∧ ∀ conn, conn ∈ w.shutdowns ↔
      Idle idleSeconds conn (fun events => .disconnect conn ∉ events) events := by
  have hinv : Inv idleSeconds events w := Transition.run_invariant (P := fun _ _ => True) (Inv.init idleSeconds)
    (fun _ _ _ _ hinv _ hstep => hinv.step hidle hstep) (Transition.meets_true _ _) hrun
  exact ⟨hinv.nodup, hinv.shutdowns⟩

/-- The message of the second connection comes in time. -/
theorem run_shutdown_two : ∃ w, run TimeWheel.step (new 2)
      [.connect 0, .timer, .connect 1, .timer, .message 1, .disconnect 1, .timer, .timer] = .next w ∧
    w.shutdowns = [0] ∧ ∀ conn, conn ∈ [0] ↔ Idle 2 conn (fun events => .disconnect conn ∉ events)
      [.connect 0, .timer, .connect 1, .timer, .message 1, .disconnect 1, .timer, .timer] := by
  obtain ⟨w, hrun, hshutdowns⟩ : ∃ w, run TimeWheel.step (new 2)
      [.connect 0, .timer, .connect 1, .timer, .message 1, .disconnect 1, .timer, .timer] = .next w ∧
      w.shutdowns = [0] := ⟨_, rfl, by decide⟩
  exact ⟨w, hrun, hshutdowns, hshutdowns ▸ (run_shutdown (by decide) hrun).2⟩

end TimeWheel

end IdleConnection
