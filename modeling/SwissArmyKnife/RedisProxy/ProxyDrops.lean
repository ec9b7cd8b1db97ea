import SwissArmyKnife.RedisProxy.ProxyRuns

/-!
# Requests that are dropped

After a failure, and on a descriptor that is used again, every request is answered by its own reply, as long as no
late reply has a number that is waited for again.
-/

namespace RedisProxy

open Transition (Meets Outcome run)

variable (protocol : Protocol)

/-- Every connection has got the replies to its commands since the last ones were dropped, all of them when none of
its requests is in flight, and nothing before its first command. -/
def Served (s : State) : Prop :=
  ∀ sockfd c, s.conns sockfd = some c →
    c.output = c.base ++ delivered protocol c.slots ∧ (c.epoch = 0 → c.base = []) ∧
      ((∀ e ∈ s.inFlight, ¬ Fresh sockfd c e.2) → ∀ slot ∈ c.slots, slot.reply protocol ≠ none)

/-- The request has been dropped, or its connection is closed. -/
def Late (s : State) (q : RedisCluster) : Prop := ∀ c, s.conns q.sockfd = some c → ¬ Fresh q.sockfd c q

variable {protocol} {cluster : Bool} {s : State}

theorem Sound.served (h : Sound protocol cluster s) : Served protocol s := by
  intro sockfd c hc
  obtain ⟨first, hk⟩ := h.1.kept sockfd c hc
  exact ⟨h.output_eq hc, hk.base, h.reply_ne_none hc⟩

/-- A late reply changes nothing. -/
theorem step_late {backend : ℕ} {reply : RedisReply} {e : ℕ × RedisCluster} (he : nextRequest s backend = some e)
    (hlate : Late s e.2) (hsettled : Settled s (.reply backend (some reply))) :
    step protocol cluster s (.reply backend (some reply)) = .next (popRequest s backend) := by
  simp only [step, he]
  have hself : proxyCallback protocol e.2 reply (popRequest s backend) = popRequest s backend :=
    proxyCallback_eq_self fun c hc hserial => ⟨hlate c hc, hsettled e he c hc hserial (hlate c hc)⟩
  rw [hself]

theorem onConnection_ne_aborted (s : State) (sockfd : ℕ) (f : TcpConnection → State) :
    onConnection s sockfd f ≠ .aborted := by
  rw [onConnection]
  cases s.conns sockfd <;> simp

theorem step_ne_aborted {a : Action} (hsettled : Settled s a) : step protocol cluster s a ≠ .aborted := by
  cases a with
  | connect sockfd =>
    simp only [step]
    cases s.conns sockfd <;> simp
  | forward sockfd command backend =>
    simp only [step]
    split_ifs
    · simp
    · exact onConnection_ne_aborted s sockfd _
  | fanOut sockfd f backends =>
    simp only [step]
    split_ifs
    · exact onConnection_ne_aborted s sockfd _
    · simp
  | keys sockfd keys =>
    simp only [step]
    split_ifs
    · exact onConnection_ne_aborted s sockfd _
    · simp
  | reply backend reply =>
    cases reply with
    | none => exact hsettled.elim
    | some reply =>
      simp only [step]
      cases nextRequest s backend <;> simp
  | backendDown => simp [step]
  | _ => exact onConnection_ne_aborted s _ _

/-- In the runs in which no late reply has a number that is waited for again, no null pointer is read, every request
is answered by its own reply, and late replies change nothing. -/
theorem run_served (protocol : Protocol) (cluster : Bool) {actions : List Action}
    (hmeets : Meets (step protocol cluster) (fun s a => Orderly protocol cluster s a ∧ Settled s a) init actions) :
    run (step protocol cluster) init actions ≠ .aborted ∧
      ∀ s, run (step protocol cluster) init actions = .next s →
        Served protocol s ∧
          ∀ backend reply e, nextRequest s backend = some e → Late s e.2 →
            Settled s (.reply backend (some reply)) →
              step protocol cluster s (.reply backend (some reply)) = .next (popRequest s backend) := by
  constructor
  · refine @Transition.run_safe _ _ _ _ (fun _ s => Sound protocol cluster s) init sound_init ?_ ?_ _ hmeets
    · exact fun _ s a s' hsound ha hstep => step_sound hsound ha.1 ha.2 hstep
    · exact fun _ s a _ ha => step_ne_aborted ha.2
  · intro s hrun
    exact ⟨(run_sound hmeets hrun).served, fun backend reply e he hlate => step_late he hlate⟩

/-- A reply that makes the proxy drop the bookkeeping of the connection. -/
def exampleProxyReply : RedisReply := { type := .proxy, buffer := [45, 69] }

def exampleReply (n : UInt8) : RedisReply := { type := .string, buffer := [n] }

/-- A request fails, and the next one on the connection is answered. -/
theorem run_served_proxy : ∃ s c, run (step redis false) init
      [.connect 5, .forward 5 .plain (.ok 0), .reply 0 (some exampleProxyReply), .forward 5 .plain (.ok 1),
        .reply 1 (some (exampleReply 2))] = .next s ∧
    s.conns 5 = some c ∧ c.output = [45, 69, 2] ∧ Served redis s := by
  have hmeets : Meets (step redis false) (fun s a => Orderly redis false s a ∧ Settled s a) init
      [.connect 5, .forward 5 .plain (.ok 0), .reply 0 (some exampleProxyReply), .forward 5 .plain (.ok 1),
        .reply 1 (some (exampleReply 2))] := by
    refine ⟨⟨trivial, fun _ => ⟨rfl, rfl, rfl⟩⟩, ?_⟩
    rintro _ ⟨⟩
    refine ⟨⟨fun _ hne => absurd rfl hne, trivial⟩, ?_⟩
    rintro _ ⟨⟩
    refine ⟨⟨fun _ hne => absurd rfl hne, ?_⟩, ?_⟩
    · rintro _ ⟨⟩ _ ⟨⟩ _ hstale
      exact absurd ⟨rfl, rfl, rfl⟩ hstale
    rintro _ ⟨⟩
    refine ⟨⟨fun _ hne => absurd rfl hne, trivial⟩, ?_⟩
    rintro _ ⟨⟩
    refine ⟨⟨?_, ?_⟩, fun _ _ => trivial⟩
    · rintro _ _ _ ⟨⟩ _ _ _ f ⟨⟩
    · rintro _ ⟨⟩ _ ⟨⟩ _ hstale
      exact absurd ⟨rfl, rfl, rfl⟩ hstale
  exact ⟨_, _, rfl, rfl, rfl, ((run_served redis false hmeets).2 _ rfl).1⟩

/-- Two requests of a connection are dropped, and the late reply to the first one is delivered as the reply to the
next request, which has its number. -/
theorem not_served : ¬ ∀ (cluster : Bool) (actions : List Action),
    run (step redis cluster) init actions ≠ .aborted ∧
      ∀ s, run (step redis cluster) init actions = .next s →
        Served redis s ∧
          ∀ backend reply e, nextRequest s backend = some e → Late s e.2 →
            step redis cluster s (.reply backend (some reply)) = .next (popRequest s backend) := by
  intro h
  have hserved := (((h false [.connect 5, .forward 5 .plain (.ok 0), .forward 5 .plain (.ok 1),
    .reply 1 (some exampleProxyReply), .forward 5 .plain (.ok 1),
      .reply 0 (some (exampleReply 1))]).2 _ rfl).1 5 _ rfl).1
  exact nomatch hserved

end RedisProxy
