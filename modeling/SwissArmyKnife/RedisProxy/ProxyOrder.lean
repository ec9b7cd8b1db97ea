import SwissArmyKnife.RedisProxy.ProxyRuns

/-!
# The replies to a pipeline

While nothing fails, a client gets the replies to its commands in the order in which it has sent them, as long as the
proxy answers a command itself only when it waits for no reply.
-/

namespace RedisProxy

open Transition (Meets run)

/-- An action of a run in which every request finds a backend and gets a reply, and every connection stays open. -/
def Successful : Action → Prop
  | .disconnect _ => False
  | .forward _ _ backend => backend.isOk
  | .fanOut _ _ backends => ∀ backend ∈ backends, backend.isOk
  | .reply _ none => False
  | .reply _ (some reply) => reply.type ≠ .proxy
  | .backendDown => False
  | _ => True

/-- A command, as the client has sent it. -/
inductive Sent where
  | answered (bytes : Bytes)
  | forwarded (command : Command)
  | fanOut (f : ReplyCommand) (parts : ℕ)
deriving DecidableEq

def Slot.sent : Slot → Sent
  | answered bytes => .answered bytes
  | forwarded command _ _ => .forwarded command
  | fanOut f parts _ => .fanOut f parts

/-- The command that an action brings on a connection. -/
def sentOn (protocol : Protocol) (sockfd : ℕ) : Action → Option Sent
  | .forward sockfd' command _ => if sockfd' = sockfd then some (.forwarded command) else none
  | .fanOut sockfd' f backends => if sockfd' = sockfd then some (.fanOut f backends.length) else none
  | .answer sockfd' text => if sockfd' = sockfd then some (.answered text) else none
  | .keys sockfd' keys =>
    if sockfd' = sockfd then
      some (.answered (protocol.longLongWithPrefix keys.length ++ keys.flatMap protocol.bulk))
    else none
  | _ => none

/-- The commands of the connection that is open on a descriptor. -/
def history (s : State) (sockfd : ℕ) : List Sent :=
  match s.conns sockfd with
  | none => []
  | some c => c.slots.map Slot.sent

section History

variable {s : State} {sockfd : ℕ} {c c' : TcpConnection}

theorem history_eq (hc : s.conns sockfd = some c) : history s sockfd = c.slots.map Slot.sent := by
  rw [history, hc]

theorem history_congr {s' : State} (h : s'.conns sockfd = s.conns sockfd) : history s' sockfd = history s sockfd := by
  rw [history, history, h]

/-- Only the commands of the connection that changes change. -/
theorem history_update {s' : State} (hconns : s'.conns = Function.update s.conns sockfd (some c'))
    (hc : s.conns sockfd = some c) (sent : List Sent)
    (hslots : c'.slots.map Slot.sent = c.slots.map Slot.sent ++ sent) (sockfd' : ℕ) :
    history s' sockfd' = history s sockfd' ++ if sockfd = sockfd' then sent else [] := by
  by_cases heq : sockfd = sockfd'
  · subst heq
    have hc' : s'.conns sockfd = some c' := by rw [hconns, Function.update_self]
    rw [if_pos rfl, history_eq hc, ← hslots, history_eq hc']
  · rw [if_neg heq, List.append_nil]
    exact history_congr (by rw [hconns, Function.update_of_ne (Ne.symm heq)])

theorem map_sent_fill (i : ℕ) (reply : RedisReply) (slots : List Slot) :
    (fill i reply slots).map Slot.sent = slots.map Slot.sent := by
  induction slots generalizing i with
  | nil => rfl
  | cons slot slots ih =>
    rw [fill]
    split_ifs
    · cases slot <;> rfl
    · rw [List.map_cons, ih, List.map_cons]

theorem map_sent_grow (slots : List Slot) : (grow slots).map Slot.sent = slots.map Slot.sent := by
  induction slots using grow.induct with
  | case1 => rfl
  | case2 f parts replys => rfl
  | case3 slot slots hne ih => rw [grow, List.map_cons, ih, List.map_cons]; exact hne

end History

/-- What holds in the runs in which nothing fails: no bookkeeping is left from an earlier connection, and no request
has been dropped. -/
structure Calm (s : State) : Prop where
  unused : ∀ sockfd, s.conns sockfd = none → s.books sockfd = {}
  kept : ∀ sockfd c, s.conns sockfd = some c → c.epoch = 0
  alive : ∀ e ∈ s.inFlight, ∃ c, s.conns e.2.sockfd = some c ∧ Fresh e.2.sockfd c e.2

section Calm

variable {protocol : Protocol} {cluster : Bool} {s s' : State} {sockfd : ℕ} {c c' : TcpConnection} {b : Bookkeeping}

theorem Calm.put (h : Calm s) (hc : s.conns sockfd = some c) (hserial : c'.serial = c.serial)
    (hepoch : c'.epoch = c.epoch) {inFlight : List (ℕ × RedisCluster)}
    (hmem : ∀ e ∈ inFlight, e ∈ s.inFlight ∨ Fresh sockfd c e.2) :
    Calm { s.put sockfd c' b with inFlight := inFlight } := by
  refine ⟨?_, ?_, ?_⟩
  · intro sockfd' hnone
    simp only [State.put, Function.update_apply] at hnone ⊢
    split_ifs at hnone ⊢
    exact h.unused sockfd' hnone
  · intro sockfd' c'' hc''
    simp only [State.put, Function.update_apply] at hc''
    split_ifs at hc''
    · cases hc''
      exact hepoch.trans (h.kept sockfd c hc)
    · exact h.kept sockfd' c'' hc''
  · intro e he
    simp only [State.put, Function.update_apply]
    have hfresh' : ∀ {q : RedisCluster}, Fresh sockfd c q → Fresh sockfd c' q := fun hf =>
      ⟨hf.1, hf.2.1.trans hserial.symm, hf.2.2.trans hepoch.symm⟩
    rcases hmem e he with he | hfresh
    · obtain ⟨c'', hc'', hfresh⟩ := h.alive e he
      split_ifs with heq
      · rw [heq] at hc'' hfresh ⊢
        cases hc.symm.trans hc''
        exact ⟨c', rfl, hfresh' hfresh⟩
      · exact ⟨c'', hc'', hfresh⟩
    · rw [if_pos hfresh.1, hfresh.1]
      exact ⟨c', rfl, hfresh' hfresh⟩

theorem Calm.put_same (h : Calm s) (hc : s.conns sockfd = some c) (hserial : c'.serial = c.serial)
    (hepoch : c'.epoch = c.epoch) : Calm (s.put sockfd c' b) :=
  h.put hc hserial hepoch fun _ he => .inl he

private theorem calm_ask (h : Calm s) (hc : s.conns sockfd = some c) (command : Command) (commandCount : ℕ)
    (slots : List Slot) (backend : ℕ) : Calm (ask sockfd c command commandCount slots backend s) := by
  refine h.put hc ?_ ?_ ?_
  · rfl
  · rfl
  · intro e he
    rcases List.mem_append.1 he with he | he
    · exact .inl he
    · cases List.mem_singleton.1 he
      exact .inr ⟨rfl, rfl, rfl⟩

/-- The parts of a command, each of which finds a backend. -/
private theorem calm_foldl {backends : List (Except Bytes ℕ)} (hok : ∀ backend ∈ backends, backend.isOk) (h : Calm s)
    (hc : s.conns sockfd = some c) (f : ReplyCommand) (parts sockfd' : ℕ) :
    Calm (backends.foldl (processPart sockfd f parts) s) ∧
      history (backends.foldl (processPart sockfd f parts) s) sockfd' = history s sockfd' := by
  induction backends generalizing s c with
  | nil => exact ⟨h, rfl⟩
  | cons backend backends ih =>
    cases backend with
    | error text => exact absurd (hok (.error text) (by simp)) (by simp [Except.isOk, Except.toBool])
    | ok backend =>
      have hstep : processPart sockfd f parts s (.ok backend) =
          ask sockfd c (.replied f) parts (grow c.slots) backend s := by
        rw [processPart, hc]
      rw [List.foldl_cons, hstep]
      obtain ⟨hcalm, hhistory⟩ := ih (fun backend hmem => hok backend (by simp [hmem]))
        (calm_ask h hc (.replied f) parts (grow c.slots) backend) (Function.update_self ..)
      refine ⟨hcalm, hhistory.trans ?_⟩
      have hsent : (grow c.slots).map Slot.sent = c.slots.map Slot.sent ++ [] := by
        rw [map_sent_grow, List.append_nil]
      refine (history_update rfl hc _ hsent sockfd').trans ?_
      simp

/-- One step in which nothing fails: it adds its command to the history. -/
theorem step_calm (h : Calm s) {a : Action} (hsuccess : Successful a) (hstep : step protocol cluster s a = .next s') :
    Calm s' ∧ ∀ sockfd, history s' sockfd = history s sockfd ++ (sentOn protocol sockfd a).toList := by
  cases a with
  | connect sockfd =>
    simp only [step] at hstep
    cases hc : s.conns sockfd with
    | some c => simp [hc] at hstep
    | none =>
      rw [hc] at hstep
      cases hstep
      refine ⟨⟨?_, ?_, ?_⟩, ?_⟩
      · intro sockfd' hnone
        simp only [State.put, Function.update_apply] at hnone ⊢
        split_ifs at hnone ⊢
        exact h.unused sockfd' hnone
      · intro sockfd' c hc'
        simp only [State.put, Function.update_apply] at hc'
        split_ifs at hc'
        · cases hc'
          rfl
        · exact h.kept sockfd' c hc'
      · intro e he
        obtain ⟨c, hc', hfresh⟩ := h.alive e he
        have hne : e.2.sockfd ≠ sockfd := by
          rintro heq
          rw [heq, hc] at hc'
          cases hc'
        exact ⟨c, (Function.update_of_ne hne ..).trans hc', hfresh⟩
      · intro sockfd'
        by_cases heq : sockfd' = sockfd
        · subst heq
          simp [history, State.put, hc, sentOn]
        · rw [history_congr (Function.update_of_ne heq ..)]
          simp [sentOn]
  | disconnect sockfd => cases hsuccess
  | forward sockfd command backend =>
    simp only [step] at hstep
    split_ifs at hstep
    obtain ⟨c, hc, rfl⟩ := onConnection_eq_next.1 hstep
    cases backend with
    | error text => cases hsuccess
    | ok backend =>
      refine ⟨calm_ask h hc _ _ _ _, fun sockfd' => (history_update rfl hc _ List.map_append sockfd').trans ?_⟩
      rw [sentOn]
      split_ifs <;> rfl
  | fanOut sockfd f backends =>
    simp only [step] at hstep
    split_ifs at hstep
    obtain ⟨c, hc, rfl⟩ := onConnection_eq_next.1 hstep
    have hpushed : Calm
        (s.put sockfd { c with slots := c.slots ++ [.fanOut f backends.length []] } (s.books sockfd)) :=
      h.put_same hc rfl rfl
    have hfold := calm_foldl hsuccess hpushed (Function.update_self ..) f backends.length
    refine ⟨(hfold sockfd).1,
      fun sockfd' => (hfold sockfd').2.trans ((history_update rfl hc _ List.map_append sockfd').trans ?_)⟩
    rw [sentOn]
    split_ifs <;> rfl
  | answer sockfd text =>
    obtain ⟨c, hc, rfl⟩ := onConnection_eq_next.1 hstep
    refine ⟨h.put_same hc rfl rfl, fun sockfd' => (history_update rfl hc _ List.map_append sockfd').trans ?_⟩
    rw [sentOn]
    split_ifs <;> rfl
  | keys sockfd keys =>
    simp only [step] at hstep
    split_ifs at hstep
    obtain ⟨c, hc, rfl⟩ := onConnection_eq_next.1 hstep
    refine ⟨h.put_same hc rfl rfl, fun sockfd' => (history_update rfl hc _ List.map_append sockfd').trans ?_⟩
    rw [sentOn]
    split_ifs <;> rfl
  | write sockfd n =>
    obtain ⟨c, hc, rfl⟩ := onConnection_eq_next.1 hstep
    refine ⟨h.put_same hc rfl rfl, fun sockfd' => (history_update rfl hc [] ?_ sockfd').trans ?_⟩
    · exact (List.append_nil _).symm
    · simp [sentOn]
  | reply backend reply =>
    cases reply with
    | none => cases hsuccess
    | some reply =>
      simp only [step] at hstep
      cases he : nextRequest s backend with
      | none => simp [he] at hstep
      | some e =>
        rw [he] at hstep
        cases hstep
        obtain ⟨before, after, hsplit, hpop⟩ := nextRequest_split he
        obtain ⟨c, hc, hfresh⟩ := h.alive e (by simp [hsplit])
        rw [hpop, proxyCallback]
        dsimp only
        rw [hc]
        dsimp only
        rw [if_neg (not_not.2 hfresh.2.1.symm), if_neg hsuccess, noteReply, if_pos hfresh.2.2]
        constructor
        · change Calm { s.put e.2.sockfd _ _ with inFlight := before ++ after }
          refine h.put hc ?_ ?_ fun e' he' => .inl ?_
          · rfl
          · rfl
          rw [hsplit]
          exact List.perm_middle.mem_iff.2 (List.mem_cons_of_mem _ he')
        · intro sockfd'
          have hsent : (fill e.2.position reply c.slots).map Slot.sent = c.slots.map Slot.sent ++ [] := by
            rw [map_sent_fill, List.append_nil]
          refine (history_update rfl hc _ hsent sockfd').trans ?_
          simp [sentOn]
  | backendDown => cases hsuccess

/-- In these runs nothing is left of an earlier connection and no reply comes late. -/
theorem Calm.settled (h : Calm s) {a : Action} (hsuccess : Successful a) : Settled s a := by
  cases a with
  | connect sockfd =>
    intro hnone
    rw [h.unused sockfd hnone]
    exact ⟨rfl, rfl, rfl⟩
  | fanOut sockfd f backends =>
    exact List.pairwise_of_forall_mem_list fun backend hmem _ _ _ => hsuccess backend hmem
  | reply backend reply =>
    cases reply with
    | none => cases hsuccess
    | some reply =>
      intro e he c hc _ hstale
      obtain ⟨before, after, hsplit, -⟩ := nextRequest_split he
      obtain ⟨c', hc', hfresh⟩ := h.alive e (by simp [hsplit])
      cases hc.symm.trans hc'
      exact absurd hfresh hstale
  | backendDown => cases hsuccess
  | _ => trivial

end Calm

theorem calm_init : Calm init := by
  refine ⟨fun _ _ => rfl, ?_, ?_⟩
  · intro sockfd c hc
    cases hc
  · intro e he
    cases he

variable {cluster : Bool} {actions : List Action} {s : State}

/-- In the runs in which nothing fails and the proxy answers a command itself only while it waits for no reply, a
client has got the replies to its commands in order, and all of them when none of its requests is in flight. -/
theorem run_in_order (protocol : Protocol)
    (hmeets : Meets (step protocol cluster) (fun s a => Successful a ∧ Orderly protocol cluster s a) init actions)
    (hrun : run (step protocol cluster) init actions = .next s) {sockfd : ℕ} {c : TcpConnection}
    (hc : s.conns sockfd = some c) :
    c.slots.map Slot.sent = actions.filterMap (sentOn protocol sockfd) ∧ c.output = delivered protocol c.slots ∧
      ((∀ e ∈ s.inFlight, e.2.sockfd ≠ sockfd) → ∀ slot ∈ c.slots, slot.reply protocol ≠ none) := by
  have hcalm : Calm s ∧ ∀ sockfd, history s sockfd = actions.filterMap (sentOn protocol sockfd) := by
    refine @Transition.run_invariant _ _ _ _
      (fun actions s => Calm s ∧ ∀ sockfd, history s sockfd = actions.filterMap (sentOn protocol sockfd)) init
      ⟨calm_init, fun _ => rfl⟩ ?_ _ hmeets _ hrun
    rintro actions s a s' ⟨hcalm, hhistory⟩ ha hstep
    obtain ⟨hcalm', hhistory'⟩ := step_calm hcalm ha.1 hstep
    refine ⟨hcalm', fun sockfd => ?_⟩
    rw [hhistory', hhistory, List.filterMap_append]
    cases hsent : sentOn protocol sockfd a <;> simp [hsent]
  have hsound : Sound protocol cluster s := by
    have hall : Meets (step protocol cluster)
        (fun s a => Successful a ∧ Orderly protocol cluster s a ∧ Settled s a) init actions := by
      refine Meets.of_invariant ?_ ?_ calm_init hmeets
      · exact fun s a hcalm ha => ⟨ha.1, ha.2, hcalm.settled ha.1⟩
      · exact fun s a s' hcalm ha hstep => (step_calm hcalm ha.1 hstep).1
    exact run_sound (hall.mono fun s a ha => ha.2) hrun
  obtain ⟨first, hk⟩ := hsound.1.kept sockfd c hc
  refine ⟨(history_eq hc).symm.trans (hcalm.2 sockfd), ?_, fun hidle => ?_⟩
  · have hout := hsound.output_eq hc
    rwa [hk.base (hcalm.1.kept sockfd c hc), List.nil_append] at hout
  · exact hsound.reply_ne_none hc fun e he hfresh => hidle e he hfresh.1

/-- An array with one element. -/
def exampleArray (str : Bytes) : RedisReply :=
  { type := .array, element := [some str], buffer := redis.multiBulkLen 1 ++ redis.bulk str }

def exampleActions : List Action :=
  [.connect 5, .fanOut 5 .mget [.ok 0, .ok 1], .reply 1 (some (exampleArray [98])),
    .reply 0 (some (exampleArray [97])),
    .answer 5 [80]]

/-- An `mget` whose second part is answered first, and a `ping` after it. -/
theorem run_in_order_mget : ∃ s c, run (step redis true) init exampleActions = .next s ∧ s.conns 5 = some c ∧
    c.output = redis.multiBulkLen 2 ++ redis.bulk [97] ++ redis.bulk [98] ++ [80] ∧
    c.output = delivered redis c.slots := by
  have hmeets : Meets (step redis true) (fun s a => Successful a ∧ Orderly redis true s a) init exampleActions := by
    refine ⟨⟨trivial, trivial⟩, ?_⟩
    rintro _ ⟨⟩
    refine ⟨⟨by simp [Successful, Except.isOk, Except.toBool], trivial⟩, ?_⟩
    rintro _ ⟨⟩
    refine ⟨⟨by simp [Successful, exampleArray], fun h => nomatch h⟩, ?_⟩
    rintro _ ⟨⟩
    refine ⟨⟨by simp [Successful, exampleArray], fun h => nomatch h⟩, ?_⟩
    rintro _ ⟨⟩
    exact ⟨⟨trivial, rfl⟩, fun _ _ => trivial⟩
  exact ⟨_, _, rfl, rfl, rfl, (@run_in_order true _ _ redis hmeets rfl 5 _ rfl).2.1⟩

/-- A `ping` overtakes a command that has been sent on. -/
theorem not_in_order : ¬ ∀ (cluster : Bool) (actions : List Action) (s : State) (sockfd : ℕ) (c : TcpConnection),
    (∀ a ∈ actions, Successful a) → run (step redis cluster) init actions = .next s → s.conns sockfd = some c →
      c.slots.map Slot.sent = actions.filterMap (sentOn redis sockfd) ∧ c.output = delivered redis c.slots ∧
        ((∀ e ∈ s.inFlight, e.2.sockfd ≠ sockfd) → ∀ slot ∈ c.slots, slot.reply redis ≠ none) := by
  intro h
  have hsuccess : ∀ a ∈ [Action.connect 5, .forward 5 .plain (.ok 0), .answer 5 [80]], Successful a := by
    simp [Successful, Except.isOk, Except.toBool]
  exact nomatch (h true _ _ 5 _ hsuccess rfl rfl).2.1

end RedisProxy
