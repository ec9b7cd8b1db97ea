import SwissArmyKnife.Socks4a.Tunnel

/-!
# The life of a tunnel

A tunnel waits for its client, joins the two connections while the client is connected, and is gone afterwards.  It
holds a client connection only while it joins.  The high-water callback of the server is set from the beginning, and
`teardown` leaves all of these callbacks set, so they can come when there is no client connection.
-/

namespace Socks4a

open Transition ServerClient World

namespace TcpConnection

/-- What `send`, `write` and the handling of the input leave as it is. -/
structure Quiet (conn conn' : TcpConnection) : Prop where
  connected : conn'.connected = conn.connected
  context : conn'.context = conn.context
  shut : conn'.shut = conn.shut
  reading : conn'.reading = conn.reading
  highWaterMarkCallback : conn'.highWaterMarkCallback = conn.highWaterMarkCallback
  writeCompleteCallback : conn'.writeCompleteCallback = conn.writeCompleteCallback
  queued : conn.writeCompleteCallback = false → conn'.queued = conn.queued
  draining : conn.writeCompleteCallback = true → 0 < conn.outputBuffer.length ∨ 0 < conn.queued →
    0 < conn'.outputBuffer.length ∨ 0 < conn'.queued

variable (conn : TcpConnection)

theorem length_outputBuffer : conn.outputBuffer.length = conn.sent.length - conn.written := by simp [outputBuffer]

theorem quiet_send (bytes : Bytes) : Quiet conn (conn.send bytes) := by
  unfold send
  split
  · exact ⟨rfl, rfl, rfl, rfl, rfl, rfl, fun _ => rfl, fun _ h => h⟩
  · refine ⟨rfl, rfl, rfl, rfl, rfl, rfl, fun _ => rfl, ?_⟩
    intro _ h
    simp only [length_outputBuffer, List.length_append] at h ⊢
    omega

theorem quiet_receive (bytes : Bytes) : Quiet conn (conn.receive bytes) :=
  ⟨rfl, rfl, rfl, rfl, rfl, rfl, fun _ => rfl, fun _ h => h⟩

theorem quiet_retrieveAll : Quiet conn conn.retrieveAll :=
  ⟨rfl, rfl, rfl, rfl, rfl, rfl, fun _ => rfl, fun _ h => h⟩

/-- When the kernel takes the last byte, the callback that is set is queued. -/
theorem quiet_write (n : ℕ) : Quiet conn (conn.write n) := by
  refine ⟨rfl, rfl, rfl, rfl, rfl, rfl, ?_, ?_⟩
  · intro hset
    simp [write, hset]
  · intro hset h
    have hle := conn.written_le
    simp only [length_outputBuffer, write, hset, and_true] at h ⊢
    split <;> omega

end TcpConnection

open TcpConnection

/-! What an event does to the world while the tunnel joins its connections. -/

section Joined

variable {world : World} (hserver : world.tunnel.serverConn = some kServer)
  (hclient : world.tunnel.clientConn = some kClient)
include hserver hclient

theorem onHighWaterMark_joined (which : ServerClient) :
    world.onHighWaterMark which =
      if 0 < (world.conn which).outputBuffer.length then
        .next ((world.modifyConn which.other .stopRead).modifyConn which fun conn =>
          conn.setWriteCompleteCallback true)
      else .next world := by
  cases which <;> simp [onHighWaterMark, hserver, hclient, deref, call, Outcome.bind, other]

theorem onWriteComplete_joined (which : ServerClient) :
    world.onWriteComplete which =
      .next ((world.modifyConn which.other .startRead).modifyConn which fun conn =>
        conn.setWriteCompleteCallback false) := by
  cases which <;> simp [onWriteComplete, hserver, hclient, deref, call, Outcome.bind, other]

end Joined

/-- The client connection has not come up yet. -/
structure Waiting (world : World) : Prop where
  serverConn : world.tunnel.serverConn = some kServer
  clientConn : world.tunnel.clientConn = none
  connectionCallback : world.tunnel.connectionCallback = true
  connected : (world.conn kClient).connected = false
  highWaterMarkCallback : (world.conn kClient).highWaterMarkCallback = false
  context : (world.conn kServer).context = none
  unwatched : ∀ which, (world.conn which).writeCompleteCallback = false ∧ (world.conn which).queued = 0

/-- The reading of the other side goes on, or it will when the output of this one has drained. -/
def Resumes (world : World) (which : ServerClient) : Prop :=
  (world.conn which.other).reading = true ∨
    0 < (world.conn which).queued ∨
    (world.conn which).writeCompleteCallback = true ∧ 0 < (world.conn which).outputBuffer.length

structure Joined (world : World) : Prop where
  serverConn : world.tunnel.serverConn = some kServer
  clientConn : world.tunnel.clientConn = some kClient
  connectionCallback : world.tunnel.connectionCallback = true
  connected : (world.conn kClient).connected = true
  context : (world.conn kServer).context = some kClient
  resumes : ∀ which, Resumes world which

/-- The client connection has gone down. -/
structure Gone (world : World) : Prop where
  serverConn : world.tunnel.serverConn = some kServer
  clientConn : world.tunnel.clientConn = none
  connectionCallback : world.tunnel.connectionCallback = false
  messageCallback : world.tunnel.messageCallback = false
  connected : (world.conn kClient).connected = false
  shut : (world.conn kServer).shut = true
  context : (world.conn kServer).context = none

/-- A quiet change of one connection is a quiet change of each. -/
theorem quiet_modify {world : World} {which : ServerClient} {f : TcpConnection → TcpConnection}
    (hf : Quiet (world.conn which) (f (world.conn which))) (which' : ServerClient) :
    Quiet (world.conn which') ((world.modifyConn which f).conn which') := by
  by_cases heq : which' = which
  · subst heq
    simpa using hf
  · rw [modify_conn_of_ne _ _ heq]
    exact ⟨rfl, rfl, rfl, rfl, rfl, rfl, fun _ => rfl, fun _ h => h⟩

section Quiet

variable {world : World} {which : ServerClient} {f : TcpConnection → TcpConnection}
  (hf : Quiet (world.conn which) (f (world.conn which)))
include hf

theorem Waiting.modify_quiet (h : Waiting world) : Waiting (world.modifyConn which f) := by
  have hq := quiet_modify hf
  refine ⟨h.serverConn, h.clientConn, h.connectionCallback, ?_, ?_, ?_, ?_⟩
  · rw [(hq kClient).connected, h.connected]
  · rw [(hq kClient).highWaterMarkCallback, h.highWaterMarkCallback]
  · rw [(hq kServer).context, h.context]
  · intro which'
    obtain ⟨hset, hqueued⟩ := h.unwatched which'
    exact ⟨by rw [(hq which').writeCompleteCallback, hset], by rw [(hq which').queued hset, hqueued]⟩

theorem Gone.modify_quiet (h : Gone world) : Gone (world.modifyConn which f) := by
  have hq := quiet_modify hf
  refine ⟨h.serverConn, h.clientConn, h.connectionCallback, h.messageCallback, ?_, ?_, ?_⟩
  · rw [(hq kClient).connected, h.connected]
  · rw [(hq kServer).shut, h.shut]
  · rw [(hq kServer).context, h.context]

theorem Joined.modify_quiet (h : Joined world) : Joined (world.modifyConn which f) := by
  have hq := quiet_modify hf
  refine ⟨h.serverConn, h.clientConn, h.connectionCallback, ?_, ?_, ?_⟩
  · rw [(hq kClient).connected, h.connected]
  · rw [(hq kServer).context, h.context]
  · intro which'
    unfold Resumes
    rw [(hq which'.other).reading, (hq which').writeCompleteCallback]
    rcases h.resumes which' with hreading | hpending
    · exact .inl hreading
    · right
      by_cases hset : (world.conn which').writeCompleteCallback = true
      · rcases (hq which').draining hset (hpending.elim .inr fun h => .inl h.2) with hout | hqueued
        · exact .inr ⟨hset, hout⟩
        · exact .inl hqueued
      · rw [(hq which').queued (by simpa using hset)]
        exact .inl (hpending.resolve_right fun h => hset h.1)

end Quiet

/-- The client connection comes up. -/
def linked (world : World) : World :=
  let world :=
    (((world.modifyConn kClient fun _ => .up).modifyConn kClient .setHighWaterMarkCallback).modifyConn kServer
    fun server => server.setContext (some kClient)).modifyConn kServer .startRead
  { world with tunnel := { world.tunnel with clientConn := some kClient } }

theorem Waiting.joined_linked {world : World} (h : Waiting world) : Joined (linked world) := by
  refine ⟨h.serverConn, rfl, h.connectionCallback, ?_, ?_, ?_⟩
  · simp [linked, modifyConn, setHighWaterMarkCallback, up]
  · simp [linked, modifyConn, setContext, startRead]
  · intro which
    left
    cases which <;> simp [linked, modifyConn, other, startRead, setHighWaterMarkCallback, up]

/-- What has come in so far is sent to the client. -/
theorem step_connection {world : World} (hserver : world.tunnel.serverConn = some kServer)
    (hcallback : world.tunnel.connectionCallback = true) (hconnected : (world.conn kClient).connected = false) :
    step world (.connection true) =
      .next (if 0 < (world.conn kServer).inputBuffer.length then
        ((linked world).modifyConn kClient fun client => client.send (world.conn kServer).inputBuffer).modifyConn
          kServer
          .retrieveAll
      else linked world) := by
  have hinput : ((linked world).conn kServer).inputBuffer = (world.conn kServer).inputBuffer := by
    simp [linked, modifyConn, setContext, startRead]
  rw [← hinput]
  simp only [step, hcallback, hconnected, and_self, if_true, onClientConnection, modify_conn_self, up, call, deref,
    modify_tunnel, hserver, Outcome.bind, linked]
  split <;> rfl

theorem Waiting.step_connection {world : World} (h : Waiting world) :
    ∃ world', step world (.connection true) = .next world' ∧ Joined world' := by
  refine ⟨_, Socks4a.step_connection h.serverConn h.connectionCallback h.connected, ?_⟩
  split
  · exact (h.joined_linked.modify_quiet (quiet_send _ _)).modify_quiet (quiet_retrieveAll _)
  · exact h.joined_linked

/-- The client connection goes down. -/
def unlinked (world : World) : World :=
  let world :=
    ((world.modifyConn kClient fun conn => { conn with connected := false }).modifyConn kServer fun server =>
    server.setContext none).modifyConn kServer .shutdown
  { world with
    tunnel := { world.tunnel with connectionCallback := false, messageCallback := false, clientConn := none } }

theorem Joined.step_connection {world : World} (h : Joined world) :
    step world (.connection false) = .next (unlinked world) ∧ Gone (unlinked world) := by
  refine ⟨?_, ?_⟩
  · simp [step, h.connectionCallback, h.connected, onClientConnection, teardown, h.serverConn, call, deref,
      Outcome.bind, unlinked, modifyConn]
  · refine ⟨h.serverConn, rfl, rfl, rfl, ?_, ?_, ?_⟩ <;> simp [unlinked, modifyConn, shutdown, setContext]

/-- The client connection has come up and not gone down. -/
def Held (before : List Event) : Prop := .connection true ∈ before ∧ .connection false ∉ before

/-- The callbacks come while the client connection is up.  A high-water callback of the server may also come when
nothing is left to be sent to it. -/
def Timely (held : Prop) (world : World) : Event → Prop
  | .highWaterMark kServer => held ∨ (world.conn kServer).outputBuffer = []
  | .highWaterMark kClient => held
  | .writeComplete _ => held
  | _ => True

/-! The handlers when there is no client connection. -/

section Absent

variable {world : World} (hserver : world.tunnel.serverConn = some kServer)
  (hclient : world.tunnel.clientConn = none)
include hserver hclient

theorem onHighWaterMark_absent (which : ServerClient) :
    world.onHighWaterMark which =
      if which = kServer ∧ (world.conn kServer).outputBuffer = [] then .next world else .aborted := by
  cases which <;> simp [onHighWaterMark, hserver, hclient, deref, call, Outcome.bind, List.length_pos_iff]

theorem onWriteComplete_absent (which : ServerClient) : world.onWriteComplete which = .aborted := by
  cases which <;> simp [onWriteComplete, hserver, hclient, deref, call, Outcome.bind]

theorem decides_highWaterMark (which : ServerClient) {held : Prop} (hheld : ¬held) {post : World → Prop}
    (hpost : post world) :
    (world.onHighWaterMark which).Decides (Timely held world (.highWaterMark which)) post := by
  rw [onHighWaterMark_absent hserver hclient]
  split
  case isTrue h =>
    obtain ⟨rfl, hempty⟩ := h
    exact ⟨.inr hempty, hpost⟩
  case isFalse h =>
    cases which with
    | kServer => exact fun hor => hor.elim hheld fun hempty => h ⟨rfl, hempty⟩
    | kClient => exact hheld

end Absent

/-- What the server sends goes to the client that the context names. -/
theorem serverMessage_eq (world : World) (bytes : Bytes) :
    step world (.serverMessage bytes) =
      let received := world.modifyConn kServer fun conn => conn.receive bytes
      .next (match (world.conn kServer).context with
        | some client =>
          (received.modifyConn client fun conn =>
            conn.send ((world.conn kServer).inputBuffer ++ bytes)).modifyConn kServer .retrieveAll
        | none => received) := by
  simp only [step, onServerMessage, modify_conn_self, receive]
  cases (world.conn kServer).context <;> rfl

theorem Waiting.decides {world : World} (h : Waiting world) {held : Prop} (hheld : ¬held) (e : Event) :
    (step world e).Decides (Timely held world e) fun world' =>
      if e = .connection true then Joined world' else Waiting world' := by
  cases e with
  | connection connected =>
    cases connected with
    | true =>
      obtain ⟨world', hstep, hjoined⟩ := h.step_connection
      rw [hstep]
      exact ⟨trivial, by simpa using hjoined⟩
    | false => simp [step, h.connected, Outcome.Decides]
  | clientMessage buf => simp [step, h.connected, Outcome.Decides]
  | serverMessage bytes =>
    rw [serverMessage_eq, h.context]
    exact ⟨trivial, by simpa using h.modify_quiet (quiet_receive _ bytes)⟩
  | write which n =>
    simp only [step]
    split
    · exact ⟨trivial, by simpa using h.modify_quiet (quiet_write _ n)⟩
    · trivial
  | highWaterMark which =>
    simp only [step]
    split
    · exact decides_highWaterMark h.serverConn h.clientConn which hheld (by simpa using h)
    · trivial
  | writeComplete which => simp [step, (h.unwatched which).2, Outcome.Decides]

theorem Gone.decides {world : World} (h : Gone world) {held : Prop} (hheld : ¬held) (e : Event) :
    (step world e).Decides (Timely held world e) Gone := by
  cases e with
  | connection connected => cases connected <;> simp [step, h.connectionCallback, Outcome.Decides]
  | clientMessage buf => simp [step, h.connected, Outcome.Decides]
  | serverMessage bytes =>
    rw [serverMessage_eq, h.context]
    exact ⟨trivial, h.modify_quiet (quiet_receive _ bytes)⟩
  | write which n =>
    simp only [step]
    split
    · exact ⟨trivial, h.modify_quiet (quiet_write _ n)⟩
    · trivial
  | highWaterMark which =>
    simp only [step]
    split
    · exact decides_highWaterMark h.serverConn h.clientConn which hheld h
    · trivial
  | writeComplete which =>
    simp only [step]
    split
    · rw [onWriteComplete_absent (by exact h.serverConn) (by exact h.clientConn)]
      exact hheld
    · trivial

/-- One side stops because the other has too much to send, and its callback is set. -/
theorem Joined.stopped {world : World} (h : Joined world) (which : ServerClient)
    (hfull : 0 < (world.conn which).outputBuffer.length) :
    Joined ((world.modifyConn which.other .stopRead).modifyConn which fun conn =>
      conn.setWriteCompleteCallback true) := by
  refine ⟨h.serverConn, h.clientConn, h.connectionCallback, ?_, ?_, ?_⟩
  · cases which <;> simpa [modifyConn, other, stopRead, setWriteCompleteCallback] using h.connected
  · cases which <;> simpa [modifyConn, other, stopRead, setWriteCompleteCallback] using h.context
  · intro which'
    by_cases heq : which' = which
    · subst heq
      refine .inr (.inr ?_)
      cases which' <;> simpa [modifyConn, other, setWriteCompleteCallback, outputBuffer] using hfull
    · have hother : which' = which.other := by cases which <;> cases which' <;> simp_all [other]
      subst hother
      have := h.resumes which.other
      cases which <;> simpa [Resumes, modifyConn, other, stopRead, setWriteCompleteCallback, outputBuffer] using this

/-- The output of one side has drained, and the other side goes on. -/
theorem Joined.drained {world : World} (h : Joined world) (which : ServerClient) :
    Joined (((world.modifyConn which fun conn => { conn with queued := conn.queued - 1 }).modifyConn which.other
      .startRead).modifyConn which fun conn => conn.setWriteCompleteCallback false) := by
  refine ⟨h.serverConn, h.clientConn, h.connectionCallback, ?_, ?_, ?_⟩
  · cases which <;> simpa [modifyConn, other, startRead, setWriteCompleteCallback] using h.connected
  · cases which <;> simpa [modifyConn, other, startRead, setWriteCompleteCallback] using h.context
  · intro which'
    by_cases heq : which' = which
    · subst heq
      left
      cases which' <;> simp [modifyConn, other, startRead]
    · have hother : which' = which.other := by cases which <;> cases which' <;> simp_all [other]
      subst hother
      have := h.resumes which.other
      cases which <;> simpa [Resumes, modifyConn, other, startRead, setWriteCompleteCallback, outputBuffer] using this

theorem Joined.decides {world : World} (h : Joined world) {held : Prop} (hheld : held) (e : Event) :
    (step world e).Decides (Timely held world e) fun world' =>
      if e = .connection false then Gone world' else Joined world' := by
  cases e with
  | connection connected =>
    cases connected with
    | true => simp [step, h.connected, Outcome.Decides]
    | false =>
      rw [h.step_connection.1]
      exact ⟨trivial, by simpa using h.step_connection.2⟩
  | clientMessage buf =>
    simp only [step]
    split
    · simp only [onClientMessage, h.serverConn, Option.isSome_some, if_true, call, deref]
      exact ⟨trivial, by simpa using h.modify_quiet (quiet_send _ buf)⟩
    · trivial
  | serverMessage bytes =>
    rw [serverMessage_eq, h.context]
    refine ⟨trivial, ?_⟩
    simpa using ((h.modify_quiet (quiet_receive _ bytes)).modify_quiet (quiet_send _ _)).modify_quiet
      (quiet_retrieveAll _)
  | write which n =>
    simp only [step]
    split
    · exact ⟨trivial, by simpa using h.modify_quiet (quiet_write _ n)⟩
    · trivial
  | highWaterMark which =>
    have htimely : Timely held world (.highWaterMark which) := by
      cases which
      · exact .inl hheld
      · exact hheld
    simp only [step]
    split
    · rw [onHighWaterMark_joined h.serverConn h.clientConn]
      split
      case isTrue hfull => exact ⟨htimely, by simpa using h.stopped which hfull⟩
      case isFalse => exact ⟨htimely, by simpa using h⟩
    · trivial
  | writeComplete which =>
    simp only [step]
    split
    · rw [onWriteComplete_joined (by exact h.serverConn) (by exact h.clientConn)]
      exact ⟨hheld, by simpa using h.drained which⟩
    · trivial

/-- The phase of a tunnel after some events. -/
def Phase (before : List Event) (world : World) : Prop :=
  if .connection false ∈ before then Gone world
  else if .connection true ∈ before then Joined world
  else Waiting world

theorem Phase.decides {before : List Event} {world : World} (h : Phase before world) (e : Event) :
    (step world e).Decides (Timely (Held before) world e) (Phase (before ++ [e])) := by
  unfold Phase at h
  split at h
  case isTrue hdown =>
    refine (h.decides (fun hheld => hheld.2 hdown) e).mono ?_
    intro world' hgone
    simpa [Phase, hdown] using hgone
  case isFalse hdown =>
    split at h
    case isTrue hup =>
      refine (h.decides ⟨hup, hdown⟩ e).mono ?_
      intro world' hpost
      by_cases heq : e = .connection false
      · subst heq
        simpa [Phase] using hpost
      · simpa [Phase, hdown, hup, heq, Ne.symm heq] using hpost
    case isFalse hup =>
      by_cases hfalse : e = .connection false
      · subst hfalse
        simp [step, h.connected, Outcome.Decides]
      refine (h.decides (fun hheld => hup hheld.1) e).mono ?_
      intro world' hpost
      by_cases heq : e = .connection true
      · subst heq
        simpa [Phase, hdown] using hpost
      · simpa [Phase, hdown, hup, heq, Ne.symm heq, hfalse, Ne.symm hfalse] using hpost

/-- No callback of the tunnel is set on the connection, and none waits in the loop. -/
structure Unwatched (conn : TcpConnection) : Prop where
  context : conn.context = none
  writeCompleteCallback : conn.writeCompleteCallback = false
  queued : conn.queued = 0

theorem waiting_setup {server : TcpConnection} (hserver : Unwatched server) {ip port : Bytes} {world : World}
    (hsetup : (World.new server ip port).setup = .next world) : Waiting world := by
  simp only [setup, World.new, call, deref, Outcome.next.injEq] at hsetup
  subst hsetup
  refine ⟨rfl, rfl, rfl, ?_, ?_, ?_, ?_⟩
  · simp [modifyConn, unconnected]
  · simp [modifyConn, unconnected, up]
  · simpa [setHighWaterMarkCallback] using hserver.context
  · intro which
    cases which with
    | kServer => simpa [setHighWaterMarkCallback] using ⟨hserver.writeCompleteCallback, hserver.queued⟩
    | kClient => simp [modifyConn, unconnected, up]

def TornDown (world : World) : Prop :=
  (world.conn kServer).shut = true ∧ (world.conn kClient).connected = false

/-- When a side has been stopped because the other had too much to send, and that output has drained since then, the
side is read again or the tunnel is torn down. -/
def Restarts (world : World) (events : List Event) : Prop :=
  ∀ before which middle after world₁ world₂, events = before ++ .highWaterMark which :: (middle ++ after) →
    run step world before = .next world₁ → 0 < (world₁.conn which).outputBuffer.length →
    run step world (before ++ .highWaterMark which :: middle) = .next world₂ →
    (world₂.conn which).outputBuffer = [] → (world₂.conn which).queued = 0 →
    (world₂.conn which.other).reading = true ∨ TornDown world₂

theorem phase_of_run {world : World} (h : Waiting world) {events : List Event} {world' : World}
    (hrun : run step world events = .next world') : Phase events world' :=
  run_decides_invariant Phase (by simpa [Phase] using h) (fun _ _ e hphase => hphase.decides e) hrun

theorem restarts_of_waiting {world : World} (h : Waiting world) (events : List Event) : Restarts world events := by
  intro before which middle after world₁ world₂ _ hbefore hfull hrun hdrained hqueued
  have hheld : Held before := by
    obtain ⟨t, u, ht, hu, _⟩ := exists_of_run_append hrun
    rw [hbefore, Outcome.next.injEq] at ht
    subst ht
    have hdecides := (phase_of_run h hbefore).decides (.highWaterMark which)
    rw [hu] at hdecides
    cases which with
    | kServer => exact hdecides.1.resolve_right (List.length_pos_iff.1 hfull)
    | kClient => exact hdecides.1
  have hphase := phase_of_run h hrun
  unfold Phase at hphase
  split at hphase
  case isTrue => exact .inr ⟨hphase.shut, hphase.connected⟩
  case isFalse =>
    rw [if_pos (List.mem_append_left _ hheld.1)] at hphase
    rcases hphase.resumes which with hreading | hpending | ⟨_, hpending⟩
    · exact .inl hreading
    · omega
    · simp [hdrained] at hpending

/-- No null pointer is used exactly if the callbacks come while the client connection is up. -/
theorem tunnel_runs {server : TcpConnection} (hserver : Unwatched server) {ip port : Bytes} {world : World}
    (hsetup : (World.new server ip port).setup = .next world) {events : List Event}
    (hable : run step world events ≠ .disabled) :
    run step world events ≠ .aborted ∧ Restarts world events ↔
      MeetsAfter step (fun before world => Timely (Held before) world) world events := by
  have hwaiting := waiting_setup hserver hsetup
  rw [and_iff_left (restarts_of_waiting hwaiting events)]
  exact run_ne_aborted_iff Phase (by simpa [Phase] using hwaiting) (fun _ _ e hphase => hphase.decides e) hable

/-- The client stops while the server has a byte to be sent, and goes on before it is closed. -/
theorem tunnel_runs_drained :
    ∃ world, (World.new .up [] []).setup = .next world ∧
      let events : List Event := [.connection true, .clientMessage [7], .highWaterMark kServer, .write kServer 1,
        .writeComplete kServer, .connection false]
      run step world events ≠ .aborted ∧ Restarts world events := by
  refine ⟨_, rfl, ?_⟩
  have hserver : Unwatched .up := ⟨rfl, rfl, rfl⟩
  refine (tunnel_runs hserver rfl ?_).2 ?_
  · exact fun h => nomatch (show Outcome.next _ = .disabled from h)
  · refine meetsAfter_cons trivial rfl (meetsAfter_cons trivial rfl (meetsAfter_cons ?_ rfl
      (meetsAfter_cons trivial rfl (meetsAfter_cons ?_ rfl (meetsAfter_cons trivial rfl (meetsAfter_nil _))))))
    · exact .inl ⟨by decide, by decide⟩
    · exact ⟨by decide, by decide⟩

/-- The client connection is closed while a byte of the server waits, and `clientConn` is used when it has been
sent. -/
theorem not_tunnelRuns_closed :
    ∃ world, (World.new .up [] []).setup = .next world ∧
      run step world [.connection true, .clientMessage [7], .highWaterMark kServer,
        .connection false, .write kServer 1,
        .writeComplete kServer] = .aborted :=
  ⟨_, rfl, rfl⟩

end Socks4a
