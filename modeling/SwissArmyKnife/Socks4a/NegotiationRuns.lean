import SwissArmyKnife.Socks4a.Negotiation

/-!
# Requests in chunks

The limit of 128 bytes is on what can be read when a message comes, so a payload right behind the request counts as
well.  A request that is refused stays in the input buffer, and an address 0.0.0.0 is taken for the sign of a host
name (`negotiate_iff`).
-/

namespace Socks4a

open Transition ServerClient World TcpConnection

/-- What came in behind the request waits in the input buffer, or has been sent to the client. -/
inductive Relays (bytes : Bytes) (world : World) : Prop where
  | waiting (h : Waiting world) (input : (world.conn kServer).inputBuffer = bytes)
      (sent : (world.conn kClient).sent = [])
  | joined (h : Joined world) (shut : (world.conn kClient).shut = false)
      (input : (world.conn kServer).inputBuffer = [])
      (sent : (world.conn kClient).sent = bytes)

namespace Relays

variable {bytes : Bytes} {world : World}

theorem append_eq (h : Relays bytes world) :
    (world.conn kClient).sent ++ (world.conn kServer).inputBuffer = bytes := by
  cases h with
  | waiting h input sent => simp [input, sent]
  | joined h shut input sent => simp [input, sent]

theorem serverMessage (h : Relays bytes world) (more : Bytes) :
    ∃ world', step world (.serverMessage more) = .next world' ∧ Relays (bytes ++ more) world' ∧
      world'.tunnel = world.tunnel ∧ (world'.conn kServer).sent = (world.conn kServer).sent := by
  rw [serverMessage_eq]
  cases h with
  | waiting h input sent =>
    rw [h.context]
    refine ⟨_, rfl, .waiting (h.modify_quiet (quiet_receive _ more)) ?_ ?_, rfl, ?_⟩
    · simp [receive, input]
    · simpa [modifyConn] using sent
    · simp [receive]
  | joined h shut input sent =>
    rw [h.context]
    refine ⟨_, rfl, .joined (((h.modify_quiet (quiet_receive _ more)).modify_quiet (quiet_send _ _)).modify_quiet
      (quiet_retrieveAll _)) ?_ ?_ ?_, rfl, ?_⟩
    · simp [modifyConn, send, shut]
    · simp [retrieveAll]
    · simp [modifyConn, send, shut, input, sent]
    · simp [modifyConn, retrieveAll, receive]

/-- The client is sent what has come in before it was there. -/
theorem connection (h : Relays bytes world) :
    step world (.connection true) = .disabled ∨
      ∃ world', step world (.connection true) = .next world' ∧ Relays bytes world' ∧
        world'.tunnel.ip = world.tunnel.ip ∧ world'.tunnel.port = world.tunnel.port ∧
        (world'.conn kServer).sent = (world.conn kServer).sent := by
  cases h with
  | joined h shut input sent => simp [step, h.connected]
  | waiting h input sent =>
    right
    have hinput : ((linked world).conn kServer).inputBuffer = bytes := by
      simpa [linked, modifyConn, setContext, startRead] using input
    refine ⟨_, step_connection h.serverConn h.connectionCallback h.connected, ?_⟩
    split
    case isTrue hpos =>
      refine ⟨.joined ((h.joined_linked.modify_quiet (quiet_send _ _)).modify_quiet (quiet_retrieveAll _)) ?_ ?_ ?_,
        rfl,
        rfl, ?_⟩
      · simp [linked, modifyConn, send, up, setHighWaterMarkCallback]
      · simp [retrieveAll]
      · simpa [linked, modifyConn, send, up, setHighWaterMarkCallback] using input
      · simp [linked, modifyConn, retrieveAll, startRead, setContext]
    case isFalse hempty =>
      have hnil : bytes = [] := by simpa [input] using hempty
      refine ⟨.joined h.joined_linked ?_ ?_ ?_, rfl, rfl, ?_⟩
      · simp [linked, modifyConn, up, setHighWaterMarkCallback]
      · rw [hinput, hnil]
      · simp [linked, modifyConn, up, setHighWaterMarkCallback, hnil]
      · simp [linked, modifyConn, startRead, setContext]

end Relays

/-- A tunnel to an address.  `sent` has been sent back, and `bytes` have come in behind what was removed. -/
structure Tunnelled (ip port sent bytes : Bytes) (session : Session) : Prop where
  sent : (session.conn kServer).sent = sent
  tunnel : ∃ tunnel, session.tunnel = some tunnel ∧ tunnel.ip = ip ∧ tunnel.port = port ∧
    Relays bytes ⟨session.conn, tunnel⟩

theorem arrive_chunk {resolve : Bytes → Option InAddr} {session : Session} {tunnel : Tunnel}
    (h : session.tunnel = some tunnel) (bytes : Bytes) :
    arrive resolve session (.chunk bytes) =
      (step ⟨session.conn, tunnel⟩ (.serverMessage bytes)).bind fun world => .next ⟨world.conn,
        some world.tunnel⟩ := by
  simp [arrive, Session.onServerMessage, Session.modifyServer, h, step, modifyConn]

theorem Tunnelled.after {resolve : Bytes → Option InAddr} {ip port sent bytes : Bytes} {session : Session}
    (h : Tunnelled ip port sent bytes session) (arrival : Arrival)
    (hable : arrive resolve session arrival ≠ .disabled) :
    ∃ session', arrive resolve session arrival = .next session' ∧
      Tunnelled ip port sent (bytes ++ received [arrival]) session' := by
  obtain ⟨tunnel, htunnel, hip, hport, hrelays⟩ := h.tunnel
  cases arrival with
  | chunk more =>
    obtain ⟨world', hstep, hrelays', htunnel', hsent'⟩ := hrelays.serverMessage more
    refine ⟨⟨world'.conn, some world'.tunnel⟩, by rw [arrive_chunk htunnel, hstep]; rfl, ?_, ?_⟩
    · rw [← h.sent, ← hsent']
    · exact ⟨world'.tunnel, rfl, by rw [htunnel', hip], by rw [htunnel', hport], by simpa [received] using hrelays'⟩
  | clientUp =>
    simp only [arrive, htunnel] at hable ⊢
    rcases hrelays.connection with hdisabled | ⟨world', hstep, hrelays', hip', hport', hsent'⟩
    · simp [hdisabled, Outcome.bind] at hable
    · refine ⟨⟨world'.conn, some world'.tunnel⟩, by rw [hstep]; rfl, ?_, ?_⟩
      · rw [← h.sent, ← hsent']
      · exact ⟨world'.tunnel, rfl, by rw [hip', hip], by rw [hport', hport], by simpa [received] using hrelays'⟩

/-- No request has been granted, and all the bytes are still there. -/
structure Untunnelled (buf : Bytes) (session : Session) : Prop where
  tunnel : session.tunnel = none
  inputBuffer : (session.conn kServer).inputBuffer = buf
  client : session.conn kClient = .unconnected
  unwatched : Unwatched (session.conn kServer)

/-- Nothing has been sent back, and the connection has not been shut. -/
def Untouched (session : Session) : Prop := (session.conn kServer).sent = [] ∧ (session.conn kServer).shut = false

theorem Unwatched.of_quiet {conn conn' : TcpConnection} (h : Unwatched conn) (hquiet : Quiet conn conn') :
    Unwatched conn' :=
  ⟨by rw [hquiet.context, h.context], by rw [hquiet.writeCompleteCallback, h.writeCompleteCallback],
    by rw [hquiet.queued h.writeCompleteCallback, h.queued]⟩

theorem Untunnelled.modifyServer {buf buf' : Bytes} {session : Session} (h : Untunnelled buf session)
    {f : TcpConnection → TcpConnection} (hf : Unwatched (f (session.conn kServer)))
    (hbuf : (f (session.conn kServer)).inputBuffer = buf') : Untunnelled buf' (session.modifyServer f) :=
  ⟨h.tunnel, by simpa [Session.modifyServer] using hbuf, by simpa [Session.modifyServer] using h.client,
    by simpa [Session.modifyServer] using hf⟩

theorem Untunnelled.shutdown {buf : Bytes} {session : Session} (h : Untunnelled buf session) :
    Untunnelled buf (session.modifyServer .shutdown) :=
  h.modifyServer ⟨h.unwatched.context, h.unwatched.writeCompleteCallback, h.unwatched.queued⟩ h.inputBuffer

/-- A request is granted: the tunnel is made, the request removed and the answer sent. -/
theorem Untunnelled.grant {buf : Bytes} {session : Session} (h : Untunnelled buf session)
    (ip port : Bytes) (size : ℕ) :
    ∃ session', ((World.new (session.conn kServer) ip port).setup.bind fun world =>
        let session := Session.mk world.conn (some world.tunnel)
        let session := session.modifyServer fun conn => { conn with inputBuffer := conn.inputBuffer.drop size }
        .next (session.modifyServer fun conn => conn.send (granted ip port))) = Outcome.next session' ∧
      Tunnelled ip port ((session.conn kServer).send (granted ip port)).sent (buf.drop size) session' := by
  have hquiet (conn : TcpConnection) : Quiet conn (conn.send (granted ip port)) := quiet_send conn _
  refine ⟨_, rfl, ?_, ?_⟩
  · simp [Session.modifyServer, modifyConn, World.new, send, setHighWaterMarkCallback, apply_ite TcpConnection.sent]
  · refine ⟨_, rfl, rfl, rfl, .waiting ⟨rfl, rfl, rfl, ?_, ?_, ?_, ?_⟩ ?_ ?_⟩
    · simp [Session.modifyServer, modifyConn, World.new, unconnected]
    · simp [Session.modifyServer, modifyConn, World.new, unconnected, up]
    · simpa [Session.modifyServer, modifyConn, World.new, setHighWaterMarkCallback, (hquiet _).context] using
        h.unwatched.context
    · intro which
      cases which with
      | kServer =>
        have := h.unwatched
        simp [Session.modifyServer, modifyConn, World.new, setHighWaterMarkCallback, (hquiet _).writeCompleteCallback,
          (hquiet _).queued, this.writeCompleteCallback, this.queued]
      | kClient => simp [Session.modifyServer, modifyConn, World.new, unconnected, up]
    · simp [Session.modifyServer, modifyConn, World.new, send, setHighWaterMarkCallback,
        apply_ite TcpConnection.inputBuffer, h.inputBuffer]
    · simp [Session.modifyServer, modifyConn, World.new, unconnected, up]

/-- What a chunk does depends on all the bytes that have come in. -/
theorem Untunnelled.after (resolve : Bytes → Option InAddr) {buf : Bytes} {session : Session}
    (h : Untunnelled buf session) (bytes : Bytes) :
    ∃ session', arrive resolve session (.chunk bytes) = .next session' ∧
      match verdict resolve (buf ++ bytes) with
      | .granted ip port size =>
        Tunnelled ip port ((session.conn kServer).send (granted ip port)).sent ((buf ++ bytes).drop size) session'
      | .wait => Untunnelled (buf ++ bytes) session' ∧ (Untouched session → Untouched session')
      | _ => Untunnelled (buf ++ bytes) session' := by
  have hreceived : Untunnelled (buf ++ bytes) (session.modifyServer fun conn => conn.receive bytes) :=
    h.modifyServer (h.unwatched.of_quiet (quiet_receive _ bytes)) (by rw [← h.inputBuffer]; rfl)
  simp only [arrive, Session.onServerMessage, hreceived.tunnel, hreceived.inputBuffer]
  cases verdict resolve (buf ++ bytes) with
  | shutdown => exact ⟨_, rfl, hreceived.shutdown⟩
  | wait => exact ⟨_, rfl, hreceived, by simp [Untouched, Session.modifyServer, receive]⟩
  | rejected =>
    have hsent : Untunnelled (buf ++ bytes)
        ((session.modifyServer fun conn => conn.receive bytes).modifyServer fun conn =>
        conn.send refused) := by
      refine hreceived.modifyServer (hreceived.unwatched.of_quiet (quiet_send _ refused)) ?_
      rw [← hreceived.inputBuffer]
      simp only [send]
      split <;> rfl
    exact ⟨_, rfl, hsent.shutdown⟩
  | granted ip port size =>
    obtain ⟨session', hgrant, htunnelled⟩ := hreceived.grant ip port size
    refine ⟨session', hgrant, ?_⟩
    simpa [Session.modifyServer, receive, send, apply_ite sent] using htunnelled

/-- The bytes that have been removed, if any, are not as many as `size`. -/
def Missed (size : ℕ) (buf : Bytes) (session : Session) : Prop :=
  Untunnelled buf session ∨
    ∃ ip port sent n, n ≠ size ∧ n ≤ buf.length ∧ Tunnelled ip port sent (buf.drop n) session

/-- No request of this size is granted when the bytes of the buffer have come in, and perhaps some more. -/
def NeverGranted (resolve : Bytes → Option InAddr) (size : ℕ) (buf : Bytes) : Prop :=
  ∀ more ip port n, verdict resolve (buf ++ more) = .granted ip port n → n ≠ size

theorem Untunnelled.missed {resolve : Bytes → Option InAddr} {size : ℕ} {buf : Bytes} {session : Session}
    (h : Untunnelled buf session) {bytes : Bytes} (hnever : NeverGranted resolve size (buf ++ bytes)) :
    ∃ session', arrive resolve session (.chunk bytes) = .next session' ∧
      Missed size (buf ++ bytes) session' := by
  obtain ⟨session', harrive, hpost⟩ := h.after resolve bytes
  refine ⟨session', harrive, ?_⟩
  cases hverdict : verdict resolve (buf ++ bytes) with
  | shutdown => exact .inl (by simpa [hverdict] using hpost)
  | wait => exact .inl (by simpa [hverdict] using (by simpa [hverdict] using hpost : _ ∧ _).1)
  | rejected => exact .inl (by simpa [hverdict] using hpost)
  | granted ip port n =>
    simp only [hverdict] at hpost
    exact .inr ⟨ip, port, _, n, hnever [] ip port n (by simpa using hverdict), granted_size_le hverdict, hpost⟩

/-- After `n` bytes, the chunk that completes a request of this size makes it at most 128 bytes. -/
def Fits (size : ℕ) : ℕ → List Arrival → Prop
  | _, [] => True
  | n, .chunk bytes :: arrivals =>
    if n + bytes.length < size then Fits size (n + bytes.length) arrivals else n + bytes.length ≤ 128
  | n, .clientUp :: arrivals => Fits size n arrivals

end Socks4a
