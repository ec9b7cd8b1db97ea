import Mathlib.Logic.Function.Basic
import SwissArmyKnife.Lib.Transition

/-!
# A tunnel between two connections

A tunnel joins a connection that a server has accepted with one that it opens itself.  It stops reading from one side
while the other has too much to send.  A null pointer that is used makes a handler `aborted`.

`TcpConnection` is not part of the repository.  Here it has two queues of bytes and the callbacks that are set.  What
is handed to `send` waits until the kernel takes it (`write`); when it has taken the last byte, the write-complete
callback that is set is queued in the loop.
-/

namespace Socks4a

open Transition

abbrev Bytes := List UInt8

inductive ServerClient where
  | kServer
  | kClient
deriving DecidableEq, Repr

open ServerClient

def ServerClient.other : ServerClient → ServerClient
  | kServer => kClient
  | kClient => kServer

/-- The callbacks are those of the tunnel; `queued` counts the calls of the write-complete callback that wait in the
loop. -/
structure TcpConnection where
  connected : Bool
  inputBuffer : Bytes
  sent : Bytes
  written : ℕ
  written_le : written ≤ sent.length
  reading : Bool
  shut : Bool
  context : Option ServerClient
  highWaterMarkCallback : Bool
  writeCompleteCallback : Bool
  queued : ℕ

namespace TcpConnection

variable (conn : TcpConnection)

def outputBuffer : Bytes := conn.sent.drop conn.written

/-- A connection that has just come up. -/
def up : TcpConnection :=
  { connected := true, inputBuffer := [], sent := [], written := 0, written_le := Nat.le_refl _, reading := true,
    shut := false, context := none, highWaterMarkCallback := false, writeCompleteCallback := false, queued := 0 }

/-- The connection that there is not yet. -/
def unconnected : TcpConnection := { up with connected := false }

/-- After `shutdown` nothing is sent. -/
def send (bytes : Bytes) : TcpConnection :=
  if conn.shut then conn
  else { conn with sent := conn.sent ++ bytes, written_le := by have := conn.written_le; simp; omega }

def receive (bytes : Bytes) : TcpConnection := { conn with inputBuffer := conn.inputBuffer ++ bytes }

def retrieveAll : TcpConnection := { conn with inputBuffer := [] }

def shutdown : TcpConnection := { conn with shut := true }

def stopRead : TcpConnection := { conn with reading := false }

def startRead : TcpConnection := { conn with reading := true }

def setContext (context : Option ServerClient) : TcpConnection := { conn with context }

def setHighWaterMarkCallback : TcpConnection := { conn with highWaterMarkCallback := true }

def setWriteCompleteCallback (isSet : Bool) : TcpConnection := { conn with writeCompleteCallback := isSet }

/-- The kernel takes `n` bytes. -/
def write (n : ℕ) : TcpConnection :=
  let written := min (conn.written + n) conn.sent.length
  { conn with
    written
    written_le := Nat.min_le_right ..
    queued := if written = conn.sent.length ∧ conn.writeCompleteCallback then conn.queued + 1 else conn.queued }

end TcpConnection

/-- The address and the port are as `sockaddr_in` has them.  The flags say whether the callbacks of `client` are those
of the tunnel. -/
structure Tunnel where
  ip : Bytes
  port : Bytes
  connectionCallback : Bool
  messageCallback : Bool
  serverConn : Option ServerClient
  clientConn : Option ServerClient
deriving DecidableEq, Repr

/-- A tunnel and the two connections that its pointers may point to. -/
structure World where
  conn : ServerClient → TcpConnection
  tunnel : Tunnel

namespace World

variable (world : World)

def modifyConn (which : ServerClient) (f : TcpConnection → TcpConnection) : World :=
  { world with conn := Function.update world.conn which (f (world.conn which)) }

@[simp] theorem modify_conn_self (which : ServerClient) (f : TcpConnection → TcpConnection) :
    (world.modifyConn which f).conn which = f (world.conn which) := by simp [modifyConn]

theorem modify_conn_of_ne {which which' : ServerClient} (f : TcpConnection → TcpConnection) (hne : which' ≠ which) :
    (world.modifyConn which f).conn which' = world.conn which' := by simp [modifyConn, hne]

@[simp] theorem modify_tunnel (which : ServerClient) (f : TcpConnection → TcpConnection) :
    (world.modifyConn which f).tunnel = world.tunnel := rfl

/-- A pointer is followed. -/
def deref {τ : Type*} (p : Option ServerClient) (k : ServerClient → Outcome τ) : Outcome τ :=
  match p with
  | none => .aborted
  | some which => k which

/-- A member function of what the pointer points to. -/
def call (p : Option ServerClient) (f : TcpConnection → TcpConnection) : Outcome World :=
  deref p fun which => .next (world.modifyConn which f)

/-- `TunnelPtr tunnel(new Tunnel(loop, ip, port, serverConn))`. -/
def new (server : TcpConnection) (ip port : Bytes) : World where
  conn
    | kServer => server
    | kClient => .unconnected
  tunnel :=
    { ip, port, connectionCallback := false, messageCallback := false, serverConn :=
      some kServer, clientConn := none }

def setup : Outcome World :=
  { world with tunnel := { world.tunnel with connectionCallback := true, messageCallback := true } }.call
    world.tunnel.serverConn .setHighWaterMarkCallback

def teardown : Outcome World :=
  let world := { world with tunnel := { world.tunnel with connectionCallback := false, messageCallback := false } }
  let shut : Outcome World :=
    if world.tunnel.serverConn.isSome then
      (world.call world.tunnel.serverConn fun conn => conn.setContext none).bind fun world =>
        world.call world.tunnel.serverConn .shutdown
    else .next world
  shut.bind fun world => .next { world with tunnel := { world.tunnel with clientConn := none } }

def onClientConnection (conn : ServerClient) : Outcome World :=
  if (world.conn conn).connected then
    ((world.modifyConn conn .setHighWaterMarkCallback).call world.tunnel.serverConn fun server =>
      server.setContext (some conn)).bind fun world =>
    (world.call world.tunnel.serverConn .startRead).bind fun world =>
    let world := { world with tunnel := { world.tunnel with clientConn := some conn } }
    deref world.tunnel.serverConn fun server =>
      let inputBuffer := (world.conn server).inputBuffer
      if 0 < inputBuffer.length then
        .next ((world.modifyConn conn fun client => client.send inputBuffer).modifyConn server .retrieveAll)
      else .next world
  else world.teardown

def onClientMessage (buf : Bytes) : Outcome World :=
  if world.tunnel.serverConn.isSome then world.call world.tunnel.serverConn fun server => server.send buf else
    .aborted

def onHighWaterMark : ServerClient → Outcome World
  | kServer =>
    deref world.tunnel.serverConn fun server =>
      if 0 < (world.conn server).outputBuffer.length then
        (world.call world.tunnel.clientConn .stopRead).bind fun world =>
          world.call world.tunnel.serverConn fun conn => conn.setWriteCompleteCallback true
      else .next world
  | kClient =>
    deref world.tunnel.clientConn fun client =>
      if 0 < (world.conn client).outputBuffer.length then
        (world.call world.tunnel.serverConn .stopRead).bind fun world =>
          world.call world.tunnel.clientConn fun conn => conn.setWriteCompleteCallback true
      else .next world

def onWriteComplete : ServerClient → Outcome World
  | kServer =>
    (world.call world.tunnel.clientConn .startRead).bind fun world =>
      world.call world.tunnel.serverConn fun conn => conn.setWriteCompleteCallback false
  | kClient =>
    (world.call world.tunnel.serverConn .startRead).bind fun world =>
      world.call world.tunnel.clientConn fun conn => conn.setWriteCompleteCallback false

/-- The message callback of the server once the tunnel is there. -/
def onServerMessage (conn : ServerClient) : Outcome World :=
  match (world.conn conn).context with
  | some client =>
    .next ((world.modifyConn client fun c => c.send (world.conn conn).inputBuffer).modifyConn conn .retrieveAll)
  | none => .next world

end World

inductive Event where
  | connection (connected : Bool)
  | clientMessage (buf : Bytes)
  | serverMessage (bytes : Bytes)
  | write (which : ServerClient) (n : ℕ)
  | highWaterMark (which : ServerClient)
  | writeComplete (which : ServerClient)
deriving DecidableEq, Repr

open World

/-- The client opens one connection, which may come up and then go down.  The write-complete callback runs after it
has been queued, whatever has happened meanwhile. -/
def step (world : World) : Event → Outcome World
  | .connection true =>
    if world.tunnel.connectionCallback ∧ (world.conn kClient).connected = false then
      (world.modifyConn kClient fun _ => .up).onClientConnection kClient
    else .disabled
  | .connection false =>
    if world.tunnel.connectionCallback ∧ (world.conn kClient).connected then
      (world.modifyConn kClient fun conn => { conn with connected := false }).onClientConnection kClient
    else .disabled
  | .clientMessage buf =>
    if world.tunnel.messageCallback ∧ (world.conn kClient).connected then world.onClientMessage buf else .disabled
  | .serverMessage bytes => (world.modifyConn kServer fun conn => conn.receive bytes).onServerMessage kServer
  | .write which n =>
    if 0 < n ∧ n ≤ (world.conn which).outputBuffer.length then .next (world.modifyConn which fun conn => conn.write n)
    else .disabled
  | .highWaterMark which =>
    if (world.conn which).highWaterMarkCallback then world.onHighWaterMark which else .disabled
  | .writeComplete which =>
    if 0 < (world.conn which).queued then
      (world.modifyConn which fun conn => { conn with queued := conn.queued - 1 }).onWriteComplete which
    else .disabled

end Socks4a
