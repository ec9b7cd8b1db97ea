import SwissArmyKnife.Lib.Bytes
import SwissArmyKnife.Socks4a.TunnelRuns

/-!
# Negotiation of a SOCKS4a proxy

Each message of a connection without a tunnel is read from the start of the input buffer.  A request has a version, a
command, a port, an address and two strings, each with a NUL at its end; the second, a host name, is there only if the
address is 0.0.0.x with x ≠ 0.  `resolve` looks a host name up.
-/

namespace Socks4a

open Transition ServerClient World

/-- `in_addr`, in network order. -/
@[ext] structure InAddr where
  a : UInt8
  b : UInt8
  c : UInt8
  d : UInt8
deriving DecidableEq, Repr

def InAddr.bytes (addr : InAddr) : Bytes := [addr.a, addr.b, addr.c, addr.d]

/-- `std::find(begin, end, '\0')` up to the end of the buffer. -/
def findNul (buf : Bytes) (begin : ℕ) : ℕ := begin + (buf.drop begin).idxOf 0

/-- What is done with the bytes in the input buffer. -/
inductive Verdict where
  | shutdown
  | wait
  | granted (ip port : Bytes) (size : ℕ)
  | rejected
deriving DecidableEq, Repr

/-- The request is looked for in all that can be read. -/
def verdict (resolve : Bytes → Option InAddr) (buf : Bytes) : Verdict :=
  if 128 < buf.length then .shutdown
  else if 8 < buf.length then
    let where' := findNul buf 8
    if where' ≠ buf.length then
      let ver := buf.getD 0 0
      let cmd := buf.getD 1 0
      let port := (buf.drop 2).take 2
      let ip := (buf.drop 4).take 4
      if BigEndian.ofBytes ip < 256 then
        let endOfHostName := findNul buf (where' + 1)
        if endOfHostName ≠ buf.length then
          let hostname := (buf.drop (where' + 1)).take (endOfHostName - (where' + 1))
          match resolve hostname with
          | some tmp =>
            if ver = 4 ∧ cmd = 1 then .granted tmp.bytes port (endOfHostName + 1) else .rejected
          | none => .rejected
        else .wait
      else if ver = 4 ∧ cmd = 1 then .granted ip port (where' + 1) else .rejected
    else .wait
  else .wait

def granted (ip port : Bytes) : Bytes := [0, 0x5a] ++ port ++ ip

/-- The last six bytes are `UVWXYZ`. -/
def refused : Bytes := [0, 0x5b, 0x55, 0x56, 0x57, 0x58, 0x59, 0x5a]

/-- A connection of the server, and its entry in `g_tunnels`. -/
structure Session where
  conn : ServerClient → TcpConnection
  tunnel : Option Tunnel

namespace Session

variable (session : Session)

/-- A connection that the server has just accepted. -/
def new : Session where
  conn
    | kServer => .up
    | kClient => .unconnected
  tunnel := none

def modifyServer (f : TcpConnection → TcpConnection) : Session :=
  { session with conn := Function.update session.conn kServer (f (session.conn kServer)) }

def onServerMessage (resolve : Bytes → Option InAddr) : Outcome Session :=
  match session.tunnel with
  | none =>
    match verdict resolve (session.conn kServer).inputBuffer with
    | .shutdown => .next (session.modifyServer .shutdown)
    | .wait => .next session
    | .granted ip port size =>
      (World.new (session.conn kServer) ip port).setup.bind fun world =>
        let session := Session.mk world.conn (some world.tunnel)
        let session := session.modifyServer fun conn => { conn with inputBuffer := conn.inputBuffer.drop size }
        .next (session.modifyServer fun conn => conn.send (granted ip port))
    | .rejected => .next ((session.modifyServer fun conn => conn.send refused).modifyServer .shutdown)
  | some tunnel =>
    ((World.mk session.conn tunnel).onServerMessage kServer).bind fun world => .next ⟨world.conn, some world.tunnel⟩

end Session

/-- A chunk of bytes comes in, or the connection of the tunnel comes up. -/
inductive Arrival where
  | chunk (bytes : Bytes)
  | clientUp
deriving DecidableEq, Repr

def arrive (resolve : Bytes → Option InAddr) (session : Session) : Arrival → Outcome Session
  | .chunk bytes => (session.modifyServer fun conn => conn.receive bytes).onServerMessage resolve
  | .clientUp =>
    match session.tunnel with
    | none => .disabled
    | some tunnel =>
      (step ⟨session.conn, tunnel⟩ (.connection true)).bind fun world => .next ⟨world.conn, some world.tunnel⟩

def received : List Arrival → Bytes
  | [] => []
  | .chunk bytes :: arrivals => bytes ++ received arrivals
  | .clientUp :: arrivals => received arrivals

/-- A CONNECT request of SOCKS4, or of SOCKS4a if it has a host name. -/
structure Request where
  portHigh : UInt8
  portLow : UInt8
  ip : InAddr
  userId : Bytes
  host : Option Bytes
  userId_nul : 0 ∉ userId
  host_nul : ∀ h ∈ host, 0 ∉ h
  host_isSome : host.isSome ↔ ip.a = 0 ∧ ip.b = 0 ∧ ip.c = 0 ∧ ip.d ≠ 0

namespace Request

variable (request : Request)

def port : Bytes := [request.portHigh, request.portLow]

def head : Bytes := [4, 1] ++ request.port ++ request.ip.bytes

/-- The host name and the NUL behind it. -/
def tail : Bytes :=
  match request.host with
  | none => []
  | some h => h ++ [0]

def encode : Bytes := request.head ++ (request.userId ++ 0 :: request.tail)

@[simp] theorem length_head : request.head.length = 8 := rfl

end Request

theorem findNul_le {buf : Bytes} {begin : ℕ} (h : begin ≤ buf.length) : findNul buf begin ≤ buf.length := by
  have := List.idxOf_le_length (l := buf.drop begin) (a := 0)
  simp only [findNul, List.length_drop] at this ⊢
  omega

theorem granted_size_le {resolve : Bytes → Option InAddr} {buf ip port : Bytes} {size : ℕ}
    (h : verdict resolve buf = .granted ip port size) : size ≤ buf.length := by
  unfold verdict at h
  split at h
  · simp at h
  split at h
  case isFalse => simp at h
  case isTrue hlong =>
    have hfirst : findNul buf 8 ≤ buf.length := findNul_le (by omega)
    dsimp only at h
    split at h
    case isFalse => simp at h
    case isTrue hne =>
      have hsecond : findNul buf (findNul buf 8 + 1) ≤ buf.length := findNul_le (by omega)
      split at h
      · split at h
        · split at h
          · split at h
            · cases h
              omega
            · simp at h
          · simp at h
        · simp at h
      · split at h
        · cases h
          omega
        · simp at h

namespace Request

variable {resolve : Bytes → Option InAddr} (request : Request)

end Request

end Socks4a
