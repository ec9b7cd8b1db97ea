import SwissArmyKnife.Lib.Transition
import SwissArmyKnife.RedisProxy.Slots
import Mathlib.Logic.Function.Basic

/-!
# The proxy

One event loop of the proxy: its client connections, the maps in which it keeps the numbers of the requests and the
replies that are held back, and the requests that the backends have not answered yet.  Each backend answers in its own
order.
-/

namespace RedisProxy

open Transition (Outcome)

/-- The entries for one descriptor in `threadProxyCounts`, `threadProxySends`, `threadProxyReplys` and
`threadCommandReplys`.  An entry that is missing is read as an empty one. -/
structure Bookkeeping where
  proxyCount : ℕ := 0
  proxySends : List ℕ := []
  proxyReplys : List (ℕ × Buffered) := []
  commandReplys : List RedisReply := []
deriving DecidableEq, Repr

namespace Bookkeeping

def insertProxyCount (b : Bookkeeping) : Bookkeeping := { b with proxyCount := b.proxyCount + 1 }

def insertProxySend (count : ℕ) (b : Bookkeeping) : Bookkeeping :=
  { b with proxySends := Reorder.insertNumber count b.proxySends }

def clearProxyReply (b : Bookkeeping) : Bookkeeping := { b with proxyReplys := [] }

def clearProxySend (b : Bookkeeping) : Bookkeeping := { b with proxySends := [] }

def clearProxyCount (b : Bookkeeping) : Bookkeeping := { b with proxyCount := 0 }

def clearCommandReply (b : Bookkeeping) : Bookkeeping := { b with commandReplys := [] }

def clearProxy (b : Bookkeeping) : Bookkeeping := b.clearProxyReply.clearProxySend.clearProxyCount.clearCommandReply

/-- What `clearCurrentThread` does for each descriptor.  It clears `threadProxyCounts` twice. -/
def clearCurrentThread (b : Bookkeeping) : Bookkeeping :=
  b.clearProxySend.clearProxyCount.clearProxyCount.clearCommandReply

end Bookkeeping

/-- A client connection.  The last three fields are for the specification: how often the requests of the connection
have been dropped, what had been written by then, and the commands since. -/
structure TcpConnection where
  serial : ℕ
  sent : Bytes := []
  outputBuffer : Bytes := []
  epoch : ℕ := 0
  base : Bytes := []
  slots : List Slot := []

/-- All that is written to the client. -/
def TcpConnection.output (c : TcpConnection) : Bytes := c.sent ++ c.outputBuffer

/-- The requests so far are not going to be answered. -/
def TcpConnection.dropped (c : TcpConnection) : TcpConnection :=
  { c with epoch := c.epoch + 1, base := c.output, slots := [] }

/-- A request to a backend.  The weak pointer to the connection is its descriptor with a serial number.  The last two
fields are for the specification: the part of which command it is. -/
structure RedisCluster where
  sockfd : ℕ
  serial : ℕ
  proxyCount : ℕ
  command : Command
  commandCount : ℕ
  epoch : ℕ
  position : ℕ

structure State where
  conns : ℕ → Option TcpConnection
  books : ℕ → Bookkeeping
  inFlight : List (ℕ × RedisCluster)
  opened : ℕ

def init : State := ⟨fun _ => none, fun _ => {}, [], 0⟩

def State.put (s : State) (sockfd : ℕ) (c : TcpConnection) (b : Bookkeeping) : State :=
  { s with conns := Function.update s.conns sockfd (some c), books := Function.update s.books sockfd b }

/-! ### Commands -/

/-- A request gets the next number and goes to its backend. -/
def ask (sockfd : ℕ) (c : TcpConnection) (command : Command) (commandCount : ℕ) (slots : List Slot) (backend : ℕ)
    (s : State) : State :=
  let proxyCount := (s.books sockfd).proxyCount + 1
  { s.put sockfd { c with slots := slots } ((s.books sockfd).insertProxyCount.insertProxySend proxyCount) with
    inFlight := s.inFlight ++
      [(backend, ⟨sockfd, c.serial, proxyCount, command, commandCount, c.epoch, (pieces c.slots).length⟩)] }

/-- The bookkeeping of the connection is dropped and the client gets the text of an error. -/
def refuse (sockfd : ℕ) (c : TcpConnection) (text : Bytes) (s : State) : State :=
  s.put sockfd { c with outputBuffer := c.outputBuffer ++ text }.dropped (s.books sockfd).clearProxy

/-- `backend` is what `checkCommandToCluster` finds, or the text that it writes when it finds none. -/
def processCommand (sockfd : ℕ) (c : TcpConnection) (command : Command) (backend : Except Bytes ℕ) (s : State) :
    State :=
  match backend with
  | .ok backend =>
    let commandCount := (s.books sockfd).proxyCount + 1
    ask sockfd c command commandCount (c.slots ++ [.forwarded command commandCount none]) backend s
  | .error text => refuse sockfd c text s

/-- One turn of the loop of `asyncCommand` or `msetCommand`. -/
def processPart (sockfd : ℕ) (f : ReplyCommand) (parts : ℕ) (s : State) (backend : Except Bytes ℕ) : State :=
  match s.conns sockfd with
  | none => s
  | some c =>
    match backend with
    | .ok backend => ask sockfd c (.replied f) parts (grow c.slots) backend s
    | .error text => refuse sockfd c text s

/-- `asyncCommand` with one part for each key, and `msetCommand` with one for each pair. -/
def asyncCommand (sockfd : ℕ) (c : TcpConnection) (f : ReplyCommand) (backends : List (Except Bytes ℕ)) (s : State) :
    State :=
  backends.foldl (processPart sockfd f backends.length)
    (s.put sockfd { c with slots := c.slots ++ [.fanOut f backends.length []] } (s.books sockfd))

variable (protocol : Protocol)

/-- What `keysCommand` writes when all backends answer with arrays: the strings go to the end of the output buffer and
then their number to its beginning. -/
def keysCommand (keys : List Bytes) (c : TcpConnection) : TcpConnection :=
  { c with
    outputBuffer := protocol.longLongWithPrefix keys.length ++ (c.outputBuffer ++ keys.flatMap protocol.bulk)
    slots := c.slots ++ [.answered (protocol.longLongWithPrefix keys.length ++ keys.flatMap protocol.bulk)] }

/-! ### Replies of the backends -/

/-- A reply is held under its number, and the replies whose turn has come are delivered. -/
def deliverReply (proxyCount : ℕ) (r : Buffered) (b : Bookkeeping) (outputBuffer : Bytes) : Bookkeeping × Bytes :=
  match b.proxySends with
  | [] => (b, outputBuffer)
  | beginProxyCount :: _ =>
    if proxyCount ∈ b.proxySends then
      let q := Reorder.release (deliver protocol) beginProxyCount (Reorder.insertEntry proxyCount r b.proxyReplys)
        b.proxySends (outputBuffer, b.commandReplys)
      ({ b with proxySends := q.waiting, proxyReplys := q.held, commandReplys := q.state.2 }, q.state.1)
    else (b, outputBuffer)

/-- The reply counts for the command that it was asked for, unless that has been dropped. -/
def noteReply (proxy : RedisCluster) (reply : RedisReply) (c : TcpConnection) : List Slot :=
  if proxy.epoch = c.epoch then fill proxy.position reply c.slots else c.slots

def proxyCallback (proxy : RedisCluster) (reply : RedisReply) (s : State) : State :=
  match s.conns proxy.sockfd with
  | none => s
  | some c =>
    if c.serial ≠ proxy.serial then s
    else if reply.type = .proxy then refuse proxy.sockfd c reply.buffer s
    else
      let r := deliverReply protocol proxy.proxyCount
        ⟨reply, proxy.command, proxy.commandCount⟩ (s.books proxy.sockfd)
        c.outputBuffer
      s.put proxy.sockfd { c with outputBuffer := r.2, slots := noteReply proxy reply c } r.1

/-! ### The system -/

inductive Action where
  | connect (sockfd : ℕ)
  | disconnect (sockfd : ℕ)
  /-- A command that the proxy does not know is sent on. -/
  | forward (sockfd : ℕ) (command : Command) (backend : Except Bytes ℕ)
  | fanOut (sockfd : ℕ) (f : ReplyCommand) (backends : List (Except Bytes ℕ))
  /-- A command that the proxy answers itself: it appends a text to the output buffer. -/
  | answer (sockfd : ℕ) (text : Bytes)
  | keys (sockfd : ℕ) (keys : List Bytes)
  /-- The first bytes of the output buffer go to the client. -/
  | write (sockfd : ℕ) (n : ℕ)
  /-- A backend answers its oldest request, or the callback of the request gets a null pointer. -/
  | reply (backend : ℕ) (reply : Option RedisReply)
  /-- The connection to a backend is lost. -/
  | backendDown

/-- The request that a backend answers next. -/
def nextRequest (s : State) (backend : ℕ) : Option (ℕ × RedisCluster) := s.inFlight.find? fun e => e.1 == backend

/-- The requests in flight after a backend has answered. -/
def popRequest (s : State) (backend : ℕ) : State :=
  { s with inFlight := s.inFlight.eraseP fun e => e.1 == backend }

def onConnection (s : State) (sockfd : ℕ) (f : TcpConnection → State) : Outcome State :=
  match s.conns sockfd with
  | none => .disabled
  | some c => .next (f c)

def step (cluster : Bool) (s : State) : Action → Outcome State
  | .connect sockfd =>
    match s.conns sockfd with
    | some _ => .disabled
    | none => .next { s.put sockfd { serial := s.opened } (s.books sockfd) with opened := s.opened + 1 }
  | .disconnect sockfd => onConnection s sockfd fun _ => { s with conns := Function.update s.conns sockfd none }
  | .forward sockfd command backend =>
    -- in a cluster `mget`, `mset` and `del` are commands of the proxy
    if cluster ∧ command ≠ .plain then .disabled
    else onConnection s sockfd fun c => processCommand sockfd c command backend s
  | .fanOut sockfd f backends =>
    if cluster ∧ backends ≠ [] then onConnection s sockfd fun c => asyncCommand sockfd c f backends s
    else .disabled
  | .answer sockfd text =>
    onConnection s sockfd fun c =>
      s.put sockfd { c with outputBuffer := c.outputBuffer ++ text, slots := c.slots ++ [.answered text] }
        (s.books sockfd)
  | .keys sockfd keys =>
    if cluster then onConnection s sockfd fun c => s.put sockfd (keysCommand protocol keys c) (s.books sockfd)
    else .disabled
  | .write sockfd n =>
    onConnection s sockfd fun c =>
      s.put sockfd { c with sent := c.sent ++ c.outputBuffer.take n, outputBuffer := c.outputBuffer.drop n }
        (s.books sockfd)
  | .reply backend reply =>
    match nextRequest s backend with
    | none => .disabled
    | some e =>
      match reply with
      -- `reply->commandCount` is written before `reply` is compared with a null pointer
      | none => .aborted
      | some reply => .next (proxyCallback protocol e.2 reply (popRequest s backend))
  | .backendDown =>
    .next { s with
      conns := fun sockfd => (s.conns sockfd).map TcpConnection.dropped
      books := fun sockfd => (s.books sockfd).clearCurrentThread }

end RedisProxy
