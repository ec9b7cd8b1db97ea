import SwissArmyKnife.Lib.Chunks
import SwissArmyKnife.Lib.Decimal
import SwissArmyKnife.Lib.Lines
import SwissArmyKnife.Memcached.Store

/-!
# A connection

The connection reads lines with commands and the data blocks that follow some of them.  The store is a parameter
(`Owner`), as the other connections may use it in between; its calls are noted in `ops`.  What an assertion refuses is
`none`.
-/

namespace Memcached

open Ascii (ascii crlf)
open Decimal (isDigit isSpace number sign digits)
open Words (toInt)

/-- The calls of the store.  `storeItem` gives what it returns and whether the key was there. -/
structure Owner (σ : Type*) where
  startTime : ℤ
  getItem : σ → Bytes → σ × Option ConstItem
  storeItem : σ → ConstItem → UpdatePolicy → Option (σ × Bool × Bool)
  deleteItem : σ → Bytes → σ × Bool

def MemcacheServer.owner (hash : Bytes → ℕ) (startTime : ℤ) : Owner MemcacheServer where
  startTime := startTime
  getItem s key := (s, s.getItem hash key)
  storeItem s item policy := (s.storeItem hash item policy).map fun r => (r.1, r.2.1.isSome, r.2.2)
  deleteItem s key := s.deleteItem hash key

inductive Op where
  | get (key : Bytes)
  | store (item : Item) (policy : UpdatePolicy)
  | delete (key : Bytes)
  | stop
deriving DecidableEq, Repr

inductive ConnectState where
  | newCommand
  | receiveValue
  | discardValue
deriving DecidableEq, Repr

/-- A connection, and in `owner` the state of the store.  What has been sent is in `sent`; after `shutdown` nothing
is. -/
structure Connect (σ : Type*) where
  owner : σ
  connected : Bool
  sent : Bytes
  ops : List Op
  state : ConnectState
  command : Bytes
  noreply : Bool
  policy : UpdatePolicy
  currItem : Option Item
  bytesToDiscard : ℕ
  outputBuf : Bytes
  aborted : Bool

def kLongestKeySize : ℕ := 250

/-! ### Reading a line -/

/-- The parts of a line between blanks. -/
def tokens (request : Bytes) : List Bytes := (request.splitOn 32).filter fun tok => tok ≠ []

/-- The number of a token, when `strtoull` reads it to its end. -/
def strtoull (tok : Bytes) : Option UInt64 :=
  let (negative, ds) := sign (tok.dropWhile isSpace)
  if ds ≠ [] ∧ ds.all isDigit then
    if number ds < 2 ^ 64 then some (if negative then -(UInt64.ofNat (number ds)) else UInt64.ofNat (number ds))
    else some (UInt64.ofNat (2 ^ 64 - 1))
  else none

/-- `Reader::read`. -/
def read : List Bytes → Option (UInt64 × List Bytes)
  | [] => none
  | tok :: toks => (strtoull tok).map fun x => (x, toks)

/-- The policy of a command. -/
def policyOf (command : Bytes) : UpdatePolicy :=
  if command = ascii "set" then .set
  else if command = ascii "add" then .add
  else if command = ascii "replace" then .replace
  else if command = ascii "append" then .append
  else if command = ascii "prepend" then .prepend
  else if command = ascii "cas" then .cas
  else .invalid

structure UpdateArgs where
  flags : UInt32
  exptime : ℤ
  bytes : ℤ
  cas : UInt64

/-- The numbers of an update. -/
def readArgs (policy : UpdatePolicy) (args : List Bytes) : Option UpdateArgs :=
  (read args).bind fun (flags, args) =>
    (read args).bind fun (exptime, args) =>
      (read args).bind fun (bytes, args) =>
        let args' : UpdateArgs := ⟨flags.toUInt32, exptime.toInt64.toInt, toInt bytes.toNat, 0⟩
        if policy = .cas then (read args).map fun (cas, _) => { args' with cas := cas } else some args'

def relExptime (startTime exptime : ℤ) : Int32 :=
  if 60 * 60 * 24 * 30 < exptime then
    let rel := Int32.ofInt (exptime - startTime)
    if rel.toInt < 1 then 1 else rel
  else Int32.ofInt exptime

def Item.output (item : Item) (needCas : Bool) : Bytes :=
  ascii "VALUE " ++ item.key ++ [32] ++ digits item.flags.toNat ++ [32] ++ digits (item.valueLen - 2).toNat ++
    (if needCas then 32 :: digits item.cas.toNat else []) ++ crlf ++ item.value

def badFormat : Bytes := ascii "CLIENT_ERROR bad command line format\r\n"

/-- A line that ends in ` noreply` is taken without it. -/
def stripNoreply (request : Bytes) : Bool × Bytes :=
  if 8 ≤ request.length ∧ request.drop (request.length - 8) = ascii " noreply" then
    (true, request.take (request.length - 8))
  else (false, request)

namespace Connect

variable {σ : Type*} (owner : Owner σ) (conn : Connect σ)

/-- `conn->send`. -/
def send (msg : Bytes) : Connect σ := if conn.connected then { conn with sent := conn.sent ++ msg } else conn

def reply (msg : Bytes) : Connect σ := if conn.noreply then conn else conn.send msg

/-- A call of the store. -/
def call (s : σ) (op : Op) : Connect σ := { conn with owner := s, ops := conn.ops ++ [op] }

def resetRequest : Connect σ :=
  { conn with command := [], noreply := false, policy := .invalid, currItem := none, bytesToDiscard := 0 }

def doUpdate (args : List Bytes) : Option (Connect σ × Bool) :=
  let conn := { conn with policy := policyOf conn.command }
  match args with
  | [] => none
  | key :: args =>
    match if key.length ≤ kLongestKeySize then readArgs conn.policy args else none with
    | none => some (conn.reply badFormat, true)
    | some ⟨flags, exptime, bytes, cas⟩ =>
      if 1024 * 1024 < bytes then
        let conn := conn.reply (ascii "SERVER_ERROR object too large for cache\r\n")
        some ({ conn.call (owner.deleteItem conn.owner key).1 (.delete key) with
          bytesToDiscard := (toInt (bytes + 2) % 2 ^ 64).toNat
          state := .discardValue }, false)
      else
        (Item.makeItem key flags (relExptime owner.startTime exptime) (toInt (bytes + 2)) cas).map fun item =>
          ({ conn with currItem := some item, state := .receiveValue }, false)

/-- The keys of a `get` up to one that is too long, and whether there is none. -/
def getItems (cas : Bool) : Connect σ → List Bytes → Connect σ × Bool
  | conn, [] => (conn, true)
  | conn, key :: keys =>
    if key.length ≤ kLongestKeySize then
      let r := owner.getItem conn.owner key
      let output := match r.2 with
        | some item => item.1.output cas
        | none => []
      getItems cas { conn.call r.1 (.get key) with outputBuf := conn.outputBuf ++ output } keys
    else (conn.reply badFormat, false)

def doGet (cas : Bool) (keys : List Bytes) : Connect σ :=
  let r := getItems owner cas conn keys
  if r.2 then { r.1.send (r.1.outputBuf ++ ascii "END\r\n") with outputBuf := [] } else r.1

def doDelete (args : List Bytes) : Option (Connect σ) :=
  match args with
  | [] => none
  | key :: args =>
    if kLongestKeySize < key.length then some (conn.reply badFormat)
    else
      match args with
      | tok :: _ =>
        if tok ≠ ascii "0" then
          some (conn.reply (ascii "CLIENT_ERROR bad command line format.  Usage: delete <key> [noreply]\r\n"))
        else some (delete key)
      | [] => some (delete key)
where
  delete (key : Bytes) : Connect σ :=
    let r := owner.deleteItem conn.owner key
    (conn.call r.1 (.delete key)).reply (if r.2 then ascii "DELETED\r\n" else ascii "NOT_FOUND\r\n")

/-- The commands after their name. -/
def dispatch (args : List Bytes) : Option (Connect σ × Bool) :=
  if policyOf conn.command ≠ .invalid then conn.doUpdate owner args
  else if conn.command = ascii "get" ∨ conn.command = ascii "gets" then
    some (conn.doGet owner (conn.command = ascii "gets") args, true)
  else if conn.command = ascii "delete" then (conn.doDelete owner args).map fun conn => (conn, true)
  else if conn.command = ascii "version" then some (conn.reply (ascii "VERSION 0.01 memcached \r\n"), true)
  else if conn.command = ascii "quit" then some ({ conn with connected := false }, true)
  else if conn.command = ascii "shutdown" then
    some ({ conn with connected := false, ops := conn.ops ++ [.stop] }, true)
  else some (conn.reply (ascii "ERROR\r\n"), true)

/-- The state in which a command may begin. -/
structure Ready : Prop where
  command : conn.command = []
  noreply : conn.noreply = false
  policy : conn.policy = .invalid
  currItem : conn.currItem = none
  bytesToDiscard : conn.bytesToDiscard = 0

instance : Decidable conn.Ready :=
  decidable_of_iff (conn.command = [] ∧ conn.noreply = false ∧ conn.policy = .invalid ∧ conn.currItem = none ∧
      conn.bytesToDiscard = 0)
    ⟨fun ⟨h₁, h₂, h₃, h₄, h₅⟩ => ⟨h₁, h₂, h₃, h₄, h₅⟩,
      fun h => ⟨h.command, h.noreply, h.policy, h.currItem, h.bytesToDiscard⟩⟩

def processRequest (request : Bytes) : Option (Connect σ × Bool) :=
  if conn.Ready then
    let (noreply, request) := stripNoreply request
    let conn := { conn with noreply := noreply }
    match tokens request with
    | [] => some (conn.reply (ascii "ERROR\r\n"), true)
    | command :: args => dispatch owner { conn with command := command } args
  else none

/-- The value of the item is whole. -/
def finishValue (item : Item) : Option (Connect σ) :=
  let done :=
    if h : item.Complete then
      (owner.storeItem conn.owner ⟨item, h⟩ conn.policy).map fun (s, stored, exist) =>
        (conn.call s (.store item conn.policy)).reply
          (if stored then ascii "STORED\r\n"
          else if conn.policy = .cas then if exist then ascii "EXISTS\r\n" else ascii "NOT_FOUND\r\n"
          else ascii "NOT_STORED\r\n")
    else some (conn.reply (ascii "CLIENT_ERROR bad data chunk\r\n"))
  done.map fun conn => { conn.resetRequest with state := .newCommand }

def receiveValue (buf : Bytes) : Option (Connect σ × Bytes) :=
  conn.currItem.bind fun item =>
    let avail := min buf.length item.neededBytes.toNat
    (item.append (buf.take avail)).bind fun item =>
      if item.neededBytes = 0 then (conn.finishValue owner item).map fun conn => (conn, buf.drop avail)
      else some ({ conn with currItem := some item }, buf.drop avail)

def discardValue (buf : Bytes) : Option (Connect σ × Bytes) :=
  if conn.currItem.isSome then none
  else if buf.length < conn.bytesToDiscard then
    some ({ conn with bytesToDiscard := conn.bytesToDiscard - buf.length }, [])
  else some ({ conn.resetRequest with state := .newCommand }, buf.drop conn.bytesToDiscard)

/-- One turn of the loop of `onMessage`. -/
def onMessage (buf : Bytes) : Chunks.Step (Connect σ) UInt8 :=
  if conn.aborted then .wait
  else
    match conn.state with
    | .newCommand =>
      match Lines.find crlf buf with
      | some len =>
        match conn.processRequest owner (buf.take len) with
        | some (conn, reset) => .next (if reset then conn.resetRequest else conn) (buf.drop (len + 2))
        | none => .stop { conn with aborted := true }
      | none => if 1024 < buf.length then .stop { conn with connected := false } else .wait
    | .receiveValue =>
      match conn.receiveValue owner buf with
      | some (conn, rest) => .next conn rest
      | none => .stop { conn with aborted := true }
    | .discardValue =>
      match conn.discardValue buf with
      | some (conn, rest) => .next conn rest
      | none => .stop { conn with aborted := true }

end Connect

end Memcached
