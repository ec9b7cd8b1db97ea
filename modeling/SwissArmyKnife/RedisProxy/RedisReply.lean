import SwissArmyKnife.Lib.Reorder

/-!
# Replies

The replies of the backends, and the callbacks that put the replies to the parts of an `mget`, `mset` or `del`
together. The functions that write numbers and strings in the protocol of Redis are a parameter.
-/

namespace RedisProxy

abbrev Bytes := List UInt8

/-- What `shared.ok`, `shared.nullbulk`, `addReplyLongLong`, `addReplyMultiBulkLen`, `addReplyBulkCBuffer` and
`prePendReplyLongLongWithPrefix` write. -/
structure Protocol where
  ok : Bytes
  nullbulk : Bytes
  longLong : ℕ → Bytes
  multiBulkLen : ℕ → Bytes
  bulk : Bytes → Bytes
  longLongWithPrefix : ℕ → Bytes

/-- The digits of a number and the end of the line. -/
def redisLine (n : ℕ) : Bytes := (Nat.toDigits 10 n).map (fun digit => digit.toNat.toUInt8) ++ [13, 10]

/-- The protocol of Redis. -/
def redis : Protocol where
  ok := [43, 79, 75, 13, 10]
  nullbulk := [36, 45, 49, 13, 10]
  longLong n := 58 :: redisLine n
  multiBulkLen n := 42 :: redisLine n
  bulk str := 36 :: redisLine str.length ++ str ++ [13, 10]
  longLongWithPrefix n := 42 :: redisLine n

inductive ReplyType where
  | string
  | array
  | integer
  | nil
  | status
  | error
  | proxy
deriving DecidableEq, Repr

/-- A reply.  Of an element only its `str` is read. -/
structure RedisReply where
  type : ReplyType
  integer : Int := 0
  str : Option Bytes := none
  element : List (Option Bytes) := []
  buffer : Bytes
deriving DecidableEq, Repr

/-- The keys of `redisReplyCommands`. -/
inductive ReplyCommand where
  | mget
  | mset
  | del
deriving DecidableEq, Repr

/-- A command, as `findRedisReplyCommand` sees it. -/
inductive Command where
  | replied (f : ReplyCommand)
  | plain
deriving DecidableEq, Repr

variable (protocol : Protocol)

def delCallback (count : ℕ) : List RedisReply → Bytes
  | [] => protocol.longLong count
  | reply :: replys =>
    if reply.type = .integer ∧ reply.integer = 1 then delCallback (count + 1) replys else reply.buffer

/-- The text `OK`. -/
def okText : Bytes := [79, 75]

def msetCallback : List RedisReply → Bytes
  | [] => protocol.ok
  | reply :: replys =>
    if reply.type ≠ .status ∧ reply.str ≠ some okText then reply.buffer else msetCallback replys

def mgetElement : Option Bytes → Bytes
  | none => protocol.nullbulk
  | some str => protocol.bulk str

def mgetElements : List RedisReply → Bytes
  | [] => []
  | reply :: replys =>
    if reply.type = .array then reply.element.flatMap (mgetElement protocol) ++ mgetElements replys else reply.buffer

def mgetCallback (replys : List RedisReply) : Bytes :=
  protocol.multiBulkLen replys.length ++ mgetElements protocol replys

/-- What is written for the replies to the parts of a command. -/
def processCommandReply : ReplyCommand → List RedisReply → Bytes
  | .mget => mgetCallback protocol
  | .mset => msetCallback protocol
  | .del => delCallback protocol 0

/-- A reply with the command and the count that `proxyCallback` notes in it. -/
structure Buffered where
  reply : RedisReply
  command : Command
  commandCount : ℕ
deriving DecidableEq, Repr

/-- A reply whose turn has come, with the output buffer and the replies to the parts of the command so far. -/
def deliver (x : Bytes × List RedisReply) (r : Buffered) : Bytes × List RedisReply :=
  match r.command with
  | .plain => (x.1 ++ r.reply.buffer, x.2)
  | .replied f =>
    let commandReplys := x.2 ++ [r.reply]
    if r.commandCount ≤ commandReplys.length then (x.1 ++ processCommandReply protocol f commandReplys, [])
    else (x.1, commandReplys)

/-- What is delivered comes after what is in the output buffer. -/
theorem foldl_deliver_append (before output : Bytes) (commandReplys : List RedisReply) (l : List Buffered) :
    l.foldl (deliver protocol) (before ++ output, commandReplys) =
      (before ++ (l.foldl (deliver protocol) (output, commandReplys)).1,
        (l.foldl (deliver protocol) (output, commandReplys)).2) := by
  induction l generalizing output commandReplys with
  | nil => rfl
  | cons r l ih =>
    obtain ⟨reply, command, commandCount⟩ := r
    cases command with
    | plain =>
      simp only [List.foldl_cons, deliver, List.append_assoc]
      exact ih _ _
    | replied f =>
      simp only [List.foldl_cons, deliver]
      split_ifs
      · rw [List.append_assoc]
        exact ih _ _
      · exact ih _ _

end RedisProxy
