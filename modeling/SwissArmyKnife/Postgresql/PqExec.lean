import SwissArmyKnife.Postgresql.PGconn

/-!
# Executing a query

`pqExec` sends a query and takes the results until the connection is idle.  The bytes of the server come in chunks; an
empty one is a read that has to be tried again.  A call that would wait for more than the chunks is `none`, and so is
one that needs more turns than the fuel.
-/

namespace Postgresql

namespace PGconn

variable (conn : PGconn)

def pqPuts (s : Bytes) : PGconn :=
  { conn with outBuffer := conn.outBuffer ++ BigEndian.toBytes 4 (s.length + 1 + 4) ++ s }

def pqPutMsgStart (msgType : UInt8) : PGconn := { conn with outBuffer := conn.outBuffer ++ [msgType] }

def pqPutCopyEnd (errormsg : Bytes) : Option PGconn :=
  if conn.asyncStatus ≠ .copyIn ∧ conn.asyncStatus ≠ .copyBoth then none
  else if 3 ≤ conn.pversion >>> 16 then
    let conn := if errormsg ≠ [] then (conn.pqPutMsgStart 102).pqPuts errormsg else conn.pqPutMsgStart 99
    some (if conn.queryclass ≠ .simple then conn.pqPutMsgStart 83 else conn)
  else some conn

/-- Chunks are read as long as the query is in progress. -/
def readWhileBusy : PGconn → List Bytes → Option (PGconn × List Bytes)
  | conn, [] => if conn.asyncStatus = .busy then none else some (conn, [])
  | conn, chunk :: chunks =>
    if conn.asyncStatus = .busy then
      { conn with inBuffer := conn.inBuffer ++ chunk }.pqParseInput3.bind fun conn => readWhileBusy conn chunks
    else some (conn, chunk :: chunks)

def pqPrepareAsyncResult : PGresult × PGconn :=
  match conn.result with
  | none => (conn.pqMakeEmptyPGresult .fatalError, conn)
  | some res => (res, { conn with errorMessage := res.errMsg })

def getCopyResult (copytype : ExecStatusType) : PGresult × PGconn :=
  if conn.bad then { conn with asyncStatus := .idle }.pqPrepareAsyncResult
  else
    match conn.result with
    | some res =>
      if res.status = copytype then conn.pqPrepareAsyncResult else (conn.pqMakeEmptyPGresult copytype, conn)
    | none => (conn.pqMakeEmptyPGresult copytype, conn)

/-- What has been parsed is returned. -/
def takeResult : Option PGresult × PGconn :=
  match conn.asyncStatus with
  | .idle => (none, conn)
  | .ready =>
    let r := conn.pqPrepareAsyncResult
    (some r.1, { r.2 with asyncStatus := .busy })
  | .copyIn => let r := conn.getCopyResult .copyIn; (some r.1, r.2)
  | .copyOut => let r := conn.getCopyResult .copyOut; (some r.1, r.2)
  | .copyBoth => let r := conn.getCopyResult .copyBoth; (some r.1, r.2)
  | .busy => (some (conn.pqMakeEmptyPGresult .fatalError), conn)

def pqGetResult (chunks : List Bytes) : Option (Option PGresult × PGconn × List Bytes) :=
  conn.pqParseInput3.bind fun conn =>
    (readWhileBusy conn chunks).map fun (conn, chunks) => (conn.takeResult.1, conn.takeResult.2, chunks)

/-- The results that were not taken are dropped, and whether the query can be sent. -/
def pqExecStart : ℕ → PGconn → List Bytes → Option (Bool × PGconn × List Bytes)
  | 0, _, _ => none
  | fuel + 1, conn, chunks =>
    (conn.pqGetResult chunks).bind fun (result, conn, chunks) =>
      match result with
      | none => some (true, conn, chunks)
      | some result =>
        match result.status with
        | .copyIn =>
          if 3 ≤ conn.pversion >>> 16 then
            match conn.pqPutCopyEnd ("COPY terminated by new PQexec".toList.map fun c => c.toNat.toUInt8) with
            | none => some (false, { conn with errorMessage := "no COPY in progress\n" }, chunks)
            | some conn => if conn.bad then some (false, conn, chunks) else pqExecStart fuel conn chunks
          else some (false, { conn with errorMessage := "COPY IN state must be terminated first\n" }, chunks)
        | .copyOut =>
          if 3 ≤ conn.pversion >>> 16 then
            let conn := { conn with asyncStatus := .busy }
            if conn.bad then some (false, conn, chunks) else pqExecStart fuel conn chunks
          else some (false, { conn with errorMessage := "COPY OUT state must be terminated first\n" }, chunks)
        | .copyBoth => some (false, { conn with errorMessage := "PQexec not allowed during COPY BOTH\n" }, chunks)
        | _ => if conn.bad then some (false, conn, chunks) else pqExecStart fuel conn chunks

/-- All of the query is written. -/
def pqSendQuery (query : Bytes) : PGconn :=
  { (conn.pqPutMsgStart 81).pqPuts query with queryclass := .simple, outBuffer := [], asyncStatus := .busy }

def pqExecFinish : ℕ → PGconn → List Bytes → Option PGresult → Option (Option PGresult × PGconn × List Bytes)
  | 0, _, _, _ => none
  | fuel + 1, conn, chunks, lastResult =>
    (conn.pqGetResult chunks).bind fun (result, conn, chunks) =>
      match result with
      | none => some (lastResult, conn, chunks)
      | some result =>
        let result :=
          match lastResult with
          | some lastResult =>
            if lastResult.status = .fatalError ∧ result.status = .fatalError then lastResult else result
          | none => result
        if result.status ∈ [.copyIn, .copyOut, .copyBoth] ∨ conn.bad then some (some result, conn, chunks)
        else pqExecFinish fuel conn chunks (some result)

/-- The chunks are those that come after the query was sent. -/
def pqExec (fuel : ℕ) (query : Bytes) (chunks : List Bytes) : Option (Option PGresult × PGconn × List Bytes) :=
  (pqExecStart fuel conn []).bind fun (started, conn, _) =>
    if started then pqExecFinish fuel (conn.pqSendQuery query) chunks none else some (none, conn, chunks)

end PGconn

/-! ### Responses -/

structure Column where
  name : Bytes
  tableid : ℕ
  columnid : ℕ
  typid : ℕ
  typlen : ℕ
  atttypmod : ℕ
  format : ℕ
deriving DecidableEq, Repr

/-- The messages of the server.  A value that is absent is null. -/
inductive Message where
  | rowDescription (columns : List Column)
  | dataRow (values : List (Option Bytes))
  | commandComplete (tag : Bytes)
  | emptyQuery
  | errorResponse (body : Bytes)
  | readyForQuery (status : UInt8)
  | parameterStatus (name value : Bytes)
  | notice (body : Bytes)
  | notification (pid : ℕ) (relname extra : Bytes)
deriving DecidableEq, Repr

def Column.encode (c : Column) : Bytes :=
  c.name ++ [0] ++ BigEndian.toBytes 4 c.tableid ++ BigEndian.toBytes 2 c.columnid ++ BigEndian.toBytes 4 c.typid ++
    BigEndian.toBytes 2 c.typlen ++ BigEndian.toBytes 4 c.atttypmod ++ BigEndian.toBytes 2 c.format

def encodeValue : Option Bytes → Bytes
  | some value => BigEndian.toBytes 4 value.length ++ value
  | none => BigEndian.toBytes 4 (2 ^ 32 - 1)

namespace Message

def id : Message → UInt8
  | rowDescription _ => 84
  | dataRow _ => 68
  | commandComplete _ => 67
  | emptyQuery => 73
  | errorResponse _ => 69
  | readyForQuery _ => 90
  | parameterStatus _ _ => 83
  | notice _ => 78
  | notification _ _ _ => 65

def body : Message → Bytes
  | rowDescription columns => BigEndian.toBytes 2 columns.length ++ (columns.map Column.encode).flatten
  | dataRow values => BigEndian.toBytes 2 values.length ++ (values.map encodeValue).flatten
  | commandComplete tag => tag ++ [0]
  | emptyQuery => []
  | errorResponse body => body
  | readyForQuery status => [status]
  | parameterStatus name value => name ++ [0] ++ value ++ [0]
  | notice body => body
  | notification pid relname extra => BigEndian.toBytes 4 pid ++ relname ++ [0] ++ extra ++ [0]

def encode (m : Message) : Bytes := m.id :: BigEndian.toBytes 4 (m.body.length + 4) ++ m.body

/-- Strings have no zero, numbers fit, and so does the length of the message. -/
def WellFormed (m : Message) : Prop :=
  m.body.length + 4 < 2 ^ 31 ∧ (PGconn.validLongMessageType m.id = false → m.body.length + 4 ≤ 30000) ∧
    match m with
    | rowDescription columns => columns.length < 2 ^ 16 ∧ ∀ c ∈ columns, 0 ∉ c.name ∧ c.tableid < 2 ^ 32 ∧
        c.columnid < 2 ^ 16 ∧ c.typid < 2 ^ 32 ∧ c.typlen < 2 ^ 16 ∧ c.atttypmod < 2 ^ 32 ∧ c.format < 2 ^ 16
    | dataRow values => values.length < 2 ^ 16
    | commandComplete tag => 0 ∉ tag
    | parameterStatus name value => 0 ∉ name ∧ 0 ∉ value
    | notification pid relname extra => pid < 2 ^ 32 ∧ 0 ∉ relname ∧ 0 ∉ extra
    | errorResponse body => body ≠ []
    | notice body => body ≠ []
    | _ => True

/-- A message that may come anywhere. -/
def Free : Message → Bool
  | parameterStatus _ _ => true
  | notice _ => true
  | notification _ _ _ => true
  | _ => false

end Message

/-- What a query is answered with. -/
inductive Answer where
  | tuples (columns : List Column) (rows : List (List (Option Bytes))) (tag : Bytes)
  | command (tag : Bytes)
  | empty
  | error (body : Bytes)
deriving DecidableEq, Repr

def Answer.messages (status : UInt8) : Answer → List Message
  | tuples columns rows tag =>
    .rowDescription columns :: rows.map .dataRow ++ [.commandComplete tag, .readyForQuery status]
  | command tag => [.commandComplete tag, .readyForQuery status]
  | empty => [.emptyQuery, .readyForQuery status]
  | error body => [.errorResponse body, .readyForQuery status]

/-- A call of `pqExec`: the query, and the chunks of its response. -/
structure Query where
  query : Bytes
  answer : Answer
  messages : List Message
  chunks : List Bytes
deriving DecidableEq, Repr

/-- One well-formed response, with other messages anywhere before its end. -/
structure Query.WellFormed (q : Query) : Prop where
  messages : ∀ m ∈ q.messages, m.WellFormed
  answer : ∃ status front, q.messages = front ++ [.readyForQuery status] ∧
    q.messages.filter (fun m => !m.Free) = q.answer.messages status
  rows : ∀ columns rows tag, q.answer = .tuples columns rows tag → ∀ row ∈ rows, row.length = columns.length
  chunks : q.chunks.flatten = (q.messages.map Message.encode).flatten

/-- The result is the one of the answer. -/
def Answer.Is (result : PGresult) : Answer → Prop
  | tuples columns rows tag => result.status = .tuplesOk ∧ result.numAttributes = columns.length ∧
      result.attDescs.map PGresAttDesc.name = columns.map Column.name ∧
      result.tuples.map (fun row => row.map some) = rows ∧ result.cmdStatus = tag
  | command tag => result.status = .commandOk ∧ result.tuples = [] ∧ result.cmdStatus = tag
  | empty => result.status = .emptyQuery ∧ result.tuples = []
  | error _ => result.status = .fatalError

/-- Nothing is in progress, and nothing is unread. -/
structure PGconn.Idle (conn : PGconn) : Prop where
  asyncStatus : conn.asyncStatus = .idle
  unread : conn.inStart = conn.inBuffer.length

/-- Every call returns, with the result of its own query, and leaves the connection idle. -/
def Exact : PGconn → List Query → Prop
  | _, [] => True
  | conn, q :: qs => ∃ fuel result conn' rest, conn.pqExec fuel q.query q.chunks = some (some result, conn', rest) ∧
      rest.flatten = [] ∧ q.answer.Is result ∧ conn'.Idle ∧ Exact conn' qs

end Postgresql
