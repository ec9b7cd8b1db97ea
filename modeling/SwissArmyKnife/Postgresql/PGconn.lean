import SwissArmyKnife.Lib.Bytes

/-!
# Parsing messages

The messages of the server wait in `inBuffer`.  `inStart` is where the next one begins, and `inCursor` goes through
it.  What an assertion refuses, and what has no defined behaviour, is `none`.  A result is a value here, so that one
that was returned is not changed by a later message.
-/

namespace Postgresql

open Words (toInt)

abbrev Bytes := List UInt8

inductive ExecStatusType where
  | emptyQuery
  | commandOk
  | tuplesOk
  | copyOut
  | copyIn
  | fatalError
  | copyBoth
deriving DecidableEq, Repr

inductive PGAsyncStatusType where
  | idle
  | busy
  | ready
  | copyIn
  | copyOut
  | copyBoth
deriving DecidableEq, Repr

inductive PGTransactionStatusType where
  | idle
  | intrans
  | inerror
  | unknown
deriving DecidableEq, Repr

inductive PGQueryClass where
  | simple
  | extended
  | prepare
  | describe
deriving DecidableEq, Repr

structure PGresAttDesc where
  name : Bytes
  tableid : UInt64
  columnid : ℤ
  format : ℤ
  typid : UInt64
  typlen : ℤ
  atttypmod : ℤ
deriving DecidableEq, Repr

structure PGresult where
  status : ExecStatusType
  numAttributes : ℤ
  attDescs : List PGresAttDesc
  tuples : List (List Bytes)
  errMsg : String
  cmdStatus : Bytes
  binary : ℤ
deriving DecidableEq, Repr

structure PGconn where
  bad : Bool
  asyncStatus : PGAsyncStatusType
  xactStatus : PGTransactionStatusType
  queryclass : PGQueryClass
  bePid : ℤ
  beKey : ℤ
  pversion : ℕ
  inBuffer : Bytes
  inCursor : ℕ
  inStart : ℕ
  outBuffer : Bytes
  rowBuffer : List Bytes
  errorMessage : String
  result : Option PGresult
  pstatus : List (Bytes × Bytes)
deriving DecidableEq, Repr

/-! ### Reading -/

def toInt16 (x : ℤ) : ℤ := x.bmod (2 ^ 16)

/-- An `int` in a `size_t`: a negative one is extended by its sign. -/
def toSize (x : ℤ) : UInt64 := UInt64.ofInt x

namespace PGconn

variable (conn : PGconn)

/-- The bytes after the cursor. -/
def input : Bytes := conn.inBuffer.drop conn.inCursor

def advance (n : ℕ) : PGconn := { conn with inCursor := conn.inCursor + n }

def pqGetc : Option (UInt8 × PGconn) :=
  match conn.input with
  | [] => none
  | b :: _ => some (b, conn.advance 1)

def pqGetInt (bytes : ℕ) : Option (ℤ × PGconn) :=
  if bytes ≤ conn.input.length then some (toInt (BigEndian.ofBytes (conn.input.take bytes)), conn.advance bytes) else
    none

def pqGets : Option (Bytes × PGconn) :=
  if 0 ∈ conn.input then
    let buff := conn.input.takeWhile fun b => b ≠ 0
    some (buff, conn.advance (buff.length + 1))
  else none

def pqSkipnchar (len : ℕ) : Option PGconn := if len ≤ conn.input.length then some (conn.advance len) else none

def pqMakeEmptyPGresult (status : ExecStatusType) : PGresult :=
  ⟨status, 0, [], [], if status = .fatalError then conn.errorMessage else "", [], 0⟩

def getReadyForQuery : Option PGconn :=
  conn.pqGetc.map fun (xactStatus, conn) =>
    { conn with xactStatus :=
        match xactStatus with
        | 73 => .idle -- 'I'
        | 84 => .intrans -- 'T'
        | 69 => .inerror -- 'E'
        | _ => .unknown }

def pqSaveParameterStatus (name value : Bytes) : PGconn :=
  { conn with pstatus := conn.pstatus.eraseP (fun status => status.1 = name) ++ [(name, value)] }

def getParameterStatus : Option PGconn :=
  conn.pqGets.bind fun (name, conn) => conn.pqGets.map fun (value, conn) => conn.pqSaveParameterStatus name value

/-- The description of a column. -/
def getAttDesc : Option (PGresAttDesc × PGconn) :=
  conn.pqGets.bind fun (name, conn) =>
    (conn.pqGetInt 4).bind fun (tableid, conn) =>
      (conn.pqGetInt 2).bind fun (columnid, conn) =>
        (conn.pqGetInt 4).bind fun (typid, conn) =>
          (conn.pqGetInt 2).bind fun (typlen, conn) =>
            (conn.pqGetInt 4).bind fun (atttypmod, conn) =>
              (conn.pqGetInt 2).map fun (format, conn) =>
                (⟨name, toSize tableid, toInt16 columnid, toInt16 format, toSize typid, toInt16 typlen, atttypmod⟩,
                  conn)

/-- The columns from the `i`th on. -/
def getAttDescs : ℕ → ℕ → PGconn → PGresult → Option (PGresult × PGconn)
  | 0, _, conn, result => some (result, conn)
  | n + 1, i, conn, result =>
    conn.getAttDesc.bind fun (desc, conn) =>
      -- an entry that was not made is out of range
      if i < result.attDescs.length then
        getAttDescs n (i + 1) conn { result with
          attDescs := result.attDescs.set i desc
          binary := if desc.format ≠ 1 then 0 else result.binary }
      else none

def getRowDescriptions (msgLength : ℕ) : Option PGconn :=
  let result :=
    if conn.queryclass = .describe then conn.result.getD (conn.pqMakeEmptyPGresult .commandOk)
    else conn.pqMakeEmptyPGresult .tuplesOk
  (conn.pqGetInt 2).bind fun (nfields, conn) =>
    let result := { result with
      numAttributes := nfields
      attDescs := if 0 < nfields then result.attDescs ++ [⟨[], 0, 0, 0, 0, 0, 0⟩] else result.attDescs
      binary := if 0 < nfields then 1 else 0 }
    (getAttDescs nfields.toNat 0 conn result).bind fun (result, conn) =>
      if conn.inCursor = conn.inStart + 5 + msgLength then
        let conn := { conn with inStart := conn.inCursor, result := some result }
        some (if conn.queryclass = .describe then { conn with asyncStatus := .ready } else conn)
      else none

/-- The values of a row go to the end of `rowBuffer`. -/
def getValues : ℕ → PGconn → Option PGconn
  | 0, conn => some conn
  | n + 1, conn =>
    (conn.pqGetInt 4).bind fun (vlen, conn) =>
      -- a string of a negative length throws
      if vlen < 0 then none
      else
        let conn := { conn with rowBuffer := conn.rowBuffer ++ [conn.input.take vlen.toNat] }
        (conn.pqSkipnchar vlen.toNat).bind (getValues n)

def pqRowProcessor (result : PGresult) : PGconn :=
  { conn with result := some { result with
      tuples := result.tuples ++ [conn.rowBuffer.take result.numAttributes.toNat] } }

def getAnotherTuple (result : PGresult) (msgLength : ℕ) : Option PGconn :=
  (conn.pqGetInt 2).bind fun (tupnfields, conn) =>
    if tupnfields ≠ result.numAttributes then none
    else
      (getValues result.numAttributes.toNat conn).bind fun conn =>
        if conn.inCursor = conn.inStart + 5 + msgLength then
          some ({ conn with inStart := conn.inCursor }.pqRowProcessor result)
        else none

/-! ### The loop -/

def unexpected (id : UInt8) : String :=
  "unexpected response from server; first received character was " ++ toString id.toInt8.toInt ++ "\n"

def disagree (id : UInt8) : String :=
  "message contents do not agree with length in message type " ++ toString id.toInt8.toInt ++ "\n"

/-- The loop returns, or it goes on. -/
inductive Parsed where
  | wait (conn : PGconn)
  | again (conn : PGconn)

/-- The message has been consumed. -/
def consumed (id : UInt8) (msgLength : ℕ) : PGconn :=
  if conn.inCursor = conn.inStart + 5 + msgLength then
    { conn with inBuffer := conn.inBuffer.drop conn.inCursor, inCursor := 0, inStart := 0 }
  else
    let conn := { conn with errorMessage := disagree id, asyncStatus := .ready }
    { conn with
      result := some (conn.pqMakeEmptyPGresult .fatalError)
      inBuffer := conn.inBuffer.drop (5 + msgLength)
      inStart := conn.inStart + (5 + msgLength) }

/-- What a message does that is parsed when no query is in progress. -/
def parseIdle (id : UInt8) (msgLength : ℕ) : Option Parsed :=
  if conn.asyncStatus ≠ .idle then some (.wait conn)
  else
    match id with
    | 69 => some (.again (conn.consumed id msgLength)) -- 'E'
    | 83 => -- 'S'
      match conn.getParameterStatus with
      | none => some (.wait conn)
      | some conn => some (.again (conn.consumed id msgLength))
    | _ => some (.again ((conn.advance msgLength).consumed id msgLength))

/-- The start of a copy; `attDescs` has no entry for a format. -/
def getCopyStart (copytype : ExecStatusType) (asyncStatus : PGAsyncStatusType) (id : UInt8) (msgLength : ℕ) :
    Option Parsed :=
  match conn.pqGetInt 2 with
  | none => some (.wait conn)
  | some (nfields, conn) =>
    if 0 < nfields then if conn.input.length < 2 then some (.wait conn) else none
    else
      let result := { conn.pqMakeEmptyPGresult copytype with numAttributes := nfields }
      some (.again ({ conn with result := some result, asyncStatus := asyncStatus }.consumed id msgLength))

/-- The result, or a new one. -/
def resultOr (status : ExecStatusType) : PGresult := conn.result.getD (conn.pqMakeEmptyPGresult status)

def parseBusy (id : UInt8) (msgLength : ℕ) : Option Parsed :=
  let again (conn : PGconn) : Option Parsed := some (.again (conn.consumed id msgLength))
  match id with
  | 67 => -- 'C'
    match conn.pqGets with
    | none => some (.wait conn)
    | some (tag, conn) =>
      again { conn with result := some { conn.resultOr .commandOk with cmdStatus := tag }, asyncStatus := .ready }
  | 69 => again { conn with asyncStatus := .ready } -- 'E'
  | 90 => -- 'Z'
    match conn.getReadyForQuery with
    | none => some (.wait conn)
    | some conn => again { conn with asyncStatus := .idle }
  | 73 => again { conn with result := some (conn.resultOr .emptyQuery), asyncStatus := .ready } -- 'I'
  | 49 => -- '1'
    if conn.queryclass = .prepare then
      again { conn with result := some (conn.resultOr .commandOk), asyncStatus := .ready }
    else again conn
  | 50 => again conn -- '2'
  | 51 => again conn -- '3'
  | 83 => -- 'S'
    match conn.getParameterStatus with
    | none => some (.wait conn)
    | some conn => again conn
  | 75 => -- 'K'
    match conn.pqGetInt 4 with
    | none => some (.wait conn)
    | some (bePid, conn) =>
      match { conn with bePid := bePid }.pqGetInt 4 with
      | none => some (.wait { conn with bePid := bePid })
      | some (beKey, conn) => again { conn with beKey := beKey }
  | 84 => -- 'T'
    match conn.result with
    | none => (conn.getRowDescriptions msgLength).map .again
    | some result =>
      if result.status = .fatalError then again (conn.advance msgLength)
      else if conn.queryclass = .describe then (conn.getRowDescriptions msgLength).map .again
      else some (.wait { conn with asyncStatus := .ready })
  | 110 => -- 'n'
    if conn.queryclass = .describe then
      again { conn with result := some (conn.resultOr .commandOk), asyncStatus := .ready }
    else again conn
  | 116 => some (.again conn) -- 't'
  | 68 => -- 'D'
    match conn.result with
    | some result =>
      if result.status = .tuplesOk then (conn.getAnotherTuple result msgLength).map .again
      else if result.status = .fatalError then again (conn.advance msgLength)
      else again { conn.advance msgLength with
        errorMessage := "server sent data (\"D\" message) without prior row description (\"T\" message)\n" }
    | none => again { conn.advance msgLength with
        errorMessage := "server sent data (\"D\" message) without prior row description (\"T\" message)\n" }
  | 71 => conn.getCopyStart .copyIn .copyIn id msgLength -- 'G'
  | 72 => conn.getCopyStart .copyOut .copyOut id msgLength -- 'H'
  | 87 => conn.getCopyStart .copyBoth .copyBoth id msgLength -- 'W'
  | 100 => again (conn.advance msgLength) -- 'd'
  | 99 => again conn -- 'c'
  | _ => again { conn.advance msgLength with errorMessage := unexpected id, asyncStatus := .ready }

/-- `getNotify` ends without a `return` after it has read the message. -/
def getNotify : Option Parsed :=
  match (conn.pqGetInt 4).bind fun (_, conn) => conn.pqGets.bind fun (_, conn) => conn.pqGets with
  | none => some (.wait conn)
  | some _ => none

def validLongMessageType (id : UInt8) : Bool := id ∈ [84, 68, 100, 86, 69, 78, 65]

/-- A message whose body is there. -/
def parseMessage (id : UInt8) (msgLength : ℕ) : Option Parsed :=
  if id = 65 then conn.getNotify -- 'A'
  else if id = 78 then some (.again (conn.consumed id msgLength)) -- 'N'
  else if conn.asyncStatus ≠ .busy then conn.parseIdle id msgLength
  else conn.parseBusy id msgLength

/-- One turn of the loop of `pqParseInput3`. -/
def parseStep : Option Parsed :=
  let conn := { conn with inCursor := conn.inStart }
  match conn.pqGetc with
  | none => some (.wait conn)
  | some (id, conn) =>
    match conn.pqGetInt 4 with
    | none => some (.wait conn)
    | some (length, conn) =>
      if length < 4 ∨ 30000 < length ∧ validLongMessageType id = false then none
      else
        let msgLength := (length - 4).toNat
        if conn.input.length < msgLength then some (.wait conn) else conn.parseMessage id msgLength

def parseLoop : ℕ → PGconn → Option PGconn
  | 0, _ => none
  | fuel + 1, conn =>
    conn.parseStep.bind fun parsed =>
      match parsed with
      | .wait conn => some conn
      | .again conn => parseLoop fuel conn

def pqParseInput3 : Option PGconn := parseLoop (conn.inBuffer.length + 1) conn

end PGconn

end Postgresql
