import SwissArmyKnife.Postgresql.FrameRuns
import Mathlib.Data.List.Forall2

/-!
# Rows

A description makes one descriptor, so a second column has no place.  A row goes to the end of `rowBuffer`, which is
not cleared, and the tuple is taken from its front.  The rows are decoded only when this cannot be seen
(`decodes_iff`).
-/

namespace Postgresql

open Words (toInt)
open PGconn

/-- What is there is parsed, and then each chunk when it comes. -/
def PGconn.feed : PGconn → List Bytes → Option PGconn
  | conn, [] => conn.pqParseInput3
  | conn, chunk :: chunks =>
      conn.pqParseInput3.bind fun conn => feed { conn with inBuffer := conn.inBuffer ++ chunk } chunks

/-- The descriptor has the name, the type and the format of the column. -/
structure Column.Describes (c : Column) (desc : PGresAttDesc) : Prop where
  name : desc.name = c.name
  typid : desc.typid.toNat = c.typid
  typlen : desc.typlen = toInt16 c.typlen
  atttypmod : desc.atttypmod = toInt c.atttypmod
  format : desc.format = toInt16 c.format

/-- The result has the columns and the rows; a null value is empty. -/
structure Decoded (result : PGresult) (columns : List Column) (rows : List (List (Option Bytes))) : Prop where
  numAttributes : result.numAttributes = columns.length
  attDescs : List.Forall₂ Column.Describes columns result.attDescs
  tuples : result.tuples = rows.map fun row => row.map fun value => value.getD []

/-- Every call returns, the messages are consumed, and the result is the one that they describe. -/
def Decodes (conn : PGconn) (columns : List Column) (rows : List (List (Option Bytes)))
    (chunks : List Bytes) : Prop :=
  ∃ conn' result, conn.feed chunks = some conn' ∧ conn'.unread = [] ∧ conn'.result = some result ∧
    Decoded result columns rows

/-- A query is in progress that has no result yet, and the rows have a value for each column. -/
structure Begins (v : View) (columns : List Column) (rows : List (List (Option Bytes))) : Prop where
  busy : v.asyncStatus = .busy
  result : v.result = none
  queryclass : v.queryclass ≠ .describe
  description : (Message.rowDescription columns).WellFormed
  wellFormed : ∀ row ∈ rows, (Message.dataRow row).WellFormed
  number : ∀ row ∈ rows, row.length = columns.length

variable {conn : PGconn}

/-- The message is not parsed to its end. -/
def Fails (v : View) (f : Frame) : Prop :=
  ∀ (conn : PGconn) (rest : Bytes), conn.view = v → conn.unread = f.encode ++ rest → conn.parseStep = none

/-- What the messages do together; a call that does not return is `none`. -/
inductive Outcome : View → List Frame → Option View → Prop where
  | done (v : View) : Outcome v [] (some v)
  | again {v v' : View} {f : Frame} {frames : List Frame} {out : Option View} (h : Handles v f v')
      (hnext : Outcome v' frames out) : Outcome v (f :: frames) out
  | fails {v : View} {f : Frame} (frames : List Frame) (h : Fails v f) : Outcome v (f :: frames) none

/-- The rows have the number of values that the result has. -/
structure Rows (v : View) (r : PGresult) (rows : List (List (Option Bytes))) : Prop where
  busy : v.asyncStatus = .busy
  result : v.result = some r
  status : r.status = .tuplesOk
  wellFormed : ∀ row ∈ rows, (Message.dataRow row).WellFormed
  number : ∀ row ∈ rows, r.numAttributes = row.length

/-- What is there behind the first row. -/
theorem Rows.tail {v : View} {r : PGresult} {row : List (Option Bytes)} {rows : List (List (Option Bytes))}
    (h : Rows v r (row :: rows)) (rowBuffer : List Bytes) (tuples : List (List Bytes)) :
    Rows { v with rowBuffer := rowBuffer, result := some { r with tuples := tuples } }
      { r with tuples := tuples } rows :=
  ⟨h.busy, rfl, h.status, fun row' hrow' => h.wellFormed row' (List.mem_cons_of_mem row hrow'),
    fun row' hrow' => h.number row' (List.mem_cons_of_mem row hrow')⟩

end Postgresql
