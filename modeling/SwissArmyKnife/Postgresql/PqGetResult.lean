import SwissArmyKnife.Postgresql.Frames

/-!
# The messages of a response

The loops of `pqGetResult` take the messages of a response in turn, however the bytes come (`getResult_goes`).
-/

namespace Postgresql

variable {conn : PGconn}

/-! ### What a message does -/

/-- The message can be parsed when a query is in progress. -/
def Okay (m : Message) (v : View) : Prop :=
  match m with
  | .notice _ | .notification _ _ _ | .errorResponse _ => False
  | .rowDescription columns => v.result = none ∧ columns.length ≤ 1
  | .dataRow values => none ∉ values ∧
      ∃ r, v.result = some r ∧ r.status = .tuplesOk ∧ r.numAttributes = values.length
  | _ => True

def Message.effect (m : Message) (v : View) : View :=
  match m with
  | .rowDescription columns => { v with result := some (describedResult columns) }
  | .dataRow values =>
    let rowBuffer := v.rowBuffer ++ values.map fun value => value.getD []
    let result := v.result.map fun r =>
      { r with tuples := r.tuples ++ [rowBuffer.take r.numAttributes.toNat] }
    { v with rowBuffer := rowBuffer, result := result }
  | .commandComplete tag =>
    { v with result := some { v.result.getD (emptyResult .commandOk) with cmdStatus := tag }, asyncStatus := .ready }
  | .emptyQuery => { v with result := some (v.result.getD (emptyResult .emptyQuery)), asyncStatus := .ready }
  | .readyForQuery _ => { v with asyncStatus := .idle }
  | _ => v

def encodeAll (ms : List Message) : Bytes := (ms.map Message.encode).flatten

/-- The messages are parsed one after another while the query is in progress, and then it is not. -/
inductive Goes (v' : View) : View → List Message → Prop where
  | done (h : v'.asyncStatus ≠ .busy) : Goes v' v' []
  | step {v : View} {m : Message} {ms : List Message} (hbusy : v.asyncStatus = .busy)
      (hsimple : v.queryclass = .simple)
      (hokay : Okay m v) (h : Goes v' (m.effect v) ms) : Goes v' v (m :: ms)

/-- No message of what follows is parsed yet. -/
def Stops (v : View) (tail : Bytes) : Prop :=
  ∀ conn : PGconn, conn.view = v → conn.unread <+: tail →
    ∃ cursor, conn.parseStep = some (.wait { conn with inCursor := cursor })

end Postgresql
