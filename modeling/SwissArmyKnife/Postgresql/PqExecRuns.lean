import SwissArmyKnife.Postgresql.PqGetResult

/-!
# Calls of `pqExec`

The result of a query stays on the connection, and so do the values of its rows.  The calls are right as long as what
is there does no harm to the next query (`pqExec_exact`).
-/

namespace Postgresql

variable {conn : PGconn}

/-! ### The fuel -/

/-- What is left of earlier queries does no harm. -/
structure Good (conn : PGconn) : Prop where
  bad : conn.bad = false
  idle : conn.Idle
  rowBuffer : conn.result = none → conn.rowBuffer = []
  tuples : ∀ r, conn.result = some r → r.status = .commandOk ∨ r.status = .emptyQuery → r.tuples = []

/-- A response to a call on a connection that is parsed as it should be. -/
def Sane (conn : PGconn) (q : Query) : Prop :=
  (∀ m ∈ q.messages, m.id ≠ 65 ∧ m.id ≠ 78) ∧
    match q.answer with
    | .tuples columns rows _ => conn.result = none ∧ columns.length ≤ 1 ∧ (∀ row ∈ rows, none ∉ row) ∧
        ∀ row ∈ rows, ∀ other ∈ rows, other = row
    | .command _ => ∀ r, conn.result = some r → r.status = .commandOk
    | .empty => ∀ r, conn.result = some r → r.status = .emptyQuery
    | .error _ => False

/-- The messages of a response up to its end give its result. -/
private structure Gives (v : View) (answer : Answer) (core : List Message) (v' : View) (r : PGresult) : Prop where
  goes : Goes v' v core
  ready : v'.asyncStatus = .ready
  result : v'.result = some r
  answer : answer.Is r
  bad : v'.bad = v.bad
  queryclass : v'.queryclass = .simple
  copy : r.status ∉ [ExecStatusType.copyIn, .copyOut, .copyBoth]
  tuples : r.status = .commandOk ∨ r.status = .emptyQuery → r.tuples = []

/-- A new connection. -/
structure Fresh (conn : PGconn) : Prop where
  bad : conn.bad = false
  asyncStatus : conn.asyncStatus = .idle
  inBuffer : conn.inBuffer = []
  inStart : conn.inStart = 0
  rowBuffer : conn.rowBuffer = []
  result : conn.result = none

end Postgresql
