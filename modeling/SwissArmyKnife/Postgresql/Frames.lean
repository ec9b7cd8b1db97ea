import SwissArmyKnife.Postgresql.PqParse

/-!
# What a message does

`Handles` says, for each type, which contents its handler takes, and what they do.  A handler that takes such contents
goes through the whole body, and the next message is read right behind it (`consumes_of_handles`).  With other
contents the loop returns too early, fails, or skips the message twice.
-/

namespace Postgresql

open PGconn

/-- The description of columns, in the entries that are there and one more. -/
def described (result : PGresult) (columns : List Column) : PGresult :=
  let attDescs := if columns = [] then result.attDescs else result.attDescs ++ [⟨[], 0, 0, 0, 0, 0, 0⟩]
  { result with
    numAttributes := columns.length
    attDescs := columns.map Column.desc ++ attDescs.drop columns.length
    binary := if columns ≠ [] ∧ ∀ c ∈ columns, c.desc.format = 1 then 1 else 0 }

/-- The result that a row description fills in. -/
def View.toDescribe (v : View) : PGresult :=
  if v.queryclass = .describe then v.result.getD (emptyResult .commandOk) else emptyResult .tuplesOk

/-- The result that a row description begins. -/
def describedResult (columns : List Column) : PGresult :=
  { emptyResult .tuplesOk with
    numAttributes := columns.length
    attDescs := columns.map Column.desc
    binary := if columns ≠ [] ∧ ∀ c ∈ columns, c.desc.format = 1 then 1 else 0 }

/-- A result is there in the end. -/
def View.ready (v : View) (status : ExecStatusType) : View :=
  { v with result := some (v.result.getD (emptyResult status)), asyncStatus := .ready }

/-- The types that are known when a query is in progress. -/
def knownTypes : List UInt8 := [67, 69, 90, 73, 49, 50, 51, 83, 75, 84, 110, 116, 68, 71, 72, 87, 100, 99]

/-- The message is handled or skipped, and this is its effect. -/
inductive Handles (v : View) : Frame → View → Prop where
  | notice : Handles v ⟨78, []⟩ v
  | idleError (hidle : v.asyncStatus = .idle) : Handles v ⟨69, []⟩ v
  | idleStatus (hidle : v.asyncStatus = .idle) {name value : Bytes} (hname : 0 ∉ name) (hvalue : 0 ∉ value) :
      Handles v ⟨83, name ++ [0] ++ value ++ [0]⟩ v
  | idleOther (hidle : v.asyncStatus = .idle) {f : Frame} (hid : f.id ∉ [65, 78, 69, 83]) : Handles v f v
  | commandComplete (hbusy : v.asyncStatus = .busy) {tag : Bytes} (htag : 0 ∉ tag) :
      Handles v ⟨67, tag ++ [0]⟩
        { v with result := some { v.result.getD (emptyResult .commandOk) with cmdStatus := tag }, asyncStatus :=
          .ready }
  | error (hbusy : v.asyncStatus = .busy) : Handles v ⟨69, []⟩ { v with asyncStatus := .ready }
  | readyForQuery (hbusy : v.asyncStatus = .busy) (status : UInt8) :
      Handles v ⟨90, [status]⟩ { v with asyncStatus := .idle }
  | emptyQuery (hbusy : v.asyncStatus = .busy) : Handles v ⟨73, []⟩ (v.ready .emptyQuery)
  | parseComplete (hbusy : v.asyncStatus = .busy) :
      Handles v ⟨49, []⟩ (if v.queryclass = .prepare then v.ready .commandOk else v)
  | nothing (hbusy : v.asyncStatus = .busy) {id : UInt8} (hid : id ∈ [50, 51, 99]) : Handles v ⟨id, []⟩ v
  | parameterStatus (hbusy : v.asyncStatus = .busy) {name value : Bytes} (hname : 0 ∉ name) (hvalue : 0 ∉ value) :
      Handles v ⟨83, name ++ [0] ++ value ++ [0]⟩ v
  | backendKey (hbusy : v.asyncStatus = .busy) {body : Bytes} (hbody : body.length = 8) : Handles v ⟨75, body⟩ v
  | failedDescription (hbusy : v.asyncStatus = .busy) {r : PGresult} (hresult : v.result = some r)
      (hfailed : r.status = .fatalError) (body : Bytes) : Handles v ⟨84, body⟩ v
  | rowDescription (hbusy : v.asyncStatus = .busy) {columns : List Column}
      (hresult : v.result = none ∨ v.queryclass = .describe ∧ ∀ r ∈ v.result, r.status ≠ .fatalError)
      (hwf : (Message.rowDescription columns).WellFormed)
      (hcount : columns.length ≤ v.toDescribe.attDescs.length + 1) :
      Handles v (Message.rowDescription columns).frame
        { v with
          result := some (described v.toDescribe columns)
          asyncStatus := if v.queryclass = .describe then .ready else .busy }
  | noData (hbusy : v.asyncStatus = .busy) :
      Handles v ⟨110, []⟩ (if v.queryclass = .describe then v.ready .commandOk else v)
  | dataRow (hbusy : v.asyncStatus = .busy) {r : PGresult} (hresult : v.result = some r)
      (hstatus : r.status = .tuplesOk)
      {values : List (Option Bytes)} (hwf : (Message.dataRow values).WellFormed) (hnull : none ∉ values)
      (hnumber : r.numAttributes = values.length) :
      Handles v (Message.dataRow values).frame
        { v with
          rowBuffer := v.rowBuffer ++ values.map fun value => value.getD []
          result := some { r with
            tuples :=
              r.tuples ++ [(v.rowBuffer ++ values.map fun value => value.getD []).take r.numAttributes.toNat] } }
  | strayRow (hbusy : v.asyncStatus = .busy) (hresult : ∀ r ∈ v.result, r.status ≠ .tuplesOk) (body : Bytes) :
      Handles v ⟨68, body⟩ v
  | copyStart (hbusy : v.asyncStatus = .busy) {id : UInt8} {status : ExecStatusType} {asyncStatus : PGAsyncStatusType}
      (hid : (id, status, asyncStatus) ∈
        [(71, .copyIn, .copyIn), (72, .copyOut, .copyOut), (87, .copyBoth, PGAsyncStatusType.copyBoth)]) :
      Handles v ⟨id, [0, 0]⟩ { v with result := some (emptyResult status), asyncStatus }
  | copyData (hbusy : v.asyncStatus = .busy) (body : Bytes) : Handles v ⟨100, body⟩ v
  | unknown (hbusy : v.asyncStatus = .busy) {f : Frame} (hid : f.id ∉ 65 :: 78 :: knownTypes) :
      Handles v f { v with asyncStatus := .ready }

variable {conn : PGconn}

/-! ### Columns -/

/-- The numbers of a column fit into their fields. -/
def Column.Fits (c : Column) : Prop :=
  0 ∉ c.name ∧ c.tableid < 2 ^ 32 ∧ c.columnid < 2 ^ 16 ∧ c.typid < 2 ^ 32 ∧
  c.typlen < 2 ^ 16 ∧ c.atttypmod < 2 ^ 32 ∧
    c.format < 2 ^ 16

theorem getAttDescs_front {columns : List Column} {i : ℕ} {result : PGresult} {rest : Bytes}
    (hcolumns : ∀ c ∈ columns, c.Fits) (hi : i + columns.length ≤ result.attDescs.length)
    (h : conn.input = (columns.map Column.encode).flatten ++ rest) :
    PGconn.getAttDescs columns.length i conn result =
      some ({ result with
        attDescs := result.attDescs.take i ++ columns.map Column.desc ++ result.attDescs.drop (i + columns.length)
        binary := if ∀ c ∈ columns, c.desc.format = 1 then result.binary else 0 },
        conn.advance (columns.map Column.encode).flatten.length) := by
  induction columns generalizing conn i result with
  | nil => simp [PGconn.getAttDescs, PGconn.advance]
  | cons c columns ih =>
    rw [List.length_cons] at hi
    rw [List.map_cons, List.flatten_cons, List.append_assoc] at h
    obtain ⟨hname, htableid, hcolumnid, htypid, htyplen, hatttypmod, hformat⟩ := hcolumns c (List.mem_cons_self ..)
    have hdesc := getAttDesc_front hname htableid hcolumnid htypid htyplen hatttypmod hformat h
    have htake : (result.attDescs.set i c.desc).take (i + 1) = result.attDescs.take i ++ [c.desc] := by
      have hlength : (result.attDescs.take i ++ [c.desc]).length = i + 1 := by
        rw [List.length_append, List.length_take, List.length_singleton]
        omega
      have hset : result.attDescs.set i c.desc = (result.attDescs.take i ++ [c.desc]) ++
          result.attDescs.drop (i + 1) := by
        rw [List.set_eq_take_append_cons_drop, if_pos (by omega), List.append_assoc, List.singleton_append]
      rw [hset, List.take_left' hlength]
    have hdrop : (result.attDescs.set i c.desc).drop (i + 1 + columns.length) =
        result.attDescs.drop (i + (columns.length + 1)) := by
      rw [List.drop_set_of_lt (by omega), Nat.add_right_comm, Nat.add_assoc]
    have hbinary : (if ∀ c' ∈ columns, c'.desc.format = 1 then if c.desc.format ≠ 1 then
        0 else result.binary else 0) =
        if ∀ c' ∈ c :: columns, c'.desc.format = 1 then result.binary else 0 := by
      by_cases hc : c.desc.format = 1
      · simp [hc]
      · simp [hc]
    rw [List.length_cons, PGconn.getAttDescs, hdesc, Option.bind_some]
    dsimp only
    rw [if_pos (by omega), ih (fun c' hc' => hcolumns c' (List.mem_cons_of_mem c hc'))
      (by rw [List.length_set]; omega) (input_of_advance h)]
    dsimp only
    rw [htake, hdrop, hbinary]
    simp [PGconn.advance, Nat.add_assoc]

theorem getRowDescriptions_described {columns : List Column} {rest : Bytes}
    (hwf : (Message.rowDescription columns).WellFormed)
    (hcount : columns.length ≤ conn.view.toDescribe.attDescs.length + 1)
    (h : conn.atBody.input = (Message.rowDescription columns).body ++ rest) :
    conn.atBody.getRowDescriptions (Message.rowDescription columns).body.length = some { conn with
      inCursor := conn.inStart + 5 + (Message.rowDescription columns).body.length
      inStart := conn.inStart + 5 + (Message.rowDescription columns).body.length
      result := some (described conn.view.toDescribe columns)
      asyncStatus := if conn.queryclass = .describe then .ready else conn.asyncStatus } := by
  obtain ⟨-, -, hnumber, hcolumns⟩ := hwf
  unfold Message.body at h ⊢
  rw [List.append_assoc] at h
  have hint := pqGetInt_front h (show columns.length < 256 ^ 2 by omega)
  rw [toInt_of_lt (by omega)] at hint
  have hinput := input_of_advance h
  rw [BigEndian.length_toBytes] at hinput
  have hresult : (if conn.atBody.queryclass = .describe then
      conn.atBody.result.getD (conn.atBody.pqMakeEmptyPGresult .commandOk)
    else conn.atBody.pqMakeEmptyPGresult .tuplesOk) = conn.view.toDescribe := rfl
  unfold PGconn.getRowDescriptions
  simp only [hresult, hint, Option.bind_some, Int.toNat_natCast]
  generalize conn.view.toDescribe = base at hcount ⊢
  rw [getAttDescs_front hcolumns ?_ hinput, Option.bind_some]
  · have hdescribed : ({ base with
        numAttributes := (columns.length : ℤ)
        attDescs :=
          (if (0 : ℤ) < columns.length then base.attDescs ++ [⟨[], 0, 0, 0, 0, 0, 0⟩] else base.attDescs).take 0 ++
          columns.map Column.desc ++
          (if (0 : ℤ) < columns.length then base.attDescs ++ [⟨[], 0, 0, 0, 0, 0, 0⟩] else base.attDescs).drop
            (0 + columns.length)
        binary :=
          if ∀ c ∈ columns, c.desc.format = 1 then if (0 : ℤ) < columns.length then 1 else 0 else 0 } : PGresult) =
        described base columns := by
      cases columns with
      | nil => simp [described]
      | cons c columns =>
        have hpos : (0 : ℤ) < (c :: columns).length := by
          rw [List.length_cons]
          omega
        rw [if_pos hpos]
        simp [described]
    dsimp only
    rw [hdescribed, if_pos (by
      simp only [PGconn.advance, PGconn.atBody, List.length_append, BigEndian.length_toBytes]
      omega)]
    by_cases hclass : conn.queryclass = .describe
    · simp only [PGconn.advance, PGconn.atBody, hclass, if_true, List.length_append,
        BigEndian.length_toBytes, Nat.add_assoc]
    · simp only [PGconn.advance, PGconn.atBody, hclass, if_false, List.length_append,
        BigEndian.length_toBytes, Nat.add_assoc]
  · cases columns with
    | nil => simp
    | cons c columns =>
      have hpos : (0 : ℤ) < (c :: columns).length := by
        rw [List.length_cons]
        omega
      rw [if_pos hpos, List.length_append, List.length_singleton]
      omega

/-! ### The handlers -/

theorem parseMessage_handled {id : UInt8} {msgLength : ℕ} (hbusy : conn.asyncStatus = .busy)
    (hid : id ∉ ([65, 78] : List UInt8)) :
    conn.atBody.parseMessage id msgLength = conn.atBody.parseBusy id msgLength := by
  simp only [List.mem_cons, List.not_mem_nil, or_false, not_or] at hid
  have hbusy' : ¬ conn.atBody.asyncStatus ≠ .busy := not_not.2 hbusy
  unfold PGconn.parseMessage
  rw [if_neg hid.1, if_neg hid.2, if_neg hbusy']

private theorem parseMessage_idle {id : UInt8} {msgLength : ℕ} (hidle : conn.asyncStatus = .idle)
    (hid : id ∉ ([65, 78] : List UInt8)) :
    conn.atBody.parseMessage id msgLength = conn.atBody.parseIdle id msgLength := by
  simp only [List.mem_cons, List.not_mem_nil, or_false, not_or] at hid
  have hidle' : conn.atBody.asyncStatus ≠ .busy := by
    change conn.asyncStatus ≠ .busy
    rw [hidle]
    decide
  unfold PGconn.parseMessage
  rw [if_neg hid.1, if_neg hid.2, if_pos hidle']

private theorem getParameterStatus_front {name value rest : Bytes} (hname : 0 ∉ name) (hvalue : 0 ∉ value)
    (h : conn.input = name ++ [0] ++ value ++ [0] ++ rest) :
    ∃ conn', conn.getParameterStatus = some conn' ∧ conn'.inBuffer = conn.inBuffer ∧ conn'.inStart = conn.inStart ∧
      conn'.inCursor = conn.inCursor + (name ++ [0] ++ value ++ [0]).length ∧ conn'.view = conn.view := by
  have hfirst : conn.input = name ++ [0] ++ (value ++ [0] ++ rest) := by
    rw [h]
    simp
  have hgets := pqGets_front hfirst hname
  have hsecond := input_of_advance hfirst
  rw [List.length_append, List.length_singleton] at hsecond
  have hgets' := pqGets_front hsecond hvalue
  unfold PGconn.getParameterStatus
  rw [hgets, Option.bind_some]
  dsimp only
  rw [hgets', Option.map_some]
  refine ⟨_, rfl, rfl, rfl, ?_, rfl⟩
  simp only [PGconn.pqSaveParameterStatus, PGconn.advance, List.length_append, List.length_singleton]
  omega

/-- A message is whole in the buffer, with `rest` behind it. -/
private structure Whole (conn : PGconn) (f : Frame) (rest : Bytes) : Prop where
  step : conn.parseStep = conn.atBody.parseMessage f.id f.body.length
  input : conn.atBody.input = f.body ++ rest
  length : conn.inStart + 5 + f.body.length ≤ conn.inBuffer.length
  drop : conn.inBuffer.drop (conn.inStart + 5 + f.body.length) = rest

private theorem whole_of_unread {f : Frame} {rest : Bytes} (hfits : f.Fits)
    (hstart : conn.inStart ≤ conn.inBuffer.length)
    (h : conn.unread = f.encode ++ rest) : Whole conn f rest := by
  obtain ⟨hstep, hinput⟩ := Frame.parseStep_whole hfits h
  have hlength := unread_length hstart
  rw [h, List.length_append, Frame.length_encode] at hlength
  refine ⟨hstep, hinput, by omega, ?_⟩
  rw [← List.drop_drop]
  change conn.atBody.input.drop _ = _
  rw [hinput, List.drop_left]

section Handlers

attribute [local simp] PGconn.parseBusy PGconn.parseIdle

variable {name value tag body rest : Bytes}

private theorem consumes_idleStatus (h : Whole conn ⟨83, name ++ [0] ++ value ++ [0]⟩ rest)
    (hidle : conn.asyncStatus = .idle)
    (hname : 0 ∉ name) (hvalue : 0 ∉ value) : Consumes conn conn.view rest := by
  obtain ⟨hstep, hinput, -, hdrop⟩ := h
  dsimp only at hstep hinput hdrop
  rw [parseMessage_idle hidle (by decide)] at hstep
  have hidle' : ¬ conn.atBody.asyncStatus ≠ .idle := not_not.2 hidle
  obtain ⟨conn', hstatus, hbuffer, hstart', hcursor, hview⟩ := getParameterStatus_front hname hvalue hinput
  unfold PGconn.parseIdle at hstep
  simp only [if_neg hidle', hstatus] at hstep
  exact consumes_of hstep hbuffer hstart' hcursor hview hdrop

private theorem consumes_idleOther {f : Frame} (h : Whole conn f rest) (hidle : conn.asyncStatus = .idle)
    (hid : f.id ∉ ([65, 78, 69, 83] : List UInt8)) : Consumes conn conn.view rest := by
  obtain ⟨hstep, -, -, hdrop⟩ := h
  simp only [List.mem_cons, List.not_mem_nil, or_false, not_or] at hid
  rw [parseMessage_idle hidle (by simp [hid])] at hstep
  have hidle' : ¬ conn.atBody.asyncStatus ≠ .idle := not_not.2 hidle
  unfold PGconn.parseIdle at hstep
  rw [if_neg hidle'] at hstep
  split at hstep
  · simp_all
  · simp_all
  · exact consumes_of hstep rfl rfl rfl rfl hdrop

private theorem consumes_commandComplete (h : Whole conn ⟨67, tag ++ [0]⟩ rest) (hbusy : conn.asyncStatus = .busy)
    (htag : 0 ∉ tag) : Consumes conn { conn.view with
      result := some { conn.view.result.getD (emptyResult .commandOk) with cmdStatus := tag }
      asyncStatus := .ready } rest := by
  obtain ⟨hstep, hinput, -, hdrop⟩ := h
  dsimp only at hstep hinput
  have hgets := pqGets_front hinput htag
  rw [parseMessage_handled hbusy (by decide)] at hstep
  simp only [PGconn.parseBusy, hgets] at hstep
  exact consumes_of hstep rfl rfl (by simp [PGconn.advance, PGconn.atBody]) rfl hdrop

private theorem consumes_readyForQuery {status : UInt8} (h : Whole conn ⟨90, [status]⟩ rest)
    (hbusy : conn.asyncStatus = .busy) :
    Consumes conn { conn.view with asyncStatus := .idle } rest := by
  obtain ⟨hstep, hinput, -, hdrop⟩ := h
  dsimp only at hstep hinput
  have hgetc : conn.atBody.pqGetc = some (status, conn.atBody.advance 1) := by
    unfold PGconn.pqGetc
    rw [hinput]
    rfl
  rw [parseMessage_handled hbusy (by decide)] at hstep
  simp only [PGconn.parseBusy, PGconn.getReadyForQuery, hgetc, Option.map_some] at hstep
  exact consumes_of hstep rfl rfl rfl rfl hdrop

private theorem consumes_parseComplete (h : Whole conn ⟨49, []⟩ rest) (hbusy : conn.asyncStatus = .busy) :
    Consumes conn (if conn.view.queryclass = .prepare then conn.view.ready .commandOk else conn.view) rest := by
  obtain ⟨hstep, -, -, hdrop⟩ := h
  rw [parseMessage_handled hbusy (by decide)] at hstep
  by_cases hclass : conn.queryclass = .prepare
  · have hclass' : conn.atBody.queryclass = .prepare := hclass
    have hclass'' : conn.view.queryclass = .prepare := hclass
    simp only [PGconn.parseBusy, if_pos hclass'] at hstep
    rw [if_pos hclass'']
    exact consumes_of hstep rfl rfl rfl rfl hdrop
  · have hclass' : ¬ conn.atBody.queryclass = .prepare := hclass
    have hclass'' : ¬ conn.view.queryclass = .prepare := hclass
    simp only [PGconn.parseBusy, if_neg hclass'] at hstep
    rw [if_neg hclass'']
    exact consumes_of hstep rfl rfl rfl rfl hdrop

private theorem consumes_parameterStatus (h : Whole conn ⟨83, name ++ [0] ++ value ++ [0]⟩ rest)
    (hbusy : conn.asyncStatus = .busy) (hname : 0 ∉ name) (hvalue : 0 ∉ value) : Consumes conn conn.view rest := by
  obtain ⟨hstep, hinput, -, hdrop⟩ := h
  dsimp only at hstep hinput hdrop
  obtain ⟨conn', hstatus, hbuffer, hstart', hcursor, hview⟩ := getParameterStatus_front hname hvalue hinput
  rw [parseMessage_handled hbusy (by decide)] at hstep
  simp only [PGconn.parseBusy, hstatus] at hstep
  exact consumes_of hstep hbuffer hstart' hcursor hview hdrop

private theorem consumes_backendKey (h : Whole conn ⟨75, body⟩ rest) (hbusy : conn.asyncStatus = .busy)
    (hbody : body.length = 8) : Consumes conn conn.view rest := by
  obtain ⟨hstep, hinput, -, hdrop⟩ := h
  dsimp only at hstep hinput hdrop
  obtain ⟨bePid, hpid⟩ : ∃ bePid, conn.atBody.pqGetInt 4 = some (bePid, conn.atBody.advance 4) := by
    unfold PGconn.pqGetInt
    rw [if_pos (by rw [hinput, List.length_append]; omega)]
    exact ⟨_, rfl⟩
  obtain ⟨beKey, hkey⟩ : ∃ beKey, PGconn.pqGetInt { conn.atBody.advance 4 with bePid := bePid } 4 =
      some (beKey, PGconn.advance { conn.atBody.advance 4 with bePid := bePid } 4) := by
    have hrest : PGconn.input { conn.atBody.advance 4 with bePid := bePid } = conn.atBody.input.drop 4 :=
      input_advance 4
    unfold PGconn.pqGetInt
    rw [hrest, if_pos (by rw [hinput, List.length_drop, List.length_append]; omega)]
    exact ⟨_, rfl⟩
  rw [parseMessage_handled hbusy (by decide)] at hstep
  simp only [PGconn.parseBusy, hpid, hkey] at hstep
  exact consumes_of hstep rfl rfl (by simp [PGconn.advance, PGconn.atBody, hbody]) rfl hdrop

private theorem consumes_rowDescription {columns : List Column}
    (h : Whole conn (Message.rowDescription columns).frame rest)
    (hbusy : conn.asyncStatus = .busy)
    (hresult : conn.result = none ∨ conn.queryclass = .describe ∧ ∀ r ∈ conn.result, r.status ≠ .fatalError)
    (hwf : (Message.rowDescription columns).WellFormed)
    (hcount : columns.length ≤ conn.view.toDescribe.attDescs.length + 1) :
    Consumes conn { conn.view with
      result := some (described conn.view.toDescribe columns)
      asyncStatus := if conn.view.queryclass = .describe then .ready else .busy } rest := by
  obtain ⟨hstep, hinput, hlength, hdrop⟩ := h
  have hrow := getRowDescriptions_described hwf hcount hinput
  have hbusy' : conn.asyncStatus = .busy := hbusy
  rw [parseMessage_handled hbusy (by simp [Message.frame, Message.id])] at hstep
  have hparse : conn.atBody.parseBusy 84 (Message.rowDescription columns).body.length =
      (conn.atBody.getRowDescriptions (Message.rowDescription columns).body.length).map .again := by
    unfold PGconn.parseBusy
    rcases hresult with hnone | ⟨hclass, hfine⟩
    · have hresult' : conn.atBody.result = none := hnone
      simp only [hresult']
    · cases hresult : conn.result with
      | none =>
        have hresult' : conn.atBody.result = none := hresult
        simp only [hresult']
      | some r =>
        have hresult' : conn.atBody.result = some r := hresult
        have hfine' : ¬ r.status = .fatalError := hfine r hresult
        have hclass' : conn.atBody.queryclass = .describe := hclass
        simp only [hresult', if_neg hfine', if_pos hclass']
  have hstep' := hstep.trans hparse
  rw [hrow, Option.map_some] at hstep'
  refine ⟨_, hstep', ?_, hdrop, ?_⟩
  · unfold PGconn.view
    dsimp only
    rw [hbusy']
  · change conn.inStart + 5 + (Message.rowDescription columns).frame.body.length ≤ conn.inBuffer.length
    omega

private theorem consumes_noData (h : Whole conn ⟨110, []⟩ rest) (hbusy : conn.asyncStatus = .busy) :
    Consumes conn (if conn.view.queryclass = .describe then conn.view.ready .commandOk else conn.view) rest := by
  obtain ⟨hstep, -, -, hdrop⟩ := h
  rw [parseMessage_handled hbusy (by decide)] at hstep
  by_cases hclass : conn.queryclass = .describe
  · have hclass' : conn.atBody.queryclass = .describe := hclass
    have hclass'' : conn.view.queryclass = .describe := hclass
    simp only [PGconn.parseBusy, if_pos hclass'] at hstep
    rw [if_pos hclass'']
    exact consumes_of hstep rfl rfl rfl rfl hdrop
  · have hclass' : ¬ conn.atBody.queryclass = .describe := hclass
    have hclass'' : ¬ conn.view.queryclass = .describe := hclass
    simp only [PGconn.parseBusy, if_neg hclass'] at hstep
    rw [if_neg hclass'']
    exact consumes_of hstep rfl rfl rfl rfl hdrop

private theorem consumes_dataRow {r : PGresult} {values : List (Option Bytes)}
    (h : Whole conn (Message.dataRow values).frame rest) (hbusy : conn.asyncStatus = .busy)
    (hresult : conn.result = some r) (hstatus : r.status = .tuplesOk) (hwf : (Message.dataRow values).WellFormed)
    (hnull : none ∉ values) (hnumber : r.numAttributes = values.length) :
    Consumes conn { conn.view with
      rowBuffer := conn.rowBuffer ++ values.map fun value => value.getD []
      result := some { r with
        tuples := r.tuples ++
          [(conn.rowBuffer ++ values.map fun value => value.getD []).take r.numAttributes.toNat] } } rest := by
  obtain ⟨hstep, hinput, hlength, hdrop⟩ := h
  obtain ⟨conn', htuple, hbuffer, hstart', hview⟩ := getAnotherTuple_front hwf hnull hnumber hinput
  have hresult' : conn.atBody.result = some r := hresult
  rw [parseMessage_handled hbusy (by simp [Message.frame, Message.id])] at hstep
  simp only [Message.frame, Message.id, PGconn.parseBusy, hresult', hstatus, if_true, htuple,
    Option.map_some] at hstep
  refine ⟨conn', hstep, hview, ?_, ?_⟩
  · unfold PGconn.unread
    rw [hbuffer, hstart']
    exact hdrop
  · rw [hbuffer, hstart']
    change conn.inStart + 5 + (Message.dataRow values).frame.body.length ≤ conn.inBuffer.length
    omega

private theorem consumes_strayRow (h : Whole conn ⟨68, body⟩ rest) (hbusy : conn.asyncStatus = .busy)
    (hresult : ∀ r ∈ conn.result, r.status ≠ .tuplesOk) : Consumes conn conn.view rest := by
  obtain ⟨hstep, -, -, hdrop⟩ := h
  dsimp only at hstep
  rw [parseMessage_handled hbusy (by decide)] at hstep
  cases hrow : conn.result with
  | none =>
    have hresult' : conn.atBody.result = none := hrow
    simp only [PGconn.parseBusy, hresult'] at hstep
    exact consumes_of hstep rfl rfl rfl rfl hdrop
  | some r =>
    have hresult' : conn.atBody.result = some r := hrow
    have hstatus : ¬ r.status = .tuplesOk := hresult r hrow
    by_cases hfailed : r.status = .fatalError
    · simp only [PGconn.parseBusy, hresult', if_neg hstatus, if_pos hfailed] at hstep
      exact consumes_of hstep rfl rfl rfl rfl hdrop
    · simp only [PGconn.parseBusy, hresult', if_neg hstatus, if_neg hfailed] at hstep
      exact consumes_of hstep rfl rfl rfl rfl hdrop

private theorem consumes_copyStart {id : UInt8} {status : ExecStatusType} {asyncStatus : PGAsyncStatusType}
    (h : Whole conn ⟨id, [0, 0]⟩ rest) (hbusy : conn.asyncStatus = .busy)
    (hid : (id, status, asyncStatus) ∈
      [(71, .copyIn, .copyIn), (72, .copyOut, .copyOut), (87, .copyBoth, PGAsyncStatusType.copyBoth)]) :
    Consumes conn { conn.view with result := some (emptyResult status), asyncStatus } rest := by
  obtain ⟨hstep, hinput, -, hdrop⟩ := h
  have hint : conn.atBody.pqGetInt 2 = some (0, conn.atBody.advance 2) := pqGetInt_front (n := 0) hinput (by decide)
  simp only [List.mem_cons, List.not_mem_nil, or_false, Prod.mk.injEq] at hid
  rcases hid with ⟨rfl, rfl, rfl⟩ | ⟨rfl, rfl, rfl⟩ | ⟨rfl, rfl, rfl⟩
  all_goals
    rw [parseMessage_handled hbusy (by decide)] at hstep
    simp only [PGconn.parseBusy, PGconn.getCopyStart, hint, lt_irrefl, if_false] at hstep
    exact consumes_of hstep rfl rfl rfl rfl hdrop

private theorem consumes_unknown {f : Frame} (h : Whole conn f rest) (hbusy : conn.asyncStatus = .busy)
    (hid : f.id ∉ 65 :: 78 :: knownTypes) : Consumes conn { conn.view with asyncStatus := .ready } rest := by
  obtain ⟨hstep, -, -, hdrop⟩ := h
  simp only [knownTypes, List.mem_cons, List.not_mem_nil, or_false, not_or] at hid
  rw [parseMessage_handled hbusy (by simp [hid])] at hstep
  unfold PGconn.parseBusy at hstep
  dsimp only at hstep
  split at hstep
  case h_19 => exact consumes_of hstep rfl rfl rfl rfl hdrop
  all_goals simp_all

end Handlers

/-- A message that is handled or skipped is consumed, and nothing else. -/
theorem consumes_of_handles {f : Frame} {v : View} {rest : Bytes} (hhandles : Handles conn.view f v) (hfits : f.Fits)
    (hstart : conn.inStart ≤ conn.inBuffer.length) (h : conn.unread = f.encode ++ rest) : Consumes conn v rest := by
  have hwhole := whole_of_unread hfits hstart h
  have hstep := hwhole.step
  have hdrop := hwhole.drop
  cases hhandles with
  | notice => exact consumes_of hstep rfl rfl rfl rfl hdrop
  | idleError hidle =>
    rw [parseMessage_idle hidle (by decide)] at hstep
    have hidle' : ¬ conn.atBody.asyncStatus ≠ .idle := not_not.2 hidle
    unfold PGconn.parseIdle at hstep
    rw [if_neg hidle'] at hstep
    exact consumes_of hstep rfl rfl rfl rfl hdrop
  | idleStatus hidle hname hvalue => exact consumes_idleStatus hwhole hidle hname hvalue
  | idleOther hidle hid => exact consumes_idleOther hwhole hidle hid
  | commandComplete hbusy htag => exact consumes_commandComplete hwhole hbusy htag
  | error hbusy =>
    rw [parseMessage_handled hbusy (by decide)] at hstep
    exact consumes_of hstep rfl rfl rfl rfl hdrop
  | readyForQuery hbusy => exact consumes_readyForQuery hwhole hbusy
  | emptyQuery hbusy =>
    rw [parseMessage_handled hbusy (by decide)] at hstep
    exact consumes_of hstep rfl rfl rfl rfl hdrop
  | parseComplete hbusy => exact consumes_parseComplete hwhole hbusy
  | nothing hbusy hid =>
    simp only [List.mem_cons, List.not_mem_nil, or_false] at hid
    rcases hid with rfl | rfl | rfl
    all_goals
      rw [parseMessage_handled hbusy (by decide)] at hstep
      exact consumes_of hstep rfl rfl rfl rfl hdrop
  | parameterStatus hbusy hname hvalue => exact consumes_parameterStatus hwhole hbusy hname hvalue
  | backendKey hbusy hbody => exact consumes_backendKey hwhole hbusy hbody
  | failedDescription hbusy hresult hfailed body =>
    dsimp only at hstep
    have hresult' : conn.atBody.result = some _ := hresult
    rw [parseMessage_handled hbusy (by decide)] at hstep
    simp only [PGconn.parseBusy, hresult', hfailed, if_true] at hstep
    exact consumes_of hstep rfl rfl rfl rfl hdrop
  | rowDescription hbusy hresult hwf hcount => exact consumes_rowDescription hwhole hbusy hresult hwf hcount
  | noData hbusy => exact consumes_noData hwhole hbusy
  | dataRow hbusy hresult hstatus hwf hnull hnumber =>
    exact consumes_dataRow hwhole hbusy hresult hstatus hwf hnull hnumber
  | strayRow hbusy hresult => exact consumes_strayRow hwhole hbusy hresult
  | copyStart hbusy hid => exact consumes_copyStart hwhole hbusy hid
  | copyData hbusy body =>
    dsimp only at hstep
    rw [parseMessage_handled hbusy (by decide)] at hstep
    exact consumes_of hstep rfl rfl rfl rfl hdrop
  | unknown hbusy hid => exact consumes_unknown hwhole hbusy hid

end Postgresql
