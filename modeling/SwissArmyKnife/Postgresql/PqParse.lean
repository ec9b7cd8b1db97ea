import SwissArmyKnife.Postgresql.PqExec

/-!
# A message in the buffer

What the functions read when the bytes are there, and the header of a message, wherever it lies in the buffer
(`Frame.parseStep_head`).  What matters of a connection between two messages is its `View`.
-/

namespace Postgresql

open Words (toInt)

namespace PGconn

variable (conn : PGconn)

/-- The bytes that have not been parsed. -/
def unread : Bytes := conn.inBuffer.drop conn.inStart

end PGconn

/-! ### Reading -/

variable {conn : PGconn}

theorem input_advance (n : ℕ) : (conn.advance n).input = conn.input.drop n := by
  unfold PGconn.input PGconn.advance
  rw [List.drop_drop]

theorem input_of_advance {front rest : Bytes} (h : conn.input = front ++ rest) :
    (conn.advance front.length).input = rest := by
  rw [input_advance, h, List.drop_left]

theorem pqGetInt_front {width n : ℕ} {rest : Bytes} (h : conn.input = BigEndian.toBytes width n ++ rest)
    (hn : n < 256 ^ width) : conn.pqGetInt width = some (toInt n, conn.advance width) := by
  have htake : conn.input.take width = BigEndian.toBytes width n := by
    rw [h, List.take_left' (BigEndian.length_toBytes width n)]
  unfold PGconn.pqGetInt
  rw [htake, BigEndian.ofBytes_toBytes hn, if_pos (by rw [h, List.length_append, BigEndian.length_toBytes]; omega)]

theorem pqGets_front {s rest : Bytes} (h : conn.input = s ++ [0] ++ rest) (hs : 0 ∉ s) :
    conn.pqGets = some (s, conn.advance (s.length + 1)) := by
  have htake : conn.input.takeWhile (fun b => b ≠ 0) = s := by
    rw [h, List.append_assoc, List.takeWhile_append_of_pos]
    · simp
    · intro b hb
      have hne : b ≠ 0 := fun heq => hs (heq ▸ hb)
      simpa using hne
  unfold PGconn.pqGets
  rw [if_pos (by rw [h]; simp), htake]

theorem toInt_of_lt {n : ℕ} (h : n < 2 ^ 31) : toInt n = n := by
  unfold toInt
  rw [Int.bmod_eq_of_le] <;> omega

/-- The connection at the body of a message. -/
def PGconn.atBody (conn : PGconn) : PGconn := { conn with inCursor := conn.inStart + 5 }

/-- A message of any type. -/
structure Frame where
  id : UInt8
  body : Bytes
deriving DecidableEq, Repr

def Frame.encode (f : Frame) : Bytes := f.id :: BigEndian.toBytes 4 (f.body.length + 4) ++ f.body

/-- The length is one that is not refused. -/
structure Frame.Fits (f : Frame) : Prop where
  length : f.body.length + 4 < 2 ^ 31
  long : PGconn.validLongMessageType f.id = false → f.body.length + 4 ≤ 30000

def Message.frame (m : Message) : Frame := ⟨m.id, m.body⟩

theorem Message.WellFormed.fits {m : Message} (h : m.WellFormed) : m.frame.Fits := ⟨h.1, h.2.1⟩

theorem Frame.length_encode (f : Frame) : f.encode.length = f.body.length + 5 := by
  unfold Frame.encode
  rw [List.cons_append, List.length_cons, List.length_append, BigEndian.length_toBytes]
  omega

namespace Frame

variable {f : Frame}

/-- The header of a message. -/
private theorem parseStep_header {rest : Bytes} (hfits : f.Fits) (h : conn.unread = f.id ::
    (BigEndian.toBytes 4 (f.body.length + 4) ++ rest)) :
    conn.parseStep = if rest.length < f.body.length then some (.wait conn.atBody)
      else conn.atBody.parseMessage f.id f.body.length := by
  obtain ⟨hlength, hlong⟩ := hfits
  have hinput : PGconn.input { conn with inCursor := conn.inStart } = f.id ::
      (BigEndian.toBytes 4 (f.body.length + 4) ++ rest) := h
  have hgetc : PGconn.pqGetc { conn with inCursor := conn.inStart } =
      some (f.id, PGconn.advance { conn with inCursor := conn.inStart } 1) := by
    unfold PGconn.pqGetc
    rw [hinput]
  have hinput' : (PGconn.advance { conn with inCursor := conn.inStart } 1).input =
      BigEndian.toBytes 4 (f.body.length + 4) ++ rest := by
    rw [input_advance, hinput]
    rfl
  have hbody : conn.atBody.input = rest := by
    have := input_of_advance hinput'
    rwa [BigEndian.length_toBytes] at this
  unfold PGconn.parseStep
  dsimp only
  rw [hgetc]
  dsimp only
  rw [pqGetInt_front hinput' (by omega), toInt_of_lt hlength]
  dsimp only
  have hcast : ((f.body.length + 4 : ℕ) : ℤ) - 4 = f.body.length := by omega
  rw [hcast, Int.toNat_natCast, if_neg]
  · change (if conn.atBody.input.length < f.body.length then some (PGconn.Parsed.wait conn.atBody) else _) = _
    rw [hbody]
    rfl
  · rintro (hsmall | ⟨hlarge, hvalid⟩)
    · omega
    · have := hlong hvalid
      omega

theorem encode_eq (f : Frame) : f.encode = (f.id :: BigEndian.toBytes 4 (f.body.length + 4)) ++ f.body := rfl

/-- A message that is whole is parsed at its body. -/
theorem parseStep_whole {rest : Bytes} (hfits : f.Fits) (h : conn.unread = f.encode ++ rest) :
    conn.parseStep = conn.atBody.parseMessage f.id f.body.length ∧ conn.atBody.input = f.body ++ rest := by
  have hlength : (f.id :: BigEndian.toBytes 4 (f.body.length + 4)).length = 5 := by
    rw [List.length_cons, BigEndian.length_toBytes]
  have hunread : conn.unread = f.id :: (BigEndian.toBytes 4 (f.body.length + 4) ++ (f.body ++ rest)) := by
    rw [h, encode_eq]
    simp
  have hheader := parseStep_header hfits hunread
  rw [if_neg (by rw [List.length_append]; omega)] at hheader
  refine ⟨hheader, ?_⟩
  change conn.inBuffer.drop (conn.inStart + 5) = _
  rw [← List.drop_drop]
  change conn.unread.drop 5 = _
  rw [h, encode_eq, List.append_assoc, List.drop_left' hlength]

theorem rest_lt {rest : Bytes} {fuel : ℕ} (h : conn.unread = f.encode ++ rest)
    (hfuel : conn.unread.length < fuel + 1) :
    rest.length < fuel := by
  rw [h, List.length_append, length_encode] at hfuel
  omega

end Frame

/-- What matters of a connection between two messages. -/
structure View where
  bad : Bool
  asyncStatus : PGAsyncStatusType
  queryclass : PGQueryClass
  rowBuffer : List Bytes
  result : Option PGresult

def PGconn.view (conn : PGconn) : View := ⟨conn.bad, conn.asyncStatus, conn.queryclass, conn.rowBuffer, conn.result⟩

/-- A result with nothing in it. -/
def emptyResult (status : ExecStatusType) : PGresult := ⟨status, 0, [], [], "", [], 0⟩

/-- The description of a column as it is read. -/
def Column.desc (c : Column) : PGresAttDesc :=
  ⟨c.name, toSize (toInt c.tableid), toInt16 (toInt c.columnid), toInt16 (toInt c.format), toSize (toInt c.typid),
    toInt16 (toInt c.typlen), toInt c.atttypmod⟩

/-- The loop goes on with the message consumed. -/
def Consumes (conn : PGconn) (v : View) (rest : Bytes) : Prop :=
  ∃ conn', conn.parseStep = some (.again conn') ∧ conn'.view = v ∧ conn'.unread = rest ∧
    conn'.inStart ≤ conn'.inBuffer.length

theorem consumed_of_end {id : UInt8} {msgLength : ℕ} (h : conn.inCursor = conn.inStart + 5 + msgLength) :
    (conn.consumed id msgLength).view = conn.view ∧ (conn.consumed id msgLength).unread = conn.input ∧
      (conn.consumed id msgLength).inStart ≤ (conn.consumed id msgLength).inBuffer.length := by
  unfold PGconn.consumed
  rw [if_pos h]
  exact ⟨rfl, rfl, Nat.zero_le _⟩

theorem consumes_of {conn' : PGconn} {id : UInt8} {msgLength : ℕ} {v : View} {rest : Bytes}
    (hstep : conn.parseStep = some (.again (conn'.consumed id msgLength))) (hbuffer : conn'.inBuffer = conn.inBuffer)
    (hstart : conn'.inStart = conn.inStart) (hcursor : conn'.inCursor = conn.inStart + 5 + msgLength)
    (hview : conn'.view = v) (hdrop : conn.inBuffer.drop (conn.inStart + 5 + msgLength) = rest) :
    Consumes conn v rest := by
  obtain ⟨hview', hunread, hle⟩ := @consumed_of_end conn' id msgLength (by rw [hcursor, hstart])
  have hinput : conn'.input = rest := by
    unfold PGconn.input
    rw [hbuffer, hcursor, hdrop]
  exact ⟨_, hstep, hview'.trans hview, hunread.trans hinput, hle⟩

theorem length_encodeValue (value : Bytes) : (encodeValue (some value)).length = 4 + value.length := by
  rw [encodeValue, List.length_append, BigEndian.length_toBytes]

/-- The connection behind a value. -/
def PGconn.pushValue (conn : PGconn) (value : Bytes) : PGconn :=
  { conn with rowBuffer := conn.rowBuffer ++ [value], inCursor := conn.inCursor + (4 + value.length) }

theorem getValues_some {value rest : Bytes} {n : ℕ} (hlength : value.length < 2 ^ 31)
    (h : conn.input = encodeValue (some value) ++ rest) :
    PGconn.getValues (n + 1) conn = PGconn.getValues n (conn.pushValue value) ∧
    (conn.pushValue value).input = rest := by
  rw [encodeValue, List.append_assoc] at h
  have hint := pqGetInt_front h (show value.length < 256 ^ 4 by omega)
  have hinput := input_of_advance h
  rw [BigEndian.length_toBytes] at hinput
  have hnext : (conn.pushValue value).input = rest := by
    change conn.inBuffer.drop (conn.inCursor + (4 + value.length)) = rest
    rw [← Nat.add_assoc, ← List.drop_drop]
    change (conn.advance 4).input.drop value.length = rest
    rw [hinput, List.drop_left]
  have hskip : PGconn.pqSkipnchar { conn.advance 4 with rowBuffer := (conn.advance 4).rowBuffer ++
      [value] } value.length =
      some (conn.pushValue value) := by
    unfold PGconn.pqSkipnchar
    rw [if_pos]
    · simp only [PGconn.advance, PGconn.pushValue, Nat.add_assoc]
    · change value.length ≤ (conn.advance 4).input.length
      rw [hinput, List.length_append]
      omega
  refine ⟨?_, hnext⟩
  rw [PGconn.getValues, hint, Option.bind_some, toInt_of_lt (by omega)]
  dsimp only
  rw [if_neg (by omega), Int.toNat_natCast, hinput, List.take_left, hskip, Option.bind_some]

/-- The values of a row are read one after another. -/
theorem getValues_front {values : List (Option Bytes)} {rest : Bytes} (hnull : none ∉ values)
    (hlength : (values.map encodeValue).flatten.length < 2 ^ 31)
    (h : conn.input = (values.map encodeValue).flatten ++ rest) :
    PGconn.getValues values.length conn = some { conn with
      rowBuffer := conn.rowBuffer ++ values.map fun value => value.getD []
      inCursor := conn.inCursor + (values.map encodeValue).flatten.length } := by
  induction values generalizing conn with
  | nil => simp [PGconn.getValues]
  | cons value values ih =>
    cases value with
    | none => simp at hnull
    | some value =>
      rw [List.map_cons, List.flatten_cons] at h hlength
      rw [List.length_append] at hlength
      rw [List.append_assoc] at h
      have hvalue := length_encodeValue value
      obtain ⟨hvalues, hinput⟩ := getValues_some (by omega) h
      rw [List.length_cons, hvalues, ih (fun hmem => hnull (List.mem_cons_of_mem _ hmem)) (by omega) hinput]
      simp [PGconn.pushValue, hvalue, Nat.add_assoc]

/-- A column description is read. -/
theorem getAttDesc_front {c : Column} {rest : Bytes} (hname : 0 ∉ c.name) (htableid : c.tableid < 2 ^ 32)
    (hcolumnid : c.columnid < 2 ^ 16) (htypid : c.typid < 2 ^ 32) (htyplen : c.typlen < 2 ^ 16)
    (hatttypmod : c.atttypmod < 2 ^ 32) (hformat : c.format < 2 ^ 16) (h : conn.input = c.encode ++ rest) :
    conn.getAttDesc = some (c.desc, conn.advance c.encode.length) := by
  unfold Column.encode at h
  simp only [List.append_assoc] at h
  rw [← List.append_assoc] at h
  have hgets := pqGets_front h hname
  have h₁ := input_of_advance h
  rw [List.length_append, List.length_singleton] at h₁
  have hread : ∀ {conn : PGconn} {width n : ℕ} {rest : Bytes}, conn.input = BigEndian.toBytes width n ++ rest →
      (conn.advance width).input = rest := by
    intro conn width n rest h
    have := input_of_advance h
    rwa [BigEndian.length_toBytes] at this
  have h₂ := hread h₁
  have h₃ := hread h₂
  have h₄ := hread h₃
  have h₅ := hread h₄
  have h₆ := hread h₅
  have g₁ := pqGetInt_front h₁ (show c.tableid < 256 ^ 4 by omega)
  have g₂ := pqGetInt_front h₂ (show c.columnid < 256 ^ 2 by omega)
  have g₃ := pqGetInt_front h₃ (show c.typid < 256 ^ 4 by omega)
  have g₄ := pqGetInt_front h₄ (show c.typlen < 256 ^ 2 by omega)
  have g₅ := pqGetInt_front h₅ (show c.atttypmod < 256 ^ 4 by omega)
  have g₆ := pqGetInt_front h₆ (show c.format < 256 ^ 2 by omega)
  unfold PGconn.getAttDesc
  simp only [hgets, g₁, g₂, g₃, g₄, g₅, g₆, Option.bind_some, Option.map_some]
  simp [Column.desc, Column.encode, PGconn.advance, Nat.add_assoc]

/-- A row is taken from the front of `rowBuffer`. -/
theorem getAnotherTuple_front {values : List (Option Bytes)} {rest : Bytes} {result : PGresult}
    (hwf : (Message.dataRow values).WellFormed) (hnull : none ∉ values)
    (hnumber : result.numAttributes = values.length)
    (h : conn.atBody.input = (Message.dataRow values).body ++ rest) :
    ∃ conn', conn.atBody.getAnotherTuple result (Message.dataRow values).body.length = some conn' ∧
      conn'.inBuffer = conn.inBuffer ∧ conn'.inStart = conn.inStart + 5 + (Message.dataRow values).body.length ∧
      conn'.view = { conn.view with
        rowBuffer := conn.rowBuffer ++ values.map fun value => value.getD []
        result := some { result with
          tuples := result.tuples ++
            [(conn.rowBuffer ++ values.map fun value => value.getD []).take result.numAttributes.toNat] } } := by
  obtain ⟨hlength, -, hcount⟩ := hwf
  unfold Message.body at h hlength ⊢
  rw [List.length_append, BigEndian.length_toBytes] at hlength ⊢
  rw [List.append_assoc] at h
  have hint := pqGetInt_front h (show values.length < 256 ^ 2 by omega)
  rw [toInt_of_lt (by omega)] at hint
  have hinput := input_of_advance h
  rw [BigEndian.length_toBytes] at hinput
  have hvalues := getValues_front hnull (by omega) hinput
  unfold PGconn.getAnotherTuple
  simp only [hint, Option.bind_some, hnumber, ne_eq, not_true_eq_false, if_false, Int.toNat_natCast, hvalues]
  rw [if_pos]
  · refine ⟨_, rfl, rfl, by dsimp only [PGconn.pqRowProcessor, PGconn.advance, PGconn.atBody]; omega, ?_⟩
    unfold PGconn.view PGconn.pqRowProcessor
    dsimp only
    rw [hnumber]
    rfl
  · dsimp only [PGconn.advance, PGconn.atBody]
    omega

theorem unread_length (hstart : conn.inStart ≤ conn.inBuffer.length) :
    conn.inBuffer.length = conn.inStart + conn.unread.length := by
  unfold PGconn.unread
  rw [List.length_drop]
  omega

/-- A chunk arrives. -/
theorem unread_chunk (hstart : conn.inStart ≤ conn.inBuffer.length) (chunk : Bytes) :
    PGconn.unread { conn with inBuffer := conn.inBuffer ++ chunk } = conn.unread ++ chunk := by
  unfold PGconn.unread
  exact List.drop_append_of_le_length hstart

end Postgresql
