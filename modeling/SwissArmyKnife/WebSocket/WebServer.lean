import SwissArmyKnife.Lib.Chunks
import SwissArmyKnife.WebSocket.WebContext

/-!
# Messages

The server records for a frame that is not the last one of its message, and for a last one that is not the first, that
it is a continuation, and passes over it.  So a message is delivered when it is sent in one frame, and what comes in
several is never (`faithful_iff`).
-/

namespace WebSocket

open Chunks (Step Shrinks Framed arrived drain feedAll)

/-- A connection after the handshake, with the requests that the read callback has been called with. -/
structure Connection where
  request : WebRequest
  closed : Bool
  delivered : List WebRequest
deriving DecidableEq, Repr

def Connection.init : Connection := ⟨.reset, false, []⟩

/-- One turn of the loop in `onMessage`.  After a `stop` the bytes stay in the buffer. -/
def processFrame (httpReadCallback : WebRequest → Bool) (s : Connection) (buffer : Bytes) : Step Connection UInt8 :=
  match wsFrameExtractBuffer s.request buffer with
  | none => .wait
  | some x =>
    let s := { s with request := x.request, closed := s.closed || x.forceClose }
    if x.request.opcode = .PING_FRAME ∨ x.request.opcode = .PONG_FRAME ∨ x.request.opcode = .CLOSE_FRAME then
      .stop { s with closed := true }
    else if x.request.opcode = .CONTINUATION_FRAME then .next s (buffer.drop x.size)
    else if x.fin then
      let s := { s with delivered := s.delivered ++ [x.request] }
      if httpReadCallback x.request then .next { s with request := .reset } (buffer.drop x.size)
      else .stop { s with closed := true }
    else .stop { s with closed := true }

def onMessage (httpReadCallback : WebRequest → Bool) (s : Connection) (buffer : Bytes) : Connection × Bytes :=
  drain (processFrame httpReadCallback) s buffer

/-! ### Messages -/

/-- A text or binary message, sent in one frame or more. -/
structure Message where
  binary : Bool
  first : Fragment
  others : List Fragment

namespace Message

def opcode (m : Message) : Opcode := if m.binary then .binary else .text

/-- The frames of the parts of a message, the last one with `fin` set. -/
def framesFrom (opcode : Opcode) : List Fragment → List Frame
  | [] => []
  | fragment :: fragments => ⟨fragment, fragments.isEmpty, opcode⟩ :: framesFrom .continuation fragments

def frames (m : Message) : List Frame := framesFrom m.opcode (m.first :: m.others)

def encode (m : Message) : Bytes := (m.frames.map Frame.encode).flatten

/-- What the read callback is to be called with. -/
def request (m : Message) : WebRequest :=
  ⟨m.opcode.type, ((m.first :: m.others).map Fragment.payload).flatten⟩

end Message

/-- After each chunk, the callback has been called for the messages that have arrived, and the connection is open. -/
def Faithful (messages : List Message) (chunks : List Bytes) : Prop :=
  ∀ before after, chunks = before ++ after →
    (feedAll (processFrame fun _ => true) (.init, []) before).1.closed = false ∧
      (feedAll (processFrame fun _ => true) (.init, []) before).1.delivered =
        (arrived Message.encode before.flatten.length messages).map Message.request

/-! ### What a frame does -/

theorem two_le_of_payloadLength {buffer : Bytes} {len pos : ℕ} (h : payloadLength buffer = some (len, pos)) :
    2 ≤ pos := by
  unfold payloadLength at h
  dsimp only at h
  split_ifs at h <;> cases h <;> omega

theorem two_le_of_extract {request : WebRequest} {buffer : Bytes} {x : Extracted}
    (h : wsFrameExtractBuffer request buffer = some x) : 2 ≤ x.size := by
  unfold wsFrameExtractBuffer at h
  dsimp only at h
  cases hlength : payloadLength buffer with
  | none =>
    rw [hlength] at h
    split_ifs at h
  | some p =>
    obtain ⟨len, pos⟩ := p
    have hpos := two_le_of_payloadLength hlength
    rw [hlength] at h
    dsimp only at h
    split_ifs at h <;> cases h <;> dsimp only <;> omega

theorem shrinks_processFrame (httpReadCallback : WebRequest → Bool) :
    Shrinks (processFrame httpReadCallback) fun _ _ => True := by
  intro s buffer s' rest _ hne h
  refine ⟨trivial, ?_⟩
  have hpos := List.length_pos_of_ne_nil hne
  unfold processFrame at h
  cases hx : wsFrameExtractBuffer s.request buffer with
  | none =>
    rw [hx] at h
    cases h
  | some x =>
    have hsize := two_le_of_extract hx
    rw [hx] at h
    dsimp only at h
    split_ifs at h <;> cases h <;> rw [List.length_drop] <;> omega

/-- What a frame does that is not too long. -/
def Connection.take (s : Connection) (f : Frame) : Connection :=
  let request : WebRequest := ⟨f.type, s.request.parseString ++ f.payload⟩
  if f.type = .CONTINUATION_FRAME then { s with request := request }
  else { s with request := .reset, delivered := s.delivered ++ [request] }

private theorem processFrame_whole {f : Frame} (hlength : f.payload.length < 2 ^ 31) (s : Connection) (rest : Bytes) :
    processFrame (fun _ => true) s (f.encode ++ rest) = .next (s.take f) rest := by
  have hx := extract_front hlength s.request (List.prefix_refl (f.encode ++ rest))
  rw [if_neg (by simp)] at hx
  unfold processFrame
  rw [hx]
  dsimp only
  rw [List.drop_left, Bool.or_false, Connection.take, Frame.type]
  cases f.fin <;> cases f.opcode <;> rfl

private theorem processFrame_part {f : Frame} (s : Connection) {buf : Bytes} (hbuf : buf <+: f.encode)
    (hpart : buf.length < f.encode.length) : processFrame (fun _ => true) s buf = .wait := by
  have hfront : buf <+: f.encode ++ [] := by rwa [List.append_nil]
  unfold processFrame
  rcases Nat.lt_or_ge f.payload.length (2 ^ 31) with hlength | hlength
  · rw [extract_front hlength s.request hfront, if_pos hpart]
  · rw [extract_long hlength s.request hfront]

private theorem processFrame_long {f : Frame} (hlength : 2 ^ 31 ≤ f.payload.length)
    (s : Connection) {buf more : Bytes}
    (hbuf : buf <+: f.encode ++ more) : processFrame (fun _ => true) s buf = .wait := by
  unfold processFrame
  rw [extract_long hlength s.request hbuf]

private theorem encode_ne_nil (f : Frame) : f.encode ≠ [] := by
  intro h
  have hlength := f.length_encode
  rw [h, List.length_nil] at hlength
  omega

/-- The frames are taken in turn up to one that is too long. -/
private theorem framed_frames {frames : List Frame} (hlength : ∀ f ∈ frames, f.payload.length < 2 ^ 31) {tail : Bytes}
    (htail : ∀ (s : Connection) (buf : Bytes), buf <+: tail → processFrame (fun _ => true) s buf = .wait) :
    Framed (processFrame fun _ => true) Frame.encode Connection.take frames tail where
  shrinks := shrinks_processFrame _
  ne_nil f _ := encode_ne_nil f
  whole s f hf := processFrame_whole (hlength f hf) s
  part s _ _ _ := processFrame_part s
  tail := htail

/-! ### Messages in one frame -/

/-- The message is one frame, which is not too long. -/
def Message.Single (m : Message) : Prop := m.others = [] ∧ m.first.payload.length < 2 ^ 31

private theorem Message.Single.encode_eq {m : Message} (h : m.Single) :
    m.encode = Frame.encode ⟨m.first, true, m.opcode⟩ := by
  rw [Message.encode, Message.frames, h.1, Message.framesFrom, Message.framesFrom,
    List.isEmpty_nil, List.map_singleton,
    List.flatten_singleton]

private def Connection.takeSingle (s : Connection) (m : Message) : Connection := s.take ⟨m.first, true, m.opcode⟩

private theorem framed_messages {messages : List Message} (h : ∀ m ∈ messages, m.Single) :
    Framed (processFrame fun _ => true) Message.encode Connection.takeSingle messages [] where
  shrinks := shrinks_processFrame _
  ne_nil m hm := by
    rw [(h m hm).encode_eq]
    exact encode_ne_nil _
  whole s m hm rest := by
    rw [(h m hm).encode_eq]
    exact processFrame_whole (h m hm).2 s rest
  part s m hm buf hbuf hpart := by
    rw [(h m hm).encode_eq] at hbuf hpart
    exact processFrame_part s hbuf hpart
  tail s buf hbuf := by
    rw [List.prefix_nil.1 hbuf]
    rfl

private theorem foldl_take_messages {messages : List Message} (h : ∀ m ∈ messages, m.Single)
    (delivered : List WebRequest) :
    messages.foldl Connection.takeSingle ⟨.reset, false, delivered⟩ =
      ⟨.reset, false, delivered ++ messages.map Message.request⟩ := by
  induction messages generalizing delivered with
  | nil => simp
  | cons m messages ih =>
    have hm : Connection.takeSingle ⟨.reset, false, delivered⟩ m = ⟨.reset, false, delivered ++ [m.request]⟩ := by
      rw [Message.request, (h m (List.mem_cons_self ..)).1, List.map_singleton, List.flatten_singleton]
      unfold Connection.takeSingle Connection.take Frame.type Message.opcode
      cases m.binary <;> rfl
    rw [List.foldl_cons, hm, ih fun m' hm' => h m' (List.mem_cons_of_mem m hm'), List.map_cons, List.append_assoc,
      List.singleton_append]

private theorem faithful_of_single {messages : List Message} {chunks : List Bytes}
    (hchunks : chunks.flatten = (messages.map Message.encode).flatten) (h : ∀ m ∈ messages, m.Single) :
    Faithful messages chunks := by
  rintro before after rfl
  have hfront : before.flatten <+: (messages.map Message.encode).flatten := by
    rw [← hchunks, List.flatten_append]
    exact List.prefix_append ..
  rw [(framed_messages h).feedAll_arrived hfront, Connection.init,
    foldl_take_messages fun m hm => h m (Chunks.mem_of_mem_arrived hm), List.nil_append]
  exact ⟨rfl, rfl⟩

/-! ### Messages in several frames -/

/-- The read callback is called at this frame. -/
def Frame.signals (f : Frame) : Bool := f.type != .CONTINUATION_FRAME

private theorem length_delivered (frames : List Frame) (s : Connection) :
    (frames.foldl Connection.take s).delivered.length = s.delivered.length + frames.countP Frame.signals := by
  induction frames generalizing s with
  | nil => rfl
  | cons f frames ih =>
    rw [List.foldl_cons, ih, List.countP_cons, Connection.take, Frame.signals]
    by_cases hf : f.type = .CONTINUATION_FRAME
    · simp [hf]
    · simp [hf]
      omega

private theorem countP_continuation (fragments : List Fragment) :
    (Message.framesFrom .continuation fragments).countP Frame.signals = 0 := by
  induction fragments with
  | nil => rfl
  | cons fragment fragments ih =>
    rw [Message.framesFrom, List.countP_cons, ih, Frame.signals, Frame.type]
    cases fragments.isEmpty <;> rfl

/-- The callback is called for the messages that are one frame. -/
private theorem countP_frames (messages : List Message) :
    (messages.flatMap Message.frames).countP Frame.signals = messages.countP fun m => m.others.isEmpty := by
  induction messages with
  | nil => rfl
  | cons m messages ih =>
    rw [List.flatMap_cons, List.countP_append, List.countP_cons, ih, Nat.add_comm]
    congr 1
    rw [Message.frames, Message.framesFrom, List.countP_cons, countP_continuation, Frame.signals, Frame.type,
      Message.opcode]
    cases m.others.isEmpty <;> cases m.binary <;> rfl

private theorem flatten_encode (messages : List Message) :
    (messages.map Message.encode).flatten = ((messages.flatMap Message.frames).map Frame.encode).flatten := by
  induction messages with
  | nil => rfl
  | cons m messages ih =>
    rw [List.map_cons, List.flatten_cons, ih, List.flatMap_cons, List.map_append, List.flatten_append, Message.encode]

/-- Of the frames, those are taken that come before the first one that is too long. -/
private theorem exists_taken (frames : List Frame) : ∃ taken left, frames = taken ++ left ∧
    (∀ f ∈ taken, f.payload.length < 2 ^ 31) ∧
    ∀ (s : Connection) (buf : Bytes), buf <+: (left.map Frame.encode).flatten →
      processFrame (fun _ => true) s buf = .wait := by
  induction frames with
  | nil =>
    refine ⟨[], [], rfl, nofun, fun s buf hbuf => ?_⟩
    obtain rfl := List.prefix_nil.1 hbuf
    rfl
  | cons f frames ih =>
    rcases Nat.lt_or_ge f.payload.length (2 ^ 31) with hlength | hlength
    · obtain ⟨taken, left, rfl, htaken, hleft⟩ := ih
      exact ⟨f :: taken, left, rfl, List.forall_mem_cons.2 ⟨hlength, htaken⟩, hleft⟩
    · exact ⟨[], f :: frames, rfl, nofun, fun s buf => processFrame_long hlength s⟩

private theorem single_of_faithful {messages : List Message} {chunks : List Bytes}
    (hchunks : chunks.flatten = (messages.map Message.encode).flatten) (h : Faithful messages chunks) :
    ∀ m ∈ messages, m.Single := by
  obtain ⟨taken, left, hframes, hlength, hleft⟩ := exists_taken (messages.flatMap Message.frames)
  have hstream : chunks.flatten = (taken.map Frame.encode).flatten ++ (left.map Frame.encode).flatten := by
    rw [hchunks, flatten_encode, hframes, List.map_append, List.flatten_append]
  have hdelivered := congrArg List.length (h chunks [] (List.append_nil _).symm).2
  rw [(framed_frames hlength hleft).feedAll_eq hstream, length_delivered, hchunks, Chunks.arrived_all,
    List.length_map] at hdelivered
  simp only [Connection.init, List.length_nil, Nat.zero_add] at hdelivered
  -- the callback is called at most once for a message, and at most once at a frame that is taken
  have hcount := countP_frames messages
  rw [hframes, List.countP_append] at hcount
  have hmessages : messages.countP (fun m => m.others.isEmpty) ≤ messages.length := List.countP_le_length
  have htaken : taken.countP Frame.signals ≤ taken.length := List.countP_le_length
  have hothers : ∀ m ∈ messages, m.others = [] := by
    have := List.countP_eq_length.1 (show messages.countP (fun m => m.others.isEmpty) = messages.length by omega)
    simpa using this
  have hsingle : messages.flatMap Message.frames = messages.map fun m => ⟨m.first, true, m.opcode⟩ := by
    rw [List.map_eq_flatMap]
    refine List.flatMap_congr fun m hm => ?_
    rw [Message.frames, hothers m hm]
    rfl
  have hall : taken.length + left.length = messages.length := by
    rw [← List.length_append, ← hframes, hsingle, List.length_map]
  obtain rfl := List.length_eq_zero_iff.1 (show left.length = 0 by omega)
  intro m hm
  refine ⟨hothers m hm, hlength ⟨m.first, true, m.opcode⟩ ?_⟩
  rw [← List.append_nil taken, ← hframes, hsingle]
  exact List.mem_map_of_mem hm

/-- The messages are delivered once and whole exactly when each is sent in one frame of less than `2 ^ 31` bytes. -/
theorem faithful_iff {messages : List Message} {chunks : List Bytes}
    (hchunks : chunks.flatten = (messages.map Message.encode).flatten) :
    Faithful messages chunks ↔ ∀ m ∈ messages, m.others = [] ∧ m.first.payload.length < 2 ^ 31 :=
  ⟨single_of_faithful hchunks, faithful_of_single hchunks⟩

/-- A text of two bytes, in one frame and in two. -/
def exampleFragment (payload : Bytes) (h : payload.length < 2 ^ 63 := by decide) : Fragment :=
  ⟨[1, 2, 3, 4], payload, rfl, h⟩

def exampleWhole : Message := ⟨false, exampleFragment [104, 105], []⟩

def exampleParts : Message := ⟨false, exampleFragment [104], [exampleFragment [105]]⟩

theorem faithful_example : Faithful [exampleWhole] [exampleWhole.encode.take 3, exampleWhole.encode.drop 3] := by
  refine (faithful_iff (by decide)).2 ?_
  decide

/-- A text in two frames is not delivered. -/
theorem not_faithful_parts : ¬ Faithful [exampleParts] [exampleParts.encode] := by
  intro h
  have hdelivered := (h [exampleParts.encode] [] rfl).2
  revert hdelivered
  decide +kernel

end WebSocket
