import SwissArmyKnife.WebSocket.FrameReads

/-!
# A stream of frames

A client may send frames of any type, with their length in any of the three encodings, and the bytes arrive in any
chunks. Whenever the extractor is called, it takes the next frame when all of it has arrived and does nothing before
that (`extract_stream`).
-/

namespace WebSocket

/-- A masked frame that is not too long to be extracted. -/
structure ClientFrame where
  fin : Bool
  opcode : UInt8
  encoding : LengthEncoding
  mask : Bytes
  payload : Bytes
  opcode_lt : opcode < 16
  length_mask : mask.length = 4
  length_payload : payload.length < encoding.bound

namespace ClientFrame

variable (f : ClientFrame)

def header : Bytes :=
  ((if f.fin then 0x80 else 0x00) ||| f.opcode) :: (0x80 ||| .ofNat (f.encoding.code f.payload.length)) ::
    f.encoding.bytes f.payload.length

def encode : Bytes := f.header ++ (f.mask ++ applyMask f.mask f.payload)

/-- The type that the extractor gives the frame. -/
def type : WebSocketType := if f.fin then .ofByte f.opcode else .CONTINUATION_FRAME

/-- The request with the frame in it. -/
def into (request : WebRequest) : WebRequest := ⟨f.type, request.parseString ++ f.payload⟩

theorem length_encode : f.encode.length = f.header.length + 4 + f.payload.length := by
  rw [encode, List.length_append, List.length_append, length_applyMask, f.length_mask, Nat.add_assoc]

end ClientFrame

private theorem first_byte_cases {opcode : UInt8} (h : opcode < 16) (fin : Bool) :
    decide ((((if fin then 0x80 else 0x00) ||| opcode) >>> 7) &&& 0x01 = (1 : UInt8)) = fin ∧
      ((if fin then 0x80 else 0x00) ||| opcode) &&& 0x0F = opcode := by
  have hall : ∀ (n : Fin 16) (fin : Bool),
      decide ((((if fin then 0x80 else 0x00) ||| UInt8.ofNat n) >>> 7) &&& 0x01 = (1 : UInt8)) = fin ∧
        ((if fin then 0x80 else 0x00) ||| UInt8.ofNat n) &&& 0x0F = UInt8.ofNat n := by decide +kernel
  have hopcode := hall ⟨opcode.toNat, UInt8.lt_iff_toNat_lt.1 h⟩ fin
  simpa only [UInt8.ofNat_toNat] using hopcode

/-- A frame is taken when all of it is there, and before that the extractor waits. -/
theorem ClientFrame.extract {f : ClientFrame} (request : WebRequest) {buf more : Bytes}
    (hbuf : buf <+: f.encode ++ more) : wsFrameExtractBuffer request buf =
      if buf.length < f.encode.length then none else some ⟨f.into request, f.encode.length, f.fin, false⟩ := by
  have hheader : f.header.length = 2 + (f.encoding.bytes f.payload.length).length := by
    rw [header, List.length_cons, List.length_cons]
    omega
  have hmasking : f.header.getD 1 0 &&& 0x80 = 0x80 := masking_byte (f.encoding.code_lt f.length_payload)
  have hlength : 2 ≤ buf.length → payloadLength buf =
      if buf.length < f.header.length then none else some (f.payload.length, f.header.length) := by
    intro h2
    rw [encode, List.append_assoc, header] at hbuf
    rw [payloadLength_of_front f.length_payload hbuf h2, hheader]
  obtain ⟨hfin, hopcode⟩ := first_byte_cases f.opcode_lt f.fin
  rw [extract_of_front f.length_mask hmasking (by omega) hbuf hlength request, f.length_encode,
    show f.header.getD 0 0 = (if f.fin then 0x80 else 0x00) ||| f.opcode from rfl, hopcode, hfin]
  simp only [if_congr (decide_eq_true_iff.symm.trans (by rw [hfin])) rfl rfl]
  rfl

/-! ### Arrivals and calls -/

inductive Event where
  | arrive (chunk : Bytes)
  | call

/-- The bytes at hand, the request and what the calls returned. -/
structure Session where
  buffer : Bytes
  request : WebRequest
  calls : List Call

/-- A chunk arrives, or the extractor is called and what it has taken is consumed. -/
def Session.step (s : Session) : Event → Option Session
  | .arrive chunk => some { s with buffer := s.buffer ++ chunk }
  | .call => (extractChecked s.request s.buffer).map fun c =>
      { buffer := if c.extracted then s.buffer.drop (c.size.getD 0) else s.buffer
        request := c.request
        calls := s.calls ++ [c] }

def Session.run (s : Session) (events : List Event) : Option Session := events.foldlM Session.step s

/-- The bytes that arrive. -/
def arrivals (events : List Event) : Bytes :=
  events.flatMap fun e => match e with
    | .arrive chunk => chunk
    | .call => []

/-- The frames in one stream. -/
def encodeAll (frames : List ClientFrame) : Bytes := frames.flatMap ClientFrame.encode

/-- What a call is to return when these frames are still to be taken. -/
def expected (request : WebRequest) (buffer : Bytes) : List ClientFrame → Call → Prop
  | [], c => c.extracted = false ∧ c.request = request
  | f :: _, c =>
    if buffer.length < f.encode.length then c.extracted = false ∧ c.request = request
    else c.extracted = true ∧ c.request = f.into request ∧ c.size = some f.encode.length ∧ c.fin = some f.fin

/-- After `k` frames: they are in the request, in order, the calls that returned true took them, and the rest of the
stream is in the buffer and yet to arrive. -/
structure Taken (request : WebRequest) (frames : List ClientFrame) (k : ℕ) (rest : Bytes) (s : Session) : Prop where
  le : k ≤ frames.length
  bytes : s.buffer ++ rest = encodeAll (frames.drop k)
  request : s.request = (frames.take k).foldl (fun r f => f.into r) request
  calls : (s.calls.filter Call.extracted).map (fun c => (c.size, c.fin)) =
    (frames.take k).map fun f => (some f.encode.length, some f.fin)

variable {request : WebRequest} {frames : List ClientFrame} {k : ℕ} {rest : Bytes} {s : Session}

/-- Every call does what it is to do. -/
theorem Taken.call (h : Taken request frames k rest s) :
    ∃ c, extractChecked s.request s.buffer = some c ∧ expected s.request s.buffer (frames.drop k) c := by
  refine ⟨_, extractChecked_eq .., ?_⟩
  have hbytes := h.bytes
  cases hdrop : frames.drop k with
  | nil =>
    rw [hdrop, encodeAll, List.flatMap_nil] at hbytes
    obtain ⟨hempty, -⟩ := List.append_eq_nil_iff.1 hbytes
    rw [hempty]
    exact ⟨rfl, rfl⟩
  | cons f others =>
    rw [hdrop, encodeAll, List.flatMap_cons] at hbytes
    rw [f.extract s.request ⟨rest, hbytes⟩, expected]
    split
    · exact ⟨rfl, rfl⟩
    · exact ⟨rfl, rfl, rfl, rfl⟩

theorem Taken.arrive {chunk : Bytes} (h : Taken request frames k (chunk ++ rest) s) :
    Taken request frames k rest { s with buffer := s.buffer ++ chunk } :=
  ⟨h.le, by rw [List.append_assoc]; exact h.bytes, h.request, h.calls⟩

/-- A call takes the next frame or leaves all as it is; it takes it when the whole stream has arrived. -/
theorem Taken.step_call (h : Taken request frames k rest s) :
    ∃ s' k', s.step .call = some s' ∧ Taken request frames k' rest s' ∧ k ≤ k' ∧
      (rest = [] → k < frames.length → k' = k + 1) := by
  obtain ⟨c, hcall, hexpected⟩ := h.call
  have hstep : s.step .call = some ⟨if c.extracted then s.buffer.drop (c.size.getD 0) else s.buffer, c.request,
      s.calls ++ [c]⟩ := by
    rw [Session.step, hcall, Option.map_some]
  have hbytes := h.bytes
  -- What a call that returns false leaves.
  have hfails : c.extracted = false ∧ c.request = s.request → Taken request frames k rest
      ⟨if c.extracted then s.buffer.drop (c.size.getD 0) else s.buffer, c.request, s.calls ++ [c]⟩ := by
    rintro ⟨hextracted, hrequest⟩
    refine ⟨h.le, by simpa [hextracted] using hbytes, by rw [hrequest]; exact h.request, ?_⟩
    rw [List.filter_append, List.filter_singleton, hextracted]
    simpa using h.calls
  cases hdrop : frames.drop k with
  | nil =>
    rw [hdrop] at hexpected
    have hall : frames.length ≤ k := List.drop_eq_nil_iff.1 hdrop
    exact ⟨_, k, hstep, hfails hexpected, Nat.le_refl k, fun _ hlt => absurd hlt (by omega)⟩
  | cons f others =>
    rw [hdrop, expected] at hexpected
    rw [hdrop, encodeAll, List.flatMap_cons] at hbytes
    split at hexpected
    · rename_i hpart
      refine ⟨_, k, hstep, hfails hexpected, Nat.le_refl k, fun hrest _ => ?_⟩
      rw [hrest, List.append_nil] at hbytes
      rw [hbytes, List.length_append] at hpart
      omega
    · rename_i hwhole
      obtain ⟨hextracted, hrequest, hsize, hfin⟩ := hexpected
      have hlt : k < frames.length := by
        by_contra hge
        rw [List.drop_eq_nil_of_le (by omega)] at hdrop
        exact absurd hdrop (by simp)
      have hget := List.drop_eq_getElem_cons hlt
      rw [hdrop, List.cons.injEq] at hget
      have htake : frames.take (k + 1) = frames.take k ++ [f] := by
        rw [List.take_succ_eq_append_getElem hlt, ← hget.1]
      refine ⟨_, k + 1, hstep, ⟨hlt, ?_, ?_, ?_⟩, by omega, fun _ _ => rfl⟩
      · -- The frame is the front of the buffer.
        obtain ⟨left, hleft⟩ := List.prefix_of_prefix_length_le (List.prefix_append f.encode (encodeAll others))
          ⟨rest, hbytes⟩ (by omega)
        rw [← hget.2, hextracted, hsize, if_pos rfl, Option.getD_some, ← hleft, List.drop_left]
        rw [← hleft, List.append_assoc] at hbytes
        exact List.append_cancel_left hbytes
      · rw [hrequest, htake, List.foldl_append, ← h.request]
        rfl
      · rw [List.filter_append, List.map_append, h.calls, htake, List.map_append, List.filter_singleton, hextracted]
        simp [hsize, hfin]

theorem Taken.run {events : List Event} (h : Taken request frames k (arrivals events ++ rest) s) :
    ∃ s' k', s.run events = some s' ∧ Taken request frames k' rest s' ∧ k ≤ k' := by
  induction events generalizing s k with
  | nil => exact ⟨s, k, rfl, h, Nat.le_refl k⟩
  | cons e events ih =>
    cases e with
    | arrive chunk =>
      rw [arrivals, List.flatMap_cons, List.append_assoc] at h
      obtain ⟨s', k', hrun, htaken, hle⟩ := ih h.arrive
      exact ⟨s', k', hrun, htaken, hle⟩
    | call =>
      obtain ⟨s₁, k₁, hstep, htaken₁, hle₁, -⟩ := h.step_call
      obtain ⟨s', k', hrun, htaken, hle⟩ := ih htaken₁
      refine ⟨s', k', ?_, htaken, Nat.le_trans hle₁ hle⟩
      rw [Session.run, List.foldlM_cons, hstep]
      exact hrun

/-- When the whole stream has arrived, as many calls as there are frames take them all. -/
theorem Taken.drain {n : ℕ} (h : Taken request frames k [] s) (hn : frames.length ≤ k + n) :
    ∃ s', s.run (List.replicate n .call) = some s' ∧ Taken request frames frames.length [] s' := by
  induction n generalizing s k with
  | zero =>
    obtain rfl : k = frames.length := by
      have hle := h.le
      omega
    exact ⟨s, rfl, h⟩
  | succ n ih =>
    obtain ⟨s₁, k₁, hstep, htaken₁, hle₁, hnext⟩ := h.step_call
    have hmore : frames.length ≤ k₁ + n := by
      by_cases hlt : k < frames.length
      · rw [hnext rfl hlt]
        omega
      · omega
    obtain ⟨s', hrun, htaken⟩ := ih htaken₁ hmore
    refine ⟨s', ?_, htaken⟩
    rw [List.replicate_succ, Session.run, List.foldlM_cons, hstep]
    exact hrun

/-- However the bytes of some frames arrive and whenever the extractor is called, no byte behind the buffer is read,
each call takes the next frame when it is all there and changes nothing otherwise, and at the end the frames are taken
once and in order. -/
theorem extract_stream (request : WebRequest) (frames : List ClientFrame) :
    (∀ request buffer, extractChecked request buffer ≠ none) ∧
      ∀ events rest, arrivals events ++ rest = encodeAll frames →
        ∃ s k, Session.run ⟨[], request, []⟩ events = some s ∧ Taken request frames k rest s ∧
          (∃ c, extractChecked s.request s.buffer = some c ∧ expected s.request s.buffer (frames.drop k) c) ∧
          (rest = [] → ∃ s', s.run (List.replicate frames.length .call) = some s' ∧
            Taken request frames frames.length [] s') := by
  constructor
  · intro request buffer
    rw [extractChecked_eq]
    exact Option.some_ne_none _
  · intro events rest hbytes
    have hinit : Taken request frames 0 (arrivals events ++ rest) ⟨[], request, []⟩ :=
      ⟨Nat.zero_le _, by simpa using hbytes, rfl, rfl⟩
    obtain ⟨s, k, hrun, htaken, -⟩ := hinit.run
    refine ⟨s, k, hrun, htaken, htaken.call, fun hrest => ?_⟩
    rw [hrest] at htaken
    exact htaken.drain (by omega)

/-- The text `hi`, with its length in two bytes more than needed. -/
def exampleClientFrame : ClientFrame :=
  ⟨true, 1, .medium, [1, 2, 3, 4], [104, 105], by decide, by decide, by decide⟩

theorem extract_stream_hi : ∃ s k, Session.run ⟨[], .reset, []⟩ [.arrive (exampleClientFrame.encode.take 3), .call,
    .arrive (exampleClientFrame.encode.drop 3), .call] = some s ∧ Taken .reset [exampleClientFrame] k [] s := by
  obtain ⟨s, k, hrun, htaken, -⟩ := (extract_stream .reset [exampleClientFrame]).2 [.arrive
    (exampleClientFrame.encode.take 3), .call, .arrive (exampleClientFrame.encode.drop 3), .call] [] (by decide)
  exact ⟨s, k, hrun, htaken⟩

end WebSocket
