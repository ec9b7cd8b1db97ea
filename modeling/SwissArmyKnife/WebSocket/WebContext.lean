import SwissArmyKnife.Http.ParseLoops

/-!
# Frames

`wsFrameExtractBuffer` takes the frame at the front of a buffer, and `Frame.encode` is what a client sends for one. 
With a part of a frame at hand the extractor waits, and so it does with all of a frame of at least `2 ^ 31` bytes
(`extract_front`, `extract_long`).

The request that a connection begins with is read like `HttpContext` reads one.  The functions of `WebRequest` for it,
and the loop, are those of `HttpRequest` and `HttpContext` again; only `reset` differs (`handshakeParser`).
-/

namespace WebSocket

abbrev Bytes := List UInt8

inductive WebSocketType where
  | ERROR_FRAME
  | CONTINUATION_FRAME
  | TEXT_FRAME
  | BINARY_FRAME
  | CLOSE_FRAME
  | PING_FRAME
  | PONG_FRAME
  | reserved (b : UInt8)
deriving DecidableEq, Repr

/-- The type that a number stands for. -/
def WebSocketType.ofByte (b : UInt8) : WebSocketType :=
  if b = 0x00 then .CONTINUATION_FRAME
  else if b = 0x01 then .TEXT_FRAME
  else if b = 0x02 then .BINARY_FRAME
  else if b = 0x08 then .CLOSE_FRAME
  else if b = 0x09 then .PING_FRAME
  else if b = 0x0A then .PONG_FRAME
  else .reserved b

structure WebRequest where
  opcode : WebSocketType
  parseString : Bytes
deriving DecidableEq, Repr

def WebRequest.reset : WebRequest := ⟨.ERROR_FRAME, []⟩

/-- What a frame leaves behind: the request, the size of the frame, whether it is the last one of its message, and
whether the connection is to be closed. -/
structure Extracted where
  request : WebRequest
  size : ℕ
  fin : Bool
  forceClose : Bool
deriving DecidableEq, Repr

/-- The length of the payload and where the header ends, without the mask. -/
def payloadLength (buffer : Bytes) : Option (ℕ × ℕ) :=
  let len := (buffer.getD 1 0 &&& 0x7F).toNat
  if len ≤ 125 then some (len, 2)
  else if len = 126 then
    if buffer.length < 4 then none
    else some ((buffer.getD 2 0).toNat * 2 ^ 8 + (buffer.getD 3 0).toNat, 4)
  else if buffer.length < 10 then none
  else if buffer.getD 2 0 ≠ 0 ∨ buffer.getD 3 0 ≠ 0 ∨ buffer.getD 4 0 ≠ 0 ∨ buffer.getD 5 0 ≠ 0 then none
  else if buffer.getD 6 0 &&& 0x80 = 0x80 then none
  else some ((buffer.getD 6 0).toNat * 2 ^ 24 + (buffer.getD 7 0).toNat * 2 ^ 16 + (buffer.getD 8 0).toNat * 2 ^ 8 +
    (buffer.getD 9 0).toNat, 10)

/-- The bytes with the mask laid over them. -/
def applyMask (mask bytes : Bytes) : Bytes := bytes.mapIdx fun j b => b ^^^ mask.getD (j % 4) 0

def wsFrameExtractBuffer (request : WebRequest) (buffer : Bytes) : Option Extracted :=
  if buffer.length < 2 then none
  else
    let fin := (buffer.getD 0 0 >>> 7) &&& 0x01 = 1
    let masking := buffer.getD 1 0 &&& 0x80 = 0x80
    match payloadLength buffer with
    | none => none
    | some (len, pos) =>
      let opcode := if fin then .ofByte (buffer.getD 0 0 &&& 0x0F) else .CONTINUATION_FRAME
      if masking then
        if buffer.length < pos + 4 then none
        else if buffer.length < pos + 4 + len then none
        else
          let payload := applyMask ((buffer.drop pos).take 4) ((buffer.drop (pos + 4)).take len)
          some ⟨⟨opcode, request.parseString ++ payload⟩, len + (pos + 4), fin, false⟩
      else if buffer.length < pos + len then none
      else some ⟨⟨opcode, request.parseString⟩, len + pos, fin, true⟩

/-! ### What a client sends -/

inductive Opcode where
  | continuation
  | text
  | binary
deriving DecidableEq, Repr

def Opcode.byte : Opcode → UInt8
  | continuation => 0x00
  | text => 0x01
  | binary => 0x02

def Opcode.type : Opcode → WebSocketType
  | continuation => .CONTINUATION_FRAME
  | text => .TEXT_FRAME
  | binary => .BINARY_FRAME

/-- A part of a message. -/
structure Fragment where
  mask : Bytes
  payload : Bytes
  length_mask : mask.length = 4
  length_payload : payload.length < 2 ^ 63

structure Frame extends Fragment where
  fin : Bool
  opcode : Opcode

/-- The length as it is in the second byte of a frame. -/
def shortLength (n : ℕ) : ℕ := if n ≤ 125 then n else if n < 2 ^ 16 then 126 else 127

/-- The length as it is in the bytes after the first two. -/
def extendedLength (n : ℕ) : Bytes :=
  if n ≤ 125 then []
  else if n < 2 ^ 16 then [.ofNat (n / 2 ^ 8), .ofNat n]
  else [.ofNat (n / 2 ^ 56), .ofNat (n / 2 ^ 48), .ofNat (n / 2 ^ 40), .ofNat (n / 2 ^ 32), .ofNat (n / 2 ^ 24),
    .ofNat (n / 2 ^ 16), .ofNat (n / 2 ^ 8), .ofNat n]

/-- The three encodings of a length. -/
inductive LengthEncoding where
  | short
  | medium
  | long
deriving DecidableEq, Repr

namespace LengthEncoding

/-- The lengths that have the encoding and are extracted are below this. -/
def bound : LengthEncoding → ℕ
  | short => 126
  | medium => 2 ^ 16
  | long => 2 ^ 31

/-- The length as it is in the second byte. -/
def code : LengthEncoding → ℕ → ℕ
  | short, n => n
  | medium, _ => 126
  | long, _ => 127

/-- The length as it is in the bytes after the first two. -/
def bytes : LengthEncoding → ℕ → Bytes
  | short, _ => []
  | medium, n => [.ofNat (n / 2 ^ 8), .ofNat n]
  | long, n => [.ofNat (n / 2 ^ 56), .ofNat (n / 2 ^ 48), .ofNat (n / 2 ^ 40), .ofNat (n / 2 ^ 32),
    .ofNat (n / 2 ^ 24), .ofNat (n / 2 ^ 16), .ofNat (n / 2 ^ 8), .ofNat n]

/-- The encoding that a client uses. -/
def shortest (n : ℕ) : LengthEncoding := if n ≤ 125 then short else if n < 2 ^ 16 then medium else long

end LengthEncoding

namespace Frame

variable (f : Frame)

def header : Bytes :=
  [(if f.fin then 0x80 else 0x00) ||| f.opcode.byte, 0x80 ||| .ofNat (shortLength f.payload.length)] ++
    extendedLength f.payload.length

def encode : Bytes := f.header ++ (f.mask ++ applyMask f.mask f.payload)

/-- The type that the extractor gives the frame. -/
def type : WebSocketType := if f.fin then f.opcode.type else .CONTINUATION_FRAME

end Frame

theorem length_applyMask (mask bytes : Bytes) : (applyMask mask bytes).length = bytes.length :=
  List.length_mapIdx

theorem applyMask_applyMask (mask bytes : Bytes) : applyMask mask (applyMask mask bytes) = bytes := by
  refine List.ext_getElem (by rw [length_applyMask, length_applyMask]) fun i _ _ => ?_
  simp only [applyMask, List.getElem_mapIdx, UInt8.xor_assoc, UInt8.xor_self, UInt8.xor_zero]

theorem Frame.length_encode (f : Frame) : f.encode.length = f.header.length + 4 + f.payload.length := by
  rw [encode, List.length_append, List.length_append, length_applyMask, f.length_mask, Nat.add_assoc]

/-! ### The header -/

private theorem shortLength_byte {n : ℕ} (h : n < 128) : ((0x80 ||| UInt8.ofNat n) &&& 0x7F).toNat = n := by
  have hall : ∀ n : Fin 128, ((0x80 ||| UInt8.ofNat n) &&& 0x7F).toNat = n := by decide +kernel
  exact hall ⟨n, h⟩

theorem masking_byte {n : ℕ} (h : n < 128) : (0x80 ||| UInt8.ofNat n) &&& 0x80 = 0x80 := by
  have hall : ∀ n : Fin 128, (0x80 ||| UInt8.ofNat n) &&& 0x80 = 0x80 := by decide +kernel
  exact hall ⟨n, h⟩

private theorem topBit_ofNat (n : ℕ) : UInt8.ofNat n &&& 0x80 = 0x80 ↔ 128 ≤ n % 256 := by
  have hall : ∀ n : Fin 256, UInt8.ofNat n &&& 0x80 = 0x80 ↔ 128 ≤ n.1 := by decide +kernel
  rw [← UInt8.ofNat_mod_size]
  exact hall ⟨n % 256, Nat.mod_lt n (by decide)⟩

private theorem ofNat_eq_zero (n : ℕ) : UInt8.ofNat n = 0 ↔ n % 256 = 0 := by
  rw [← UInt8.toNat_inj, UInt8.toNat_ofNat']
  rfl

/-- The front of some bytes and what follows is shorter than a header or begins with it. -/
private theorem prefix_cases {buf header tail : Bytes} (hbuf : buf <+: header ++ tail) :
    buf.length < header.length ∨ ∃ rest, buf = header ++ rest := by
  rcases Nat.lt_or_ge buf.length header.length with hlt | hge
  · exact .inl hlt
  · obtain ⟨rest, hrest⟩ := List.prefix_of_prefix_length_le (List.prefix_append header _) hbuf hge
    exact .inr ⟨rest, hrest.symm⟩

private theorem getD_front {buf all : Bytes} (hbuf : buf <+: all) {i : ℕ} (hi : i < buf.length) :
    buf.getD i 0 = all.getD i 0 := by
  obtain ⟨tail, rfl⟩ := hbuf
  rw [List.getD_eq_getElem?_getD, List.getD_eq_getElem?_getD, List.getElem?_append_left hi]

theorem LengthEncoding.code_lt (encoding : LengthEncoding) {n : ℕ} (hn : n < encoding.bound) :
    encoding.code n < 128 := by
  cases encoding
  · exact Nat.lt_of_lt_of_le hn (by decide)
  · exact (by decide : 126 < 128)
  · exact (by decide : 127 < 128)

/-- The length at the front of a frame, in any of the encodings. -/
theorem payloadLength_of_front {encoding : LengthEncoding} {n : ℕ} (hn : n < encoding.bound) {first : UInt8}
    {buf tail : Bytes}
    (hbuf : buf <+: (first :: (0x80 ||| .ofNat (encoding.code n)) :: encoding.bytes n) ++ tail)
    (h2 : 2 ≤ buf.length) :
    payloadLength buf = if buf.length < 2 + (encoding.bytes n).length then none
      else some (n, 2 + (encoding.bytes n).length) := by
  have hsecond : buf.getD 1 0 = 0x80 ||| .ofNat (encoding.code n) := by
    rw [getD_front hbuf (by omega)]
    rfl
  have hcode : (buf.getD 1 0 &&& 0x7F).toNat = encoding.code n := by
    rw [hsecond, shortLength_byte (encoding.code_lt hn)]
  unfold payloadLength
  rw [hcode]
  dsimp only
  cases encoding with
  | short =>
    have hbytes : (LengthEncoding.short.bytes n).length = 0 := rfl
    have hshort : n < 126 := hn
    rw [show LengthEncoding.short.code n = n from rfl, hbytes, if_pos (by omega), if_neg (by omega)]
  | medium =>
    have hbytes : (LengthEncoding.medium.bytes n).length = 2 := rfl
    have hmedium : n < 2 ^ 16 := hn
    rw [show LengthEncoding.medium.code n = 126 from rfl, if_neg (by decide), if_pos rfl, hbytes]
    rcases prefix_cases hbuf with hlt | ⟨rest, rfl⟩
    · rw [List.length_cons, List.length_cons, hbytes] at hlt
      rw [if_pos (by omega), if_pos (by omega)]
    · have hcons : (first :: (0x80 ||| .ofNat (LengthEncoding.medium.code n)) :: LengthEncoding.medium.bytes n) ++
          rest =
          first :: (0x80 ||| .ofNat (LengthEncoding.medium.code n)) :: .ofNat (n / 2 ^ 8) :: .ofNat n :: rest := rfl
      rw [hcons]
      simp only [List.length_cons, List.getD_cons_succ, List.getD_cons_zero, UInt8.toNat_ofNat']
      rw [if_neg (by omega), if_neg (by omega), Option.some.injEq, Prod.mk.injEq]
      omega
  | long =>
    have hbytes : (LengthEncoding.long.bytes n).length = 8 := rfl
    have hlong : n < 2 ^ 31 := hn
    rw [show LengthEncoding.long.code n = 127 from rfl, if_neg (by decide), if_neg (by decide), hbytes]
    rcases prefix_cases hbuf with hlt | ⟨rest, rfl⟩
    · rw [List.length_cons, List.length_cons, hbytes] at hlt
      rw [if_pos (by omega), if_pos (by omega)]
    · have hcons : (first :: (0x80 ||| .ofNat (LengthEncoding.long.code n)) :: LengthEncoding.long.bytes n) ++ rest =
          first :: (0x80 ||| .ofNat (LengthEncoding.long.code n)) :: .ofNat (n / 2 ^ 56) :: .ofNat (n / 2 ^ 48) ::
            .ofNat (n / 2 ^ 40) :: .ofNat (n / 2 ^ 32) :: .ofNat (n / 2 ^ 24) :: .ofNat (n / 2 ^ 16) ::
            .ofNat (n / 2 ^ 8) :: .ofNat n :: rest := rfl
      rw [hcons]
      simp only [List.length_cons, List.getD_cons_succ, List.getD_cons_zero, UInt8.toNat_ofNat', ne_eq, ofNat_eq_zero,
        topBit_ofNat]
      rw [if_neg (by omega), if_neg (by omega), if_neg (by omega), if_neg (by omega),
        Option.some.injEq, Prod.mk.injEq]
      omega

private theorem shortLength_lt (n : ℕ) : shortLength n < 128 := by
  unfold shortLength
  split_ifs <;> omega

theorem Frame.length_header (f : Frame) :
    f.header.length = if f.payload.length ≤ 125 then 2 else if f.payload.length < 2 ^ 16 then 4 else 10 := by
  unfold Frame.header extendedLength
  split_ifs <;> rfl

/-- The front of a frame and what follows is shorter than the header or begins with it. -/
private theorem header_cases {f : Frame} {buf more : Bytes} (hbuf : buf <+: f.encode ++ more) :
    buf.length < f.header.length ∨ ∃ rest, buf = f.header ++ rest := by
  rw [Frame.encode, List.append_assoc] at hbuf
  exact prefix_cases hbuf

private theorem second_byte {f : Frame} {buf more : Bytes} (hbuf : buf <+: f.encode ++ more) (h2 : 2 ≤ buf.length) :
    buf.getD 1 0 = 0x80 ||| .ofNat (shortLength f.payload.length) := by
  obtain ⟨t, ht⟩ := hbuf
  match buf, h2 with
  | a :: b :: buf, _ =>
    simp only [Frame.encode, Frame.header, List.cons_append, List.nil_append, List.cons.injEq] at ht
    exact ht.2.1

private theorem long_bytes {f : Frame} (h125 : ¬ f.payload.length ≤ 125) (h16 : ¬ f.payload.length < 2 ^ 16)
    (rest : Bytes) : f.header ++ rest = ((if f.fin then 0x80 else 0x00) ||| f.opcode.byte) ::
      (0x80 ||| .ofNat (shortLength f.payload.length)) :: .ofNat (f.payload.length / 2 ^ 56) ::
      .ofNat (f.payload.length / 2 ^ 48) :: .ofNat (f.payload.length / 2 ^ 40) ::
      .ofNat (f.payload.length / 2 ^ 32) :: .ofNat (f.payload.length / 2 ^ 24) ::
      .ofNat (f.payload.length / 2 ^ 16) :: .ofNat (f.payload.length / 2 ^ 8) ::
      .ofNat f.payload.length :: rest := by
  simp only [Frame.header, extendedLength, if_neg h125, if_neg h16, List.cons_append, List.nil_append]

theorem Frame.header_eq (f : Frame) : f.header =
    ((if f.fin then 0x80 else 0x00) ||| f.opcode.byte) ::
      (0x80 ||| .ofNat ((LengthEncoding.shortest f.payload.length).code f.payload.length)) ::
      (LengthEncoding.shortest f.payload.length).bytes f.payload.length := by
  unfold Frame.header extendedLength shortLength LengthEncoding.shortest
  split_ifs <;> rfl

theorem LengthEncoding.lt_bound_shortest {n : ℕ} (h : n < 2 ^ 31) : n < (shortest n).bound := by
  unfold shortest
  split_ifs with h125 h16
  · exact Nat.lt_succ_of_le h125
  · exact h16
  · exact h

theorem payloadLength_front {f : Frame} (hlength : f.payload.length < 2 ^ 31) {buf more : Bytes}
    (hbuf : buf <+: f.encode ++ more) (h2 : 2 ≤ buf.length) :
    payloadLength buf = if buf.length < f.header.length then none else some (f.payload.length, f.header.length) := by
  have hheader : f.header.length =
      2 + ((LengthEncoding.shortest f.payload.length).bytes f.payload.length).length := by
    rw [f.header_eq, List.length_cons, List.length_cons]
    omega
  rw [Frame.encode, List.append_assoc, f.header_eq] at hbuf
  rw [payloadLength_of_front (LengthEncoding.lt_bound_shortest hlength) hbuf h2, hheader]

theorem payloadLength_long {f : Frame} (hlength : 2 ^ 31 ≤ f.payload.length) {buf more : Bytes}
    (hbuf : buf <+: f.encode ++ more) (h2 : 2 ≤ buf.length) : payloadLength buf = none := by
  have hshort : (buf.getD 1 0 &&& 0x7F).toNat = shortLength f.payload.length := by
    rw [second_byte hbuf h2, shortLength_byte (shortLength_lt _)]
  have hheader := f.length_header
  have hmax := f.length_payload
  have h125 : ¬ f.payload.length ≤ 125 := by omega
  have h16 : ¬ f.payload.length < 2 ^ 16 := by omega
  unfold payloadLength
  rw [hshort]
  unfold shortLength
  dsimp only
  rw [if_neg h125, if_neg h16] at hheader
  rw [if_neg h125, if_neg h16, if_neg (by decide), if_neg (by decide)]
  rcases header_cases hbuf with hlt | ⟨rest, rfl⟩
  · rw [if_pos (by omega)]
  · rw [long_bytes h125 h16]
    simp only [List.length_cons, List.getD_cons_succ, List.getD_cons_zero, ne_eq, ofNat_eq_zero, topBit_ofNat]
    rw [if_neg (by omega)]
    -- the four upper bytes are not all zero, or the top bit of the other four is set
    by_cases h32 : f.payload.length < 2 ^ 32
    · rw [if_neg (by omega), if_pos (by omega)]
    · rw [if_pos (by omega)]

/-! ### Extraction -/

private theorem fin_byte (fin : Bool) (opcode : Opcode) :
    decide ((((if fin then 0x80 else 0x00) ||| opcode.byte) >>> 7) &&& 0x01 = (1 : UInt8)) = fin := by
  cases fin <;> cases opcode <;> decide

private theorem opcode_byte (fin : Bool) (opcode : Opcode) :
    WebSocketType.ofByte (((if fin then 0x80 else 0x00) ||| opcode.byte) &&& 0x0F) = opcode.type := by
  cases fin <;> cases opcode <;> decide

/-- A masked frame is taken when all of it is there, and before that the extractor waits. -/
theorem extract_of_front {header mask payload : Bytes} (hmask : mask.length = 4)
    (hmasking : header.getD 1 0 &&& 0x80 = 0x80) (hheader : 2 ≤ header.length) {buf more : Bytes}
    (hbuf : buf <+: header ++ (mask ++ applyMask mask payload) ++ more)
    (hlength : 2 ≤ buf.length → payloadLength buf =
      if buf.length < header.length then none else some (payload.length, header.length))
    (request : WebRequest) : wsFrameExtractBuffer request buf =
      if buf.length < header.length + 4 + payload.length then none
      else some ⟨⟨if (header.getD 0 0 >>> 7) &&& 0x01 = 1 then .ofByte (header.getD 0 0 &&& 0x0F)
        else .CONTINUATION_FRAME, request.parseString ++ payload⟩, header.length + 4 + payload.length,
        decide ((header.getD 0 0 >>> 7) &&& 0x01 = 1), false⟩ := by
  unfold wsFrameExtractBuffer
  by_cases h2 : buf.length < 2
  · rw [if_pos h2, if_pos (by omega)]
  have hbytes : ∀ i < 2, buf.getD i 0 = header.getD i 0 := by
    intro i hi
    rw [getD_front hbuf (by omega), List.getD_eq_getElem?_getD, List.getD_eq_getElem?_getD, List.append_assoc,
      List.getElem?_append_left (by omega)]
  rw [if_neg h2, hlength (by omega), hbytes 0 (by omega), hbytes 1 (by omega)]
  by_cases hpart : buf.length < header.length
  · rw [if_pos hpart, if_pos (by omega)]
  rw [if_neg hpart]
  dsimp only
  rw [if_pos hmasking]
  by_cases hmaskpart : buf.length < header.length + 4
  · rw [if_pos hmaskpart, if_pos (by omega)]
  rw [if_neg hmaskpart]
  by_cases hall : buf.length < header.length + 4 + payload.length
  · rw [if_pos hall, if_pos hall]
  rw [if_neg hall, if_neg hall]
  have hsize : (header ++ (mask ++ applyMask mask payload)).length = header.length + 4 + payload.length := by
    rw [List.length_append, List.length_append, length_applyMask, hmask, Nat.add_assoc]
  obtain ⟨rest, rfl⟩ := List.prefix_of_prefix_length_le (List.prefix_append _ more) hbuf (by omega)
  have hdrop : (header ++ (mask ++ applyMask mask payload) ++ rest).drop header.length =
      mask ++ (applyMask mask payload ++ rest) := by
    rw [List.append_assoc, List.append_assoc, List.drop_left]
  have htake : ((header ++ (mask ++ applyMask mask payload) ++ rest).drop header.length).take 4 = mask := by
    rw [hdrop, List.take_left' hmask]
  have hpayload : ((header ++ (mask ++ applyMask mask payload) ++ rest).drop (header.length + 4)).take
      payload.length =
      applyMask mask payload := by
    rw [← List.drop_drop, hdrop, List.drop_left' hmask, List.take_left' (length_applyMask ..)]
  rw [htake, hpayload, applyMask_applyMask, show payload.length + (header.length + 4) =
    header.length + 4 + payload.length by omega]

/-- A frame is taken when all of it is there, and before that the extractor waits. -/
theorem extract_front {f : Frame} (hlength : f.payload.length < 2 ^ 31) (request : WebRequest) {buf more : Bytes}
    (hbuf : buf <+: f.encode ++ more) : wsFrameExtractBuffer request buf =
      if buf.length < f.encode.length then none
      else some ⟨⟨f.type, request.parseString ++ f.payload⟩, f.encode.length, f.fin, false⟩ := by
  have hheader : 2 ≤ f.header.length := by
    rw [f.length_header]
    split_ifs <;> omega
  have hmasking : f.header.getD 1 0 &&& 0x80 = 0x80 := masking_byte (shortLength_lt _)
  have hfin := fin_byte f.fin f.opcode
  have hextract := extract_of_front f.length_mask hmasking hheader hbuf (payloadLength_front hlength hbuf) request
  rw [hextract, f.length_encode, show f.header.getD 0 0 = (if f.fin then 0x80 else 0x00) ||| f.opcode.byte from rfl,
    opcode_byte, hfin]
  simp only [if_congr (decide_eq_true_iff.symm.trans (by rw [hfin])) rfl rfl]
  rfl

theorem extract_long {f : Frame} (hlength : 2 ^ 31 ≤ f.payload.length) (request : WebRequest) {buf more : Bytes}
    (hbuf : buf <+: f.encode ++ more) : wsFrameExtractBuffer request buf = none := by
  unfold wsFrameExtractBuffer
  by_cases h2 : buf.length < 2
  · rw [if_pos h2]
  · rw [if_neg h2, payloadLength_long hlength hbuf (by omega)]

/-! ### The handshake -/

/-- What `WebRequest` holds of the request. -/
abbrev HandshakeRequest := Http.HttpRequest

namespace HandshakeRequest

def processRequestLine (request : HandshakeRequest) (line : Bytes) : Option (Bool × HandshakeRequest) :=
  Http.HttpRequest.processRequestLine request line

def addHeader (request : HandshakeRequest) (field value : Bytes) : HandshakeRequest :=
  Http.HttpRequest.addHeader request field value

/-- `WebRequest()`; `reset` comes to the same. -/
def new : HandshakeRequest := ⟨.invalid, .unknown, [], [], []⟩

end HandshakeRequest

/-- `WebContext::parseRequest`. -/
def handshakeParser : Http.HeadParser HandshakeRequest :=
  ⟨HandshakeRequest.processRequestLine, HandshakeRequest.addHeader, none⟩

end WebSocket
