import SwissArmyKnife.Lib.Bytes
import SwissArmyKnife.WebSocket.WebContext

/-!
# Building frames

`wsFrameBuild` puts the header of a frame in front of a payload, the last byte first.  It takes the bytes of the
length from the buffer while the buffer grows, and its loop over the mask does not end: it builds the frame of a
payload when it is not to be masked and no byte of the length is off by a carry (`wsFrameBuild_iff`).
-/

namespace WebSocket

def WebSocketType.toByte : WebSocketType → UInt8
  | ERROR_FRAME => 0xff
  | CONTINUATION_FRAME => 0x00
  | TEXT_FRAME => 0x01
  | BINARY_FRAME => 0x02
  | CLOSE_FRAME => 0x08
  | PING_FRAME => 0x09
  | PONG_FRAME => 0x0A
  | reserved b => b

/-- `prependInt8` of a buffer with room in front of its bytes. -/
def prependInt8 (x : ℕ) (buffer : Bytes) : Bytes := .ofNat x :: buffer

/-- The loop that makes the mask; `front` is what is in front of the payload.  The index has no sign, so that it never
is below zero, and the byte behind the array is not written. -/
def maskLoop (rand : ℕ → UInt8) : ℕ → UInt64 → Bytes → Bytes → Option (Bytes × Bytes)
  | 0, _, _, _ => none
  | fuel + 1, i, mask, front =>
    if 0 ≤ i then
      if i < 4 then
        maskLoop rand fuel (i - 1) (mask.set i.toNat (rand front.length)) (rand front.length :: front)
      else none
    else some (mask, front)

/-- The length of the buffer in front of it. -/
def prependLength (buffer : Bytes) : Bytes :=
  if buffer.length ≤ 125 then prependInt8 buffer.length buffer
  else if buffer.length ≤ 0xFFFF then
    let buffer := prependInt8 (buffer.length &&& 0x00FF) buffer
    let buffer := prependInt8 ((buffer.length &&& 0xFF00) >>> 8) buffer
    prependInt8 126 buffer
  else
    let buffer := prependInt8 ((buffer.length &&& 0x000000FF) >>> 0) buffer
    let buffer := prependInt8 ((buffer.length &&& 0x0000FF00) >>> 8) buffer
    let buffer := prependInt8 ((buffer.length &&& 0x00FF0000) >>> 16) buffer
    let buffer := prependInt8 ((buffer.length &&& 0xFF000000) >>> 24) buffer
    let buffer := prependInt8 0x00 buffer
    let buffer := prependInt8 0x00 buffer
    let buffer := prependInt8 0x00 buffer
    let buffer := prependInt8 0x00 buffer
    prependInt8 127 buffer

/-- `wsFrameBuild`, with none when it has not ended after so many rounds of its loop. -/
def wsFrameBuild (fuel : ℕ) (rand : ℕ → UInt8) (payload : Bytes) (framType : WebSocketType) (ok masking : Bool) :
    Option Bytes := do
  let buffer ←
    if masking then do
      -- The pointer to the payload is taken before the mask is put in front of it.
      let peek := payload.modify 1 (· ||| 0x80)
      let (mask, front) ← maskLoop rand fuel 3 [0, 0, 0, 0] []
      some (front ++ applyMask mask peek)
    else some payload
  let head := framType.toByte ||| (if ok then 0x80 else 0x00)
  some (prependInt8 head.toNat (prependLength buffer))

/-! ### Headers -/

/-- The header of a frame; `size` is where it ends, without the mask. -/
structure Header where
  fin : Bool
  rsv : UInt8
  opcode : UInt8
  masked : Bool
  length : ℕ
  size : ℕ
deriving DecidableEq, Repr

/-- The header at the front of a frame, by the rules of the protocol. -/
def readHeader : Bytes → Option Header
  | first :: second :: rest =>
    let short := (second &&& 0x7F).toNat
    let width := if short ≤ 125 then 0 else if short = 126 then 2 else 8
    if rest.length < width then none
    else
      some ⟨first &&& 0x80 = 0x80, first &&& 0x70, first &&& 0x0F, second &&& 0x80 = 0x80,
        if width = 0 then short else BigEndian.ofBytes (rest.take width), 2 + width⟩
  | _ => none

/-- Where the header of a payload ends in the shortest of the three encodings. -/
def shortestSize (n : ℕ) : ℕ := if n ≤ 125 then 2 else if n ≤ 0xFFFF then 4 else 10

/-- No byte of the length changes while the bytes after it are put into the buffer. -/
def CarryFree (n : ℕ) : Prop :=
  n ≤ 125 ∨ n % 2 ^ 8 ≠ 255 ∧ (n ≤ 0xFFFF ∨ n % 2 ^ 16 < 2 ^ 16 - 2 ∧ n % 2 ^ 24 < 2 ^ 24 - 3)

instance (n : ℕ) : Decidable (CarryFree n) := inferInstanceAs (Decidable (_ ∨ _))

/-! ### What is put in front of the payload -/

private theorem ofNat_and (m k : ℕ) : UInt8.ofNat ((m &&& 255 <<< k) >>> k) = UInt8.ofNat (m / 2 ^ k) := by
  have hbyte : (m &&& 255 <<< k) >>> k = m / 2 ^ k % 2 ^ 8 := by
    rw [Nat.shiftRight_and_distrib, Nat.shiftLeft_shiftRight, Nat.shiftRight_eq_div_pow,
      Nat.and_two_pow_sub_one_eq_mod _ 8]
  rw [hbyte, ← UInt8.toNat_inj, UInt8.toNat_ofNat', UInt8.toNat_ofNat']
  omega

theorem prependLength_short {payload : Bytes} (h : payload.length ≤ 125) :
    prependLength payload = .ofNat payload.length :: payload := by
  rw [prependLength, if_pos h, prependInt8]

theorem prependLength_medium {payload : Bytes} (h125 : ¬ payload.length ≤ 125) (h : payload.length ≤ 0xFFFF) :
    prependLength payload =
      126 :: .ofNat ((payload.length + 1) / 2 ^ 8) :: .ofNat payload.length :: payload := by
  have hlow := ofNat_and payload.length 0
  have hhigh := ofNat_and (payload.length + 1) 8
  rw [Nat.pow_zero, Nat.div_one] at hlow
  rw [prependLength, if_neg h125, if_pos h]
  simp only [prependInt8, List.length_cons]
  rw [← hlow, ← hhigh]
  rfl

theorem prependLength_long {payload : Bytes} (h : ¬ payload.length ≤ 0xFFFF) :
    prependLength payload =
      127 :: 0 :: 0 :: 0 :: 0 :: .ofNat ((payload.length + 3) / 2 ^ 24) :: .ofNat ((payload.length + 2) / 2 ^ 16) ::
        .ofNat ((payload.length + 1) / 2 ^ 8) :: .ofNat payload.length :: payload := by
  have h0 := ofNat_and payload.length 0
  have h1 := ofNat_and (payload.length + 1) 8
  have h2 := ofNat_and (payload.length + 2) 16
  have h3 := ofNat_and (payload.length + 3) 24
  rw [Nat.pow_zero, Nat.div_one] at h0
  rw [prependLength, if_neg (by omega), if_neg h]
  simp only [prependInt8, List.length_cons]
  rw [← h0, ← h1, ← h2, ← h3]
  rfl

/-- The header that is read from a payload with its length in front. -/
theorem readHeader_prependLength {payload : Bytes} (hlength : payload.length < 2 ^ 32) (head : UInt8) :
    ∃ header, readHeader (head :: prependLength payload) = some header ∧ header.fin = decide (head &&& 0x80 = 0x80) ∧
      header.rsv = head &&& 0x70 ∧ header.opcode = head &&& 0x0F ∧ header.masked = false ∧
      header.size = shortestSize payload.length ∧ (head :: prependLength payload).drop header.size = payload ∧
      (header.length = payload.length ↔ CarryFree payload.length) := by
  by_cases h125 : payload.length ≤ 125
  · have hall : ∀ n : Fin 126, (UInt8.ofNat n &&& 0x7F).toNat = n ∧ UInt8.ofNat n &&& 0x80 ≠ 0x80 := by decide +kernel
    obtain ⟨hshort, hunmasked⟩ := hall ⟨payload.length, by omega⟩
    have hmasked := decide_eq_false hunmasked
    simp only at hshort hmasked
    rw [prependLength_short h125, readHeader]
    simp only [hshort, if_pos h125, Nat.not_lt_zero, if_false, if_true, hmasked]
    refine ⟨_, rfl, rfl, rfl, rfl, rfl, ?_, rfl, iff_of_true rfl (Or.inl h125)⟩
    rw [shortestSize, if_pos h125]
  by_cases hmedium : payload.length ≤ 0xFFFF
  · rw [prependLength_medium h125 hmedium, readHeader]
    simp only [show ((126 : UInt8) &&& 0x7F).toNat = 126 by decide, Nat.reduceLeDiff, if_false, if_true]
    rw [if_neg (by simp)]
    refine ⟨_, rfl, rfl, rfl, rfl, rfl, ?_, rfl, ?_⟩
    · rw [shortestSize, if_neg h125, if_pos hmedium]
    · simp [BigEndian.ofBytes, CarryFree]
      omega
  · rw [prependLength_long hmedium, readHeader]
    simp only [show ((127 : UInt8) &&& 0x7F).toNat = 127 by decide, Nat.reduceLeDiff, Nat.reduceEqDiff, if_false]
    rw [if_neg (by simp)]
    refine ⟨_, rfl, rfl, rfl, rfl, rfl, ?_, rfl, ?_⟩
    · rw [shortestSize, if_neg h125, if_neg hmedium]
    · simp [BigEndian.ofBytes, CarryFree]
      omega

/-- The loop over the mask writes behind the mask or does not end. -/
theorem maskLoop_eq_none (rand : ℕ → UInt8) (fuel : ℕ) (i : UInt64) (mask front : Bytes) :
    maskLoop rand fuel i mask front = none := by
  induction fuel generalizing i mask front with
  | zero => rfl
  | succ fuel ih =>
    rw [maskLoop, if_pos (by simp)]
    split
    · exact ih ..
    · rfl

/-! ### The frame -/

/-- What `wsFrameBuild` is to do: end, with a header that tells the length of the payload in the shortest way, the
type and whether the frame is the last one, and the payload behind it, which the extractor gets back when it is
masked. -/
def BuildsFrame (rand : ℕ → UInt8) (payload : Bytes) (framType : WebSocketType) (ok masking : Bool) : Prop :=
  ∃ fuel frame, wsFrameBuild fuel rand payload framType ok masking = some frame ∧
    readHeader frame =
      some ⟨ok, 0, framType.toByte, masking, payload.length, shortestSize payload.length⟩ ∧
    (masking = false → frame.drop (shortestSize payload.length) = payload) ∧
    (masking = true → ∃ mask, mask.length = 4 ∧
      frame.drop (shortestSize payload.length) = mask ++ applyMask mask payload) ∧
    (masking = true → payload.length < 2 ^ 31 → ∀ request, wsFrameExtractBuffer request frame =
      some ⟨⟨if ok then .ofByte framType.toByte else .CONTINUATION_FRAME, request.parseString ++ payload⟩,
        frame.length,
        ok, false⟩)

/-- The first byte tells the type when the type is a number of four bits. -/
private theorem head_byte (b : UInt8) (ok : Bool) :
    ((b ||| if ok then 0x80 else 0x00) &&& 0x0F = b ↔ b < 16) ∧
      (b < 16 → decide ((b ||| if ok then 0x80 else 0x00) &&& 0x80 = 0x80) = ok ∧
        (b ||| if ok then 0x80 else 0x00) &&& 0x70 = 0) := by
  have hall : ∀ (n : Fin 256) (ok : Bool), let b := UInt8.ofNat n
      ((b ||| if ok then 0x80 else 0x00) &&& 0x0F = b ↔ b < 16) ∧
        (b < 16 → decide ((b ||| if ok then 0x80 else 0x00) &&& 0x80 = 0x80) = ok ∧
          (b ||| if ok then 0x80 else 0x00) &&& 0x70 = 0) := by
    decide +kernel
  have hb := hall ⟨b.toNat, b.toNat_lt⟩ ok
  simpa only [UInt8.ofNat_toNat] using hb

/-- `wsFrameBuild` builds a frame when it is not to be masked, the type has four bits and no byte of the length
changes while it is written. -/
theorem wsFrameBuild_iff (rand : ℕ → UInt8) {payload : Bytes} (hlength : payload.length < 2 ^ 32)
    (framType : WebSocketType) (ok masking : Bool) :
    BuildsFrame rand payload framType ok masking ↔
      masking = false ∧ framType.toByte < 16 ∧ CarryFree payload.length := by
  cases masking with
  | true =>
    refine iff_of_false ?_ (by simp)
    rintro ⟨fuel, frame, hframe, -⟩
    simp [wsFrameBuild, maskLoop_eq_none] at hframe
  | false =>
    obtain ⟨hopcode, hhead⟩ := head_byte framType.toByte ok
    obtain ⟨header, hread, hfin, hrsv, htype, hmasked, hsize, hdrop, hcarry⟩ :=
      readHeader_prependLength hlength (framType.toByte ||| if ok then 0x80 else 0x00)
    have hbuild : ∀ fuel, wsFrameBuild fuel rand payload framType ok false =
        some ((framType.toByte ||| if ok then 0x80 else 0x00) :: prependLength payload) := by
      intro fuel
      simp [wsFrameBuild, prependInt8]
    constructor
    · rintro ⟨fuel, frame, hframe, hheader, -⟩
      rw [hbuild, Option.some.injEq] at hframe
      rw [← hframe, hread, Option.some.injEq] at hheader
      subst hheader
      exact ⟨rfl, hopcode.1 htype.symm, hcarry.1 rfl⟩
    · rintro ⟨-, hbits, hfree⟩
      obtain ⟨hfin', hrsv'⟩ := hhead hbits
      have hheader : header = ⟨ok, 0, framType.toByte, false, payload.length, shortestSize payload.length⟩ := by
        rw [hfin'] at hfin
        rw [hrsv'] at hrsv
        rw [hopcode.2 hbits] at htype
        have hlen := hcarry.2 hfree
        cases header
        simp only at hfin hrsv htype hmasked hsize hlen
        rw [hfin, hrsv, htype, hmasked, hsize, hlen]
      refine ⟨0, _, hbuild 0, by rw [hread, hheader], fun _ => ?_, by simp, by simp⟩
      rw [← hsize, hdrop]

theorem wsFrameBuild_iff_hi : BuildsFrame (fun _ => 0) [104, 105] .TEXT_FRAME true false :=
  (wsFrameBuild_iff (fun _ => 0) (by decide) .TEXT_FRAME true false).2 ⟨rfl, by decide, by decide⟩

/-- No frame is masked: the loop over the mask never ends. -/
theorem wsFrameBuild_masked : ¬ ∀ (rand : ℕ → UInt8) (payload : Bytes) (framType : WebSocketType) (ok masking : Bool),
    payload.length < 2 ^ 32 → BuildsFrame rand payload framType ok masking := by
  intro h
  obtain ⟨fuel, frame, hframe, -⟩ := h (fun _ => 0) [104, 105] .TEXT_FRAME true true (by decide)
  simp [wsFrameBuild, maskLoop_eq_none] at hframe

end WebSocket
