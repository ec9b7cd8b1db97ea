import SwissArmyKnife.WebSocket.WebContext

/-!
# Reads of the frame extractor

`wsFrameExtractBuffer` with its numbers of 32 bits, each byte that it reads and each byte that it writes to the
request. No byte behind the buffer is read, whatever the buffer holds, and the request is written only when a whole
frame is there (`extractChecked_eq`).
-/

namespace WebSocket

/-- What a call of `wsFrameExtractBuffer` returns and leaves; `size` and `fin` are none when they were not written. -/
structure Call where
  extracted : Bool
  request : WebRequest
  size : Option ℕ
  fin : Option Bool
  forceClose : Bool
deriving DecidableEq, Repr

/-- The length of the payload and where the header ends, without the mask: nothing inside when the extractor returns
false, and none when a byte behind the buffer is read. -/
def readLength (buffer : Bytes) (second : UInt8) : Option (Option (UInt32 × UInt32)) :=
  let len := (second &&& 0x7F).toUInt32
  if len ≤ 125 then some (some (len, 2))
  else if len = 126 then
    if buffer.length < 4 then some none
    else do
      let b2 ← buffer[2]?
      let b3 ← buffer[3]?
      some (some ((b2.toUInt32 <<< 8) + b3.toUInt32, 4))
  else if buffer.length < 10 then some none
  else do
    let b2 ← buffer[2]?
    let b3 ← buffer[3]?
    let b4 ← buffer[4]?
    let b5 ← buffer[5]?
    let b6 ← buffer[6]?
    if b2 ≠ 0 ∨ b3 ≠ 0 ∨ b4 ≠ 0 ∨ b5 ≠ 0 then some none
    else if b6 &&& 0x80 = 0x80 then some none
    else do
      let b7 ← buffer[7]?
      let b8 ← buffer[8]?
      let b9 ← buffer[9]?
      some (some ((b6.toUInt32 <<< 24) + (b7.toUInt32 <<< 16) + (b8.toUInt32 <<< 8) + (b9.toUInt32 <<< 0), 10))

/-- The loop over the payload, with so many bytes left. -/
def pushPayload (buffer mask : Bytes) : ℕ → ℕ → ℕ → Bytes → Option Bytes
  | 0, _, _, parseString => some parseString
  | left + 1, i, j, parseString =>
    match buffer[i]?, mask[j % 4]? with
    | some b, some m => pushPayload buffer mask left (i + 1) (j + 1) (parseString ++ [b ^^^ m])
    | _, _ => none

/-- `wsFrameExtractBuffer`, none when a byte behind the buffer is read. -/
def extractChecked (request : WebRequest) (buffer : Bytes) : Option Call :=
  if buffer.length < 2 then some ⟨false, request, none, none, false⟩
  else do
    let first : UInt8 ← buffer[0]?
    let second : UInt8 ← buffer[1]?
    let fin := decide ((first >>> 7) &&& 0x01 = 1)
    let opcode := if fin then .ofByte (first &&& 0x0F) else .CONTINUATION_FRAME
    match ← readLength buffer second with
    | none => some ⟨false, request, none, some fin, false⟩
    | some (len, pos) =>
      if second &&& 0x80 = 0x80 then
        if buffer.length < (pos + 4).toNat then some ⟨false, request, none, some fin, false⟩
        else do
          let m0 ← buffer[pos.toNat]?
          let m1 ← buffer[(pos + 1).toNat]?
          let m2 ← buffer[(pos + 2).toNat]?
          let m3 ← buffer[(pos + 3).toNat]?
          let pos := pos + 4
          if buffer.length < (pos + len).toNat then some ⟨false, request, none, some fin, false⟩
          else do
            let parseString ← pushPayload buffer [m0, m1, m2, m3] len.toNat pos.toNat 0 request.parseString
            some ⟨true, ⟨opcode, parseString⟩, some (len + pos).toNat, some fin, false⟩
      else if buffer.length < (pos + len).toNat then some ⟨false, request, none, some fin, false⟩
      else some ⟨true, ⟨opcode, request.parseString⟩, some (len + pos).toNat, some fin, true⟩

/-! ### No byte behind the buffer -/

private theorem getElem?_eq_getD {buffer : Bytes} {i : ℕ} (h : i < buffer.length) :
    buffer[i]? = some (buffer.getD i 0) := by
  rw [List.getElem?_eq_getElem h, List.getD_eq_getElem?_getD, List.getElem?_eq_getElem h, Option.getD_some]

theorem pushPayload_eq {buffer mask : Bytes} (hmask : mask.length = 4) {left i : ℕ}
    (hwithin : i + left ≤ buffer.length)
    (j : ℕ) (parseString : Bytes) : pushPayload buffer mask left i j parseString =
      some (parseString ++ ((buffer.drop i).take left).mapIdx fun k b => b ^^^ mask.getD ((j + k) % 4) 0) := by
  induction left generalizing i j parseString with
  | zero => simp [pushPayload]
  | succ left ih =>
    have hlt : i < buffer.length := by omega
    rw [pushPayload, getElem?_eq_getD hlt, getElem?_eq_getD (show j % 4 < mask.length by omega)]
    simp only
    rw [ih (by omega), List.drop_eq_getElem_cons hlt, List.take_succ_cons, List.mapIdx_cons]
    simp [Nat.add_assoc, Nat.add_comm 1, List.getD_eq_getElem?_getD, hlt]

private theorem twoBytes_eq (a b : UInt8) :
    (a.toUInt32 <<< 8) + b.toUInt32 = UInt32.ofNat (a.toNat * 2 ^ 8 + b.toNat) := by
  rw [← UInt32.toNat_inj]
  simp [Nat.shiftLeft_eq]

private theorem fourBytes_eq (a b c d : UInt8) :
    (a.toUInt32 <<< 24) + (b.toUInt32 <<< 16) + (c.toUInt32 <<< 8) + (d.toUInt32 <<< 0) =
      UInt32.ofNat (a.toNat * 2 ^ 24 + b.toNat * 2 ^ 16 + c.toNat * 2 ^ 8 + d.toNat) := by
  rw [← UInt32.toNat_inj]
  simp [Nat.shiftLeft_eq]

theorem readLength_eq (buffer : Bytes) : readLength buffer (buffer.getD 1 0) =
    some ((payloadLength buffer).map fun p => (UInt32.ofNat p.1, UInt32.ofNat p.2)) := by
  have hle : (buffer.getD 1 0 &&& 0x7F).toUInt32 ≤ 125 ↔ (buffer.getD 1 0 &&& 0x7F).toNat ≤ 125 := by
    rw [UInt32.le_iff_toNat_le, UInt8.toNat_toUInt32]
    rfl
  have heq : (buffer.getD 1 0 &&& 0x7F).toUInt32 = 126 ↔ (buffer.getD 1 0 &&& 0x7F).toNat = 126 := by
    rw [← UInt32.toNat_inj, UInt8.toNat_toUInt32]
    rfl
  simp only [readLength, payloadLength, hle, heq]
  by_cases h125 : (buffer.getD 1 0 &&& 0x7F).toNat ≤ 125
  · rw [if_pos h125, if_pos h125, Option.map_some, UInt32.ofNat_uInt8ToNat]
    rfl
  rw [if_neg h125, if_neg h125]
  by_cases h126 : (buffer.getD 1 0 &&& 0x7F).toNat = 126
  · rw [if_pos h126, if_pos h126]
    by_cases hshort : buffer.length < 4
    · rw [if_pos hshort, if_pos hshort]
      rfl
    · rw [if_neg hshort, if_neg hshort, getElem?_eq_getD (i := 2) (by omega), getElem?_eq_getD (i := 3) (by omega)]
      simp only [Option.bind_eq_bind, Option.bind_some, Option.map_some, twoBytes_eq]
      rfl
  rw [if_neg h126, if_neg h126]
  by_cases hshort : buffer.length < 10
  · rw [if_pos hshort, if_pos hshort]
    rfl
  · rw [if_neg hshort, if_neg hshort, getElem?_eq_getD (i := 2) (by omega), getElem?_eq_getD (i := 3) (by omega),
      getElem?_eq_getD (i := 4) (by omega), getElem?_eq_getD (i := 5) (by omega),
        getElem?_eq_getD (i := 6) (by omega),
      getElem?_eq_getD (i := 7) (by omega), getElem?_eq_getD (i := 8) (by omega),
        getElem?_eq_getD (i := 9) (by omega)]
    simp only [Option.bind_eq_bind, Option.bind_some]
    split
    · rfl
    · split
      · rfl
      · simp only [Option.map_some, fourBytes_eq]
        rfl

theorem payloadLength_bounds {buffer : Bytes} {len pos : ℕ} (h : payloadLength buffer = some (len, pos)) :
    len < 2 ^ 31 ∧ pos ≤ 10 := by
  have hbyte : ∀ i, (buffer.getD i 0).toNat < 2 ^ 8 := fun i => (buffer.getD i 0).toNat_lt
  have h2 := hbyte 2
  have h3 := hbyte 3
  have h6 := hbyte 6
  have h7 := hbyte 7
  have h8 := hbyte 8
  have h9 := hbyte 9
  unfold payloadLength at h
  simp only at h
  split at h
  · simp only [Option.some.injEq, Prod.mk.injEq] at h
    omega
  · split at h
    · split at h
      · simp at h
      · simp only [Option.some.injEq, Prod.mk.injEq] at h
        omega
    · split at h
      · simp at h
      · split at h
        · simp at h
        · split at h
          · simp at h
          · rename_i htop
            have hlt : (buffer.getD 6 0).toNat < 2 ^ 7 := by
              have hall : ∀ n : Fin 256, UInt8.ofNat n &&& 0x80 ≠ 0x80 → (n : ℕ) < 2 ^ 7 := by decide +kernel
              refine hall ⟨(buffer.getD 6 0).toNat, h6⟩ ?_
              simpa only [UInt8.ofNat_toNat] using htop
            simp only [Option.some.injEq, Prod.mk.injEq] at h
            omega

private theorem take_four {buffer : Bytes} {pos : ℕ} (h : pos + 4 ≤ buffer.length) : (buffer.drop pos).take 4 =
    [buffer.getD pos 0, buffer.getD (pos + 1) 0, buffer.getD (pos + 2) 0, buffer.getD (pos + 3) 0] := by
  have hdrop : ∀ k, pos + k < buffer.length →
      buffer.drop (pos + k) = buffer.getD (pos + k) 0 :: buffer.drop (pos + k + 1) :=
    fun k hk => by
      rw [List.drop_eq_getElem_cons hk, List.getD_eq_getElem?_getD, List.getElem?_eq_getElem hk, Option.getD_some]
  have h0 := hdrop 0 (by omega)
  rw [Nat.add_zero] at h0
  rw [h0, hdrop 1 (by omega), hdrop 2 (by omega), hdrop 3 (by omega)]
  rfl

/-- The extractor reads within the buffer only; it leaves the request alone when it returns false. -/
theorem extractChecked_eq (request : WebRequest) (buffer : Bytes) : extractChecked request buffer =
    some (match wsFrameExtractBuffer request buffer with
      | none => ⟨false, request, none,
          if buffer.length < 2 then none else some (decide ((buffer.getD 0 0 >>> 7) &&& 0x01 = 1)), false⟩
      | some x => ⟨true, x.request, some x.size, some x.fin, x.forceClose⟩) := by
  by_cases h2 : buffer.length < 2
  · simp only [extractChecked, wsFrameExtractBuffer, if_pos h2]
  simp only [extractChecked, wsFrameExtractBuffer, if_neg h2]
  rw [getElem?_eq_getD (i := 0) (by omega), getElem?_eq_getD (i := 1) (by omega)]
  simp only [Option.bind_eq_bind, Option.bind_some, readLength_eq]
  rcases hlength : payloadLength buffer with - | ⟨len, pos⟩
  · rfl
  obtain ⟨hlen, hpos⟩ := payloadLength_bounds hlength
  have hnat : ∀ n, n < 2 ^ 32 → (UInt32.ofNat n).toNat = n := fun n hn => UInt32.toNat_ofNat_of_lt' hn
  have hsum : ∀ k ≤ 4, (UInt32.ofNat pos + UInt32.ofNat k).toNat = pos + k := fun k hk => by
    rw [← UInt32.ofNat_add, hnat _ (by omega)]
  have h1 : (UInt32.ofNat pos + 1).toNat = pos + 1 := hsum 1 (by omega)
  have h2 : (UInt32.ofNat pos + 2).toNat = pos + 2 := hsum 2 (by omega)
  have h3 : (UInt32.ofNat pos + 3).toNat = pos + 3 := hsum 3 (by omega)
  have h4 : (UInt32.ofNat pos + 4).toNat = pos + 4 := hsum 4 (by omega)
  have hend : (UInt32.ofNat pos + 4 + UInt32.ofNat len).toNat = pos + 4 + len := by
    rw [UInt32.toNat_add, h4, hnat len (by omega)]
    omega
  have hstop : (UInt32.ofNat pos + UInt32.ofNat len).toNat = pos + len := by
    rw [UInt32.toNat_add, hnat pos (by omega), hnat len (by omega)]
    omega
  have hsize : (UInt32.ofNat len + (UInt32.ofNat pos + 4)).toNat = len + (pos + 4) := by
    rw [UInt32.add_comm, hend]
    omega
  have hsize' : (UInt32.ofNat len + UInt32.ofNat pos).toNat = len + pos := by
    rw [UInt32.add_comm, hstop]
    omega
  simp only [Option.map_some, h1, h2, h3, h4, hend, hstop, hsize, hsize', hnat pos (by omega), hnat len (by omega)]
  by_cases hmasking : buffer.getD 1 0 &&& 0x80 = 0x80
  · rw [if_pos hmasking, if_pos hmasking]
    by_cases hmask : buffer.length < pos + 4
    · rw [if_pos hmask, if_pos hmask]
    rw [if_neg hmask, if_neg hmask, getElem?_eq_getD (i := pos) (by omega),
      getElem?_eq_getD (i := pos + 1) (by omega),
      getElem?_eq_getD (i := pos + 2) (by omega), getElem?_eq_getD (i := pos + 3) (by omega)]
    simp only [Option.bind_some]
    by_cases hall : buffer.length < pos + 4 + len
    · rw [if_pos hall, if_pos hall]
    rw [if_neg hall, if_neg hall, pushPayload_eq rfl (by omega)]
    simp only [Option.bind_some, take_four (show pos + 4 ≤ buffer.length by omega), applyMask, Nat.zero_add,
      decide_eq_true_eq]
  · rw [if_neg hmasking, if_neg hmasking]
    by_cases hall : buffer.length < pos + len
    · rw [if_pos hall, if_pos hall]
    · rw [if_neg hall, if_neg hall]
      simp only [decide_eq_true_eq]

end WebSocket
