import Mathlib.Data.Nat.Bitwise

/-!
# Reflected cyclic redundancy checks

One step of the remainder, lowest bit first, is linear over xor.  So a group of low bits can be looked up in a table
while the others are shifted (`bitSteps_eq`).
-/

namespace Crc

variable {w : ℕ} (poly : BitVec w)

def bitStep (x : BitVec w) : BitVec w := (x >>> 1) ^^^ (if x.getLsbD 0 then poly else 0)

def bitSteps : ℕ → BitVec w → BitVec w
  | 0, x => x
  | n + 1, x => bitSteps n (bitStep poly x)

/-- The bits of a byte are the next coefficients of the polynomial that is divided. -/
def byteStep (x : BitVec w) (b : BitVec 8) : BitVec w := bitSteps poly 8 (x ^^^ b.setWidth w)

theorem bitStep_xor (x y : BitVec w) : bitStep poly (x ^^^ y) = bitStep poly x ^^^ bitStep poly y := by
  have hbit : (if (x ^^^ y).getLsbD 0 then poly else 0) =
      (if x.getLsbD 0 then poly else 0) ^^^ (if y.getLsbD 0 then poly else 0) := by
    rw [BitVec.getLsbD_xor]
    cases x.getLsbD 0 <;> cases y.getLsbD 0 <;> simp
  rw [bitStep, hbit, BitVec.ushiftRight_xor_distrib, bitStep, bitStep]
  ac_rfl

theorem bitSteps_xor (n : ℕ) (x y : BitVec w) :
    bitSteps poly n (x ^^^ y) = bitSteps poly n x ^^^ bitSteps poly n y := by
  induction n generalizing x y with
  | zero => rfl
  | succ n ih => rw [bitSteps, bitStep_xor, ih, bitSteps, bitSteps]

/-- Zeros are only shifted out. -/
theorem bitSteps_of_low_zero {n : ℕ} {x : BitVec w} (h : ∀ i < n, x.getLsbD i = false) :
    bitSteps poly n x = x >>> n := by
  induction n generalizing x with
  | zero => rfl
  | succ n ih =>
    have hstep : bitStep poly x = x >>> 1 := by
      rw [bitStep, h 0 (Nat.succ_pos n), if_neg Bool.false_ne_true]
      exact BitVec.xor_zero
    rw [bitSteps, hstep, ih, ← BitVec.shiftRight_add, Nat.add_comm]
    intro i hi
    rw [BitVec.getLsbD_ushiftRight]
    exact h (1 + i) (by omega)

/-- The low bits come from a table with `2 ^ n` entries, and the others are shifted. -/
theorem bitSteps_eq (n : ℕ) (x : BitVec w) :
    bitSteps poly n x = bitSteps poly n (x &&& BitVec.ofNat w (2 ^ n - 1)) ^^^ (x >>> n) := by
  have hmask : ∀ i < w, (BitVec.ofNat w (2 ^ n - 1)).getLsbD i = decide (i < n) := by
    intro i hi
    rw [BitVec.getLsbD_ofNat, Nat.testBit_two_pow_sub_one]
    simp [hi]
  have hsplit : x = (x &&& BitVec.ofNat w (2 ^ n - 1)) ^^^ (x ^^^ (x &&& BitVec.ofNat w (2 ^ n - 1))) := by
    rw [BitVec.xor_comm x, ← BitVec.xor_assoc, BitVec.xor_self, BitVec.zero_xor]
  have hlow : ∀ i < n, (x ^^^ (x &&& BitVec.ofNat w (2 ^ n - 1))).getLsbD i = false := by
    intro i hi
    rcases Nat.lt_or_ge i w with hw | hw
    · simp [BitVec.getLsbD_xor, BitVec.getLsbD_and, hmask i hw, hi]
    · exact BitVec.getLsbD_of_ge _ _ hw
  have hshift : (x ^^^ (x &&& BitVec.ofNat w (2 ^ n - 1))) >>> n = x >>> n := by
    apply BitVec.eq_of_getLsbD_eq
    intro i hi
    rw [BitVec.getLsbD_ushiftRight, BitVec.getLsbD_ushiftRight, BitVec.getLsbD_xor, BitVec.getLsbD_and]
    rcases Nat.lt_or_ge (n + i) w with hw | hw
    · rw [hmask (n + i) hw, decide_eq_false (by omega), Bool.and_false, Bool.xor_false]
    · simp [BitVec.getLsbD_of_ge _ _ hw]
  conv => lhs; rw [hsplit, bitSteps_xor, bitSteps_of_low_zero poly hlow, hshift]

end Crc
