import Mathlib.Tactic

/-! Sizes and alignment of what two Voodoo peers send to each other. -/
namespace DirectFB
namespace Voodoo

/-- `VOODOO_MSG_ALIGN`, of an `unsigned int`. -/
def msgAlign (i : UInt32) : UInt32 := (i+3) &&& ~~~3

/-- `VOODOO_PACKET_MAX`, which is `MAX_MSG_SIZE`. -/
def packetMax : ℕ := 17*1024

/-- `sizeof(VoodooMessageHeader)`. -/
def messageHeaderSize : ℕ := 12

/-- `sizeof(VoodooPacketHeader)`. -/
def packetHeaderSize : ℕ := 16

theorem and_mask {x : ℕ} (h : x < 2^32) : x &&& 4294967292 = x/4*4 := by
  have hmask : 4294967292 = (2^30-1) <<< 2 := rfl
  have hclear : x/4*4 = (x >>> 2) <<< 2 := by
    rw [Nat.shiftLeft_eq,Nat.shiftRight_eq_div_pow]
  rw [hmask,hclear]
  refine Nat.eq_of_testBit_eq fun i => ?_
  rw [Nat.testBit_and,Nat.testBit_shiftLeft,Nat.testBit_shiftLeft,Nat.testBit_shiftRight,
    Nat.testBit_two_pow_sub_one]
  by_cases hi : 2 ≤ i
  · by_cases hlow : i-2 < 30
    · simp [hi,hlow]
    · have hx : x.testBit i = false := Nat.testBit_lt_two_pow
        (h.trans_le (Nat.pow_le_pow_right (by decide) (by omega)))
      simp [hi,hx]
  · simp [hi]

theorem msgAlign_toNat (i : UInt32) : (msgAlign i).toNat = (i+3).toNat/4*4 := by
  have hmask : (~~~3 : UInt32) = 4294967292 := rfl
  rw [msgAlign,hmask,UInt32.toNat_and]
  exact and_mask (i+3).toNat_lt

theorem msgAlign_eq {i : UInt32} (h : i.toNat+3 < 2^32) : (msgAlign i).toNat = (i.toNat+3)/4*4 := by
  rw [msgAlign_toNat,UInt32.toNat_add]
  exact congrArg (fun x => x/4*4) (Nat.mod_eq_of_lt h)

end Voodoo

end DirectFB
