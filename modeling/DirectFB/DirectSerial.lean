import Mathlib.Tactic

/-! The serials of libdirect: a counter of one machine word with a count of its overflows. -/
namespace DirectFB

/-- The fields of `DirectSerial` without those for waiting. -/
@[ext] structure DirectSerial where
  overflow : UInt32
  value : UInt64
  deriving DecidableEq, Repr

namespace DirectSerial

/-- `direct_serial_init`. -/
def init : DirectSerial := ⟨0,0⟩

/-- `direct_serial_increase`. -/
def increase (serial : DirectSerial) : DirectSerial :=
  if serial.value+1 = 0 then ⟨serial.overflow+1,serial.value+1⟩
  else ⟨serial.overflow,serial.value+1⟩

/-- `direct_serial_copy`. -/
def copy (_serial source : DirectSerial) : DirectSerial := ⟨source.overflow,source.value⟩

/-- `direct_serial_check`. -/
def check (serial source : DirectSerial) : Bool :=
  if serial.overflow < source.overflow then false
  else if serial.overflow = source.overflow ∧ serial.value < source.value then false
  else true

/-- `direct_serial_update`, with the serial it leaves. -/
def update (serial source : DirectSerial) : Bool × DirectSerial :=
  if serial.overflow < source.overflow then (true,⟨source.overflow,source.value⟩)
  else if serial.overflow = source.overflow ∧ serial.value < source.value then
    (true,⟨serial.overflow,source.value⟩)
  else (false,serial)

def count (serial : DirectSerial) : ℕ := serial.overflow.toNat*2^64+serial.value.toNat

@[simp] theorem count_init : init.count = 0 := rfl

theorem check_iff (a b : DirectSerial) : check a b = true ↔ b.count ≤ a.count := by
  have ha := a.value.toNat_lt
  have hb := b.value.toNat_lt
  simp only [check,count,UInt32.lt_iff_toNat_lt,UInt64.lt_iff_toNat_lt,← UInt32.toNat_inj]
  split_ifs <;> simp <;> omega

theorem update_eq (a b : DirectSerial) :
    update a b = if check a b then (false,a) else (true,b) := by
  by_cases hlt : a.overflow < b.overflow
  · simp [check,update,hlt]
  · by_cases hv : a.overflow = b.overflow ∧ a.value < b.value
    · simp [check,update,hv]
    · simp [check,update,hlt,hv]

theorem count_increase (a : DirectSerial) (h : a.count+1 < 2^96) :
    a.increase.count = a.count+1 := by
  have hv := a.value.toNat_lt
  have ho := a.overflow.toNat_lt
  simp only [count] at h
  simp only [increase,count,← UInt64.toNat_inj,UInt64.toNat_add]
  split_ifs with hz
  · simp only [UInt32.toNat_add,UInt64.toNat_add]
    simp only [UInt64.toNat_one,UInt64.toNat_zero,UInt32.toNat_one] at hz ⊢
    omega
  · simp only [UInt64.toNat_add]
    simp only [UInt64.toNat_one,UInt64.toNat_zero] at hz ⊢
    omega

@[simp] theorem count_init_increase : init.increase.count = 1 := by
  rw [count_increase init (by norm_num),count_init]

end DirectSerial

end DirectFB
