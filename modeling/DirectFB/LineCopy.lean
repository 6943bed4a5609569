import Mathlib.Tactic

/-! Lines of bytes that are copied from one memory to another, each line a pitch behind the one
before it. -/
namespace LineCopy

variable {β : Type*}

def copyLine (mask : ℤ → Bool) (src : ℤ → β) (n : ℤ) (m : ℤ → β) (d s : ℤ) : ℤ → β := fun a =>
  if d ≤ a ∧ a < d+n ∧ mask (a-d) then src (s+(a-d)) else m a

/-- `h` lines are copied, with what a mask asks for in each of them. -/
def copyLines (mask : ℕ → ℤ → Bool) (src : ℤ → β) (n : ℤ) (h : ℕ) (m : ℤ → β) (d dpitch s spitch : ℤ) :
    ℤ → β :=
  (List.range h).foldl (fun m (y : ℕ) => copyLine (mask y) src n m (d+y*dpitch) (s+y*spitch)) m

def all : ℕ → ℤ → Bool := fun _ _ => true

section Lines

variable {mask : ℕ → ℤ → Bool} {src m : ℤ → β} {n d dpitch s spitch a k : ℤ} {h y : ℕ}

theorem copyLines_succ : copyLines mask src n (h+1) m d dpitch s spitch =
    copyLine (mask h) src n (copyLines mask src n h m d dpitch s spitch) (d+h*dpitch)
      (s+h*spitch) := by
  rw [copyLines,List.range_succ,List.foldl_append]
  rfl

theorem copyLine_inside {mask : ℤ → Bool} (hk : 0 ≤ k) (hn : k < n) :
    copyLine mask src n m d s (d+k) = if mask k then src (s+k) else m (d+k) := by
  simp [copyLine,hk,hn]

theorem copyLine_outside {mask : ℤ → Bool} (ha : a < d ∨ d+n ≤ a) :
    copyLine mask src n m d s a = m a := if_neg (by omega)

theorem copyLines_outside (ha : ∀ y < h, ∀ k, 0 ≤ k → k < n → a ≠ d+y*dpitch+k) :
    copyLines mask src n h m d dpitch s spitch a = m a := by
  induction h with
  | zero => rfl
  | succ h ih =>
    rw [copyLines_succ,copyLine_outside]
    · exact ih fun y hy => ha y (Nat.lt_succ_of_lt hy)
    · have hlast := ha h (Nat.lt_succ_self h) (a-(d+h*dpitch))
      omega

/-- Where lines do not overlap each byte is copied from its place. -/
theorem copyLines_inside (hpitch : n ≤ dpitch) (hy : y < h) (hk : 0 ≤ k) (hn : k < n) :
    copyLines mask src n h m d dpitch s spitch (d+y*dpitch+k) =
      if mask y k then src (s+y*spitch+k) else m (d+y*dpitch+k) := by
  induction h with
  | zero => exact absurd hy (Nat.not_lt_zero y)
  | succ h ih =>
    rw [copyLines_succ]
    obtain hlt | rfl := Nat.lt_succ_iff_lt_or_eq.mp hy
    · rw [copyLine_outside,ih hlt]
      have hstep : (y : ℤ)*dpitch+dpitch ≤ h*dpitch := by
        have : ((y : ℤ)+1)*dpitch ≤ h*dpitch := by gcongr <;> omega
        linarith
      omega
    · rw [copyLine_inside hk hn,copyLines_outside]
      intro z hz j hj hjn heq
      have hstep : (z : ℤ)*dpitch+dpitch ≤ y*dpitch := by
        have : ((z : ℤ)+1)*dpitch ≤ y*dpitch := by gcongr <;> omega
        linarith
      omega

end Lines

end LineCopy
