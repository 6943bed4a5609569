import DirectFB.WindowFocus

/-! Where key presses and releases go: whether each window that is told of a press is told
of the release. -/
namespace DirectFB.KeyRouting
open Function (update update_apply update_eq_self update_of_ne)
open Transition Alternation WindowStack WindowFocus

variable {ω : Type*} [DecidableEq ω]

/-- The window was sent a `DWET_KEYDOWN` for the code, and no `DWET_KEYUP` since. -/
def pending (x : State ω) (w : ω) (code : ℤ) : Bool := unmatched (received (key? code) w x.posted)

/-- An entry of the keys is in use by a window that waits for the release, and nobody else
waits for it. -/
structure Routed (x : State ω) : Prop where
  alive : ∀ w ∈ x.windows, (x.window w).destroyed = false
  matched : ∀ w code, code ≠ -1 → Matched (received (key? code) w x.posted)
  owner : ∀ i, (x.keys i).code ≠ -1 → ∃ w ∈ x.windows, (x.keys i).owner = some w
  entry : ∀ i w, (x.keys i).code ≠ -1 → (x.keys i).owner = some w →
    pending x w (x.keys i).code = true
  distinct : ∀ i j, (x.keys i).code ≠ -1 → (x.keys i).code = (x.keys j).code → i = j
  only : ∀ i w, (x.keys i).code ≠ -1 → w ∈ x.windows → pending x w (x.keys i).code = true →
    (x.keys i).owner = some w
  fresh : ∀ w, w ∉ x.windows → (x.window w).destroyed = false → ∀ code, pending x w code = false

section Frame
variable {x y : State ω}

theorem pending_congr (h : ∀ code w, received (key? code) w y.posted =
    received (key? code) w x.posted) (w : ω) (code : ℤ) : pending y w code = pending x w code := by
  unfold pending
  rw [h]

/-- Focus and grabs do not matter to what was sent. -/
theorem Routed.congr (h : Routed x) (hwindows : y.windows.Perm x.windows)
    (hdestroyed : ∀ w, (y.window w).destroyed = (x.window w).destroyed) (hkeys : y.keys = x.keys)
    (hpressed : ∀ code w, received (key? code) w y.posted = received (key? code) w x.posted) :
    Routed y := by
  have hpending := pending_congr hpressed
  refine ⟨fun w hw => (hdestroyed w).trans (h.alive w (hwindows.subset hw)),fun w code hcode => ?_,
    fun i hi => ?_,fun i w hi hw => ?_,fun i j hi hj => ?_,fun i w hi hw hp => ?_,
    fun w hw hd code => ?_⟩
  · rw [hpressed]
    exact h.matched w code hcode
  · rw [hkeys] at hi ⊢
    obtain ⟨w,hw,how⟩ := h.owner i hi
    exact ⟨w,hwindows.symm.subset hw,how⟩
  · rw [hkeys] at hi hw ⊢
    rw [hpending]
    exact h.entry i w hi hw
  · rw [hkeys] at hi hj
    exact h.distinct i j hi hj
  · rw [hkeys] at hi hp ⊢
    rw [hpending] at hp
    exact h.only i w hi (hwindows.subset hw) hp
  · rw [hpending]
    exact h.fresh w (fun hm => hw (hwindows.symm.subset hm)) ((hdestroyed w).symm.trans hd) code

end Frame

section Post
variable {x : State ω}

variable {e : WindowEvent} {code : ℤ} {b : Bool}

end Post

section Windows
variable {x : State ω} {w : ω}

end Windows

section Keys
variable {x : State ω}

def PressKept (x : State ω) (k : KeyData) : Prop :=
  k.code ≠ -1 → (∀ w i, explicitGrab x k.symbol = some w → entryOf x k.code = some i →
      (x.keys i).owner = some w) ∧
    (explicitGrab x k.symbol = none → entryOf x k.code = none → ∀ w, keyTarget x = some w →
      (x.window w).keySelection.selects k.symbol = true →
      ∀ v ∈ x.windows, pending x v k.code = true → v = w)

/-- A release reaches the entry of its code, if there is one, or else the explicit grab of the
one window that waits for it. -/
def ReleaseKept (x : State ω) (k : KeyData) : Prop :=
  k.code ≠ -1 →
    if (entryOf x k.code).isSome then
      keptRelease x k.symbol = false ∧ explicitGrab x k.symbol = none
    else if keptRelease x k.symbol then ∀ v ∈ x.windows, pending x v k.code = false
    else (∀ w, explicitGrab x k.symbol = some w → pending x w k.code = true) ∧
      ∀ v ∈ x.windows, pending x v k.code = true → explicitGrab x k.symbol = some v

def Released (x : State ω) (code : ℤ) : Prop :=
  (∀ w ∈ x.windows, pending x w code = false) ∧ ∀ i, (x.keys i).code ≠ code

end Keys

section Run
variable {x : State ω}

def Kept (x : State ω) : Event ω → Prop
  | .press k => takenKey x k.symbol = none → PressKept x k
  | .release k => ReleaseKept x k
  | _ => True

/-- The key `A`, with hardware code 30. -/
def keyA : KeyData := ⟨0x61,1,30⟩

def held : State (Fin 2) :=
  handleKeyPress (setOpacity (addWindow start ⟨0,Nat.two_pos⟩ plain) ⟨0,Nat.two_pos⟩ 255) keyA

end Run

end DirectFB.KeyRouting
