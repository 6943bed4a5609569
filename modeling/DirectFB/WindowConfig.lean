import DirectFB.Reaches
import DirectFB.UpdateRegion

/-! How windows come to a stack, move in it and change: bounds, options, opacity and
opaque region. -/
namespace DirectFB.WindowConfig
open Transition

/-- The size of a window, of which `D_ASSERT` demands that it is not empty. -/
structure Size where
  w : ℤ
  h : ℤ
  w_pos : 0 < w
  h_pos : 0 < h
  deriving DecidableEq

/-- The fields of a `CoreWindowConfig` that the flags name. -/
structure Change where
  options : Option WindowOptions := none
  opaqueRegion : Option OpaqueRegion := none
  opacity : Option (Fin 256) := none
  position : Option (ℤ × ℤ) := none
  size : Option Size := none

def full (s : Size) : OpaqueRegion :=
  ⟨⟨0,0,s.w-1,s.h-1⟩,⟨Int.le_sub_one_of_lt s.w_pos,Int.le_sub_one_of_lt s.h_pos⟩⟩

def bounds (x y : ℤ) (s : Size) : Rectangle := ⟨x,y,s.w,s.h,s.w_pos.le,s.h_pos.le⟩

def cut (o : OpaqueRegion) (s : Size) : Option OpaqueRegion :=
  match h : o.toRegion.intersect (full s).toRegion with
  | some r => some ⟨r,o.valid.intersect (full s).valid h⟩
  | none => none

def limitExceeded (s : Size) : Bool := decide (s.w > 4096) || decide (s.h > 4096)

/-- `move_window`. -/
def moveWindow (w : Window) (dx dy : ℤ) : Window :=
  {w with bounds := {w.bounds with x := w.bounds.x+dx, y := w.bounds.y+dy}}

/-- `resize_window`, and whether it answers `DFB_OK`. An opaque region beyond the new size
is left as it is. -/
def resizeWindow (w : Window) (s : Size) : Window × Bool :=
  if limitExceeded s then (w,false)
  else ({w with
    opaqueRegion := (cut w.opaqueRegion s).getD w.opaqueRegion
    bounds := bounds w.bounds.x w.bounds.y s},true)

/-- `set_window_bounds`, and whether it answers `DFB_OK`. -/
def setWindowBounds (w : Window) (x y : ℤ) (s : Size) : Window × Bool :=
  if limitExceeded s then (w,false)
  else ({w with
    opaqueRegion := (cut w.opaqueRegion s).getD (full s)
    bounds := bounds x y s},true)

/-- `set_opacity`, without `translucent_windows` all or nothing. -/
def setOpacity (translucentWindows : Bool) (w : Window) (opacity : Fin 256) : Window :=
  {w with opacity := if !translucentWindows && opacity ≠ 0 then 0xff else opacity}

/-- `flags == (CWCF_POSITION | CWCF_SIZE)`. -/
def onlyBounds (c : Change) : Bool :=
  c.options.isNone && c.opaqueRegion.isNone && c.opacity.isNone && c.position.isSome &&
  c.size.isSome

def setFirst (translucentWindows : Bool) (w : Window) (c : Change) : Window :=
  let w := {w with
    options := c.options.getD w.options
    opaqueRegion := c.opaqueRegion.getD w.opaqueRegion}
  if c.opacity = some 0 then setOpacity translucentWindows w 0 else w

def setBounds (w : Window) (c : Change) : Window × Bool :=
  match c.position, c.size with
  | none, none => (w,true)
  | some (x,y), none => (moveWindow w (x-w.bounds.x) (y-w.bounds.y),true)
  | none, some s => resizeWindow w s
  | some (x,y), some s =>
    if onlyBounds c then setWindowBounds w x y s
    else resizeWindow (moveWindow w (x-w.bounds.x) (y-w.bounds.y)) s

/-- `wm_set_window_config`. -/
def setWindowConfig (translucentWindows : Bool) (w : Window) (c : Change) : Window :=
  let r := setBounds (setFirst translucentWindows w c) c
  match c.opacity with
  | some opacity =>
    if r.2 && opacity ≠ 0 then setOpacity translucentWindows r.1 opacity else r.1
  | none => r.1

/-- A window as `dfb_window_create` passes it to the window manager. -/
def newWindow (inputOnly : Bool) (x y : ℤ) (s : Size) (options : WindowOptions) : Window where
  inputOnly := inputOnly
  destroyed := false
  bounds := bounds x y s
  opacity := 0
  options := options
  opaqueRegion := ⟨⟨0,0,0,0⟩,Region.zero_valid⟩
  rotation := .r0

inductive Event
  | add (index : ℕ) (inputOnly : Bool) (x y : ℤ) (size : Size) (options : WindowOptions)
  | remove (index : ℕ)
  | restack (old index : ℕ)
  | config (index : ℕ) (change : Change)

/-- A step of the window manager, on the windows from bottom to top. -/
def step (translucentWindows : Bool) (windows : List Window) : Event → Option (List Window)
  | .add index inputOnly x y s options =>
    some (windows.insertIdx index (newWindow inputOnly x y s options))
  | .remove index => some (windows.eraseIdx index)
  | .restack old index =>
    windows[old]?.map fun w => (windows.eraseIdx old).insertIdx index w
  | .config index change =>
    windows[index]?.map fun w => windows.set index (setWindowConfig translucentWindows w change)

def Solid (opacity : Fin 256) (options : WindowOptions) : Prop :=
  opacity = 0xff ∧ !options.colorKeying ∧ (options.alphaChannel → options.opaqueRegion)

instance (o : Fin 256) (options : WindowOptions) : Decidable (Solid o options) :=
  inferInstanceAs (Decidable (_ ∧ _ ∧ _))

def frame (w : Window) : Region := ⟨0,0,w.bounds.w-1,w.bounds.h-1⟩

/-- The opaque region lies within the window, and a window that is never drawn is not solid. -/
structure Fits (w : Window) : Prop where
  rotation : w.rotation = .r0
  alive : w.destroyed = false
  opaque_within : w.opaqueRegion.Within (frame w)
  drawn : w.inputOnly → ¬ Solid w.opacity w.options

/-- A change sets an opaque region within the window, is no resize which leaves the opaque
region outside, and makes no window solid that is never drawn. -/
def Kept (translucentWindows : Bool) (windows : List Window) : Event → Prop
  | .config index c => ∀ w, windows[index]? = some w →
    (∀ o, c.opaqueRegion = some o → o.Within (frame w)) ∧
    (∀ s, c.size = some s → onlyBounds c = false →
      (cut (c.opaqueRegion.getD w.opaqueRegion) s).isSome) ∧
    (w.inputOnly → ¬ Solid (setWindowConfig translucentWindows w c).opacity
      (setWindowConfig translucentWindows w c).options)
  | _ => True

theorem cut_within {o r : OpaqueRegion} {s : Size} (h : cut o s = some r) :
    r.Within (full s).toRegion := by
  unfold cut at h
  split at h
  next hr =>
    obtain rfl := Option.some.inj h
    exact (Region.intersect_within hr).2
  next => cases h

theorem setBounds_keeps (w : Window) (c : Change) :
    (setBounds w c).1.inputOnly = w.inputOnly ∧ (setBounds w c).1.destroyed = w.destroyed ∧
    (setBounds w c).1.rotation = w.rotation := by
  unfold setBounds resizeWindow setWindowBounds moveWindow
  split
  · exact ⟨rfl,rfl,rfl⟩
  · exact ⟨rfl,rfl,rfl⟩
  · split_ifs <;> exact ⟨rfl,rfl,rfl⟩
  · split_ifs <;> exact ⟨rfl,rfl,rfl⟩

theorem resizeWindow_within {w : Window} {s : Size} (h : w.opaqueRegion.Within (frame w))
    (hs : (cut w.opaqueRegion s).isSome) :
    (resizeWindow w s).1.opaqueRegion.Within (frame (resizeWindow w s).1) := by
  unfold resizeWindow
  split_ifs
  · exact h
  · obtain ⟨r,hr⟩ := Option.isSome_iff_exists.mp hs
    simp only [hr,Option.getD_some]
    exact cut_within hr

theorem setWindowBounds_within {w : Window} (x y : ℤ) {s : Size}
    (h : w.opaqueRegion.Within (frame w)) :
    (setWindowBounds w x y s).1.opaqueRegion.Within (frame (setWindowBounds w x y s).1) := by
  unfold setWindowBounds
  split_ifs
  · exact h
  · cases hr : cut w.opaqueRegion s with
    | none => exact ⟨le_rfl,le_rfl,le_rfl,le_rfl⟩
    | some r => exact cut_within hr

theorem setBounds_within {w : Window} {c : Change} (h : w.opaqueRegion.Within (frame w))
    (hs : ∀ s, c.size = some s → onlyBounds c = false → (cut w.opaqueRegion s).isSome) :
    (setBounds w c).1.opaqueRegion.Within (frame (setBounds w c).1) := by
  have honly : c.position = none → onlyBounds c = false := by
    intro hp
    simp [onlyBounds,hp]
  unfold setBounds
  split
  next => exact h
  next => exact h
  next s hp hsize => exact resizeWindow_within h (hs s hsize (honly hp))
  next x y s hp hsize =>
    split_ifs with hb
    · exact setWindowBounds_within x y h
    · exact resizeWindow_within h (hs s hsize (by simpa using hb))

/-- A change that meets the conditions leaves a window that fits. -/
theorem Fits.setWindowConfig {translucentWindows : Bool} {w : Window} {c : Change} (h : Fits w)
    (ho : ∀ o, c.opaqueRegion = some o → o.Within (frame w))
    (hs : ∀ s, c.size = some s → onlyBounds c = false →
      (cut (c.opaqueRegion.getD w.opaqueRegion) s).isSome)
    (hd : w.inputOnly → ¬ Solid (setWindowConfig translucentWindows w c).opacity
      (setWindowConfig translucentWindows w c).options) :
    Fits (setWindowConfig translucentWindows w c) := by
  have hfirst : (setFirst translucentWindows w c).inputOnly = w.inputOnly ∧
      (setFirst translucentWindows w c).destroyed = w.destroyed ∧
      (setFirst translucentWindows w c).rotation = w.rotation ∧
      (setFirst translucentWindows w c).bounds = w.bounds ∧
      (setFirst translucentWindows w c).opaqueRegion = c.opaqueRegion.getD w.opaqueRegion := by
    unfold setFirst setOpacity
    split_ifs <;> exact ⟨rfl,rfl,rfl,rfl,rfl⟩
  obtain ⟨hin,hdes,hrot,hbounds,hop⟩ := hfirst
  have hwithin : (setFirst translucentWindows w c).opaqueRegion.Within
      (frame (setFirst translucentWindows w c)) := by
    rw [hop,frame,hbounds]
    cases hc : c.opaqueRegion with
    | none => exact h.opaque_within
    | some o => exact ho o hc
  have hbounded := setBounds_within hwithin (c := c) (by rwa [hop])
  have hkeeps := setBounds_keeps (setFirst translucentWindows w c) c
  have hlast : (WindowConfig.setWindowConfig translucentWindows w c).inputOnly = w.inputOnly ∧
      (WindowConfig.setWindowConfig translucentWindows w c).destroyed = w.destroyed ∧
      (WindowConfig.setWindowConfig translucentWindows w c).rotation = w.rotation ∧
      (WindowConfig.setWindowConfig translucentWindows w c).opaqueRegion.Within
        (frame (WindowConfig.setWindowConfig translucentWindows w c)) := by
    rw [hin,hdes,hrot] at hkeeps
    unfold WindowConfig.setWindowConfig setOpacity
    split
    · dsimp only
      split_ifs <;> exact ⟨hkeeps.1,hkeeps.2.1,hkeeps.2.2,hbounded⟩
    · exact ⟨hkeeps.1,hkeeps.2.1,hkeeps.2.2,hbounded⟩
  exact ⟨hlast.2.2.1.trans h.rotation,hlast.2.1.trans h.alive,hlast.2.2.2,
    fun hi => hd (hlast.1 ▸ hi)⟩

theorem newWindow_fits (inputOnly : Bool) (x y : ℤ) (s : Size) (options : WindowOptions) :
    Fits (newWindow inputOnly x y s options) where
  rotation := rfl
  alive := rfl
  opaque_within := ⟨le_rfl,le_rfl,Int.le_sub_one_of_lt s.w_pos,Int.le_sub_one_of_lt s.h_pos⟩
  drawn _ hs := by
    have hzero : (0 : Fin 256) = 0xff := hs.1
    exact absurd hzero (by decide)

theorem mem_of_mem_insertIdx {α : Type*} {l : List α} {i : ℕ} {a b : α}
    (h : a ∈ l.insertIdx i b) : a = b ∨ a ∈ l := by
  by_cases hi : i ≤ l.length
  · exact (List.mem_insertIdx hi).mp h
  · rw [List.insertIdx_of_length_lt (by omega)] at h
    exact .inr h

theorem reaches_fits {translucentWindows : Bool} {windows : List Window}
    (h : Reaches (step translucentWindows) (Kept translucentWindows) (· = []) windows) :
    ∀ w ∈ windows, Fits w := by
  refine Reaches.invariant (fun windows => ∀ w ∈ windows, Fits w) ?_ ?_ h
  · rintro _ rfl w hw
    cases hw
  · intro windows e t hfits hok hs
    cases e with
    | add index inputOnly x y s options =>
      obtain rfl := Option.some.inj hs
      intro w hw
      rcases mem_of_mem_insertIdx hw with rfl | hw
      · exact newWindow_fits ..
      · exact hfits w hw
    | remove index =>
      obtain rfl := Option.some.inj hs
      exact fun w hw => hfits w (List.mem_of_mem_eraseIdx hw)
    | restack old index =>
      obtain ⟨v,hv,rfl⟩ := Option.map_eq_some_iff.mp hs
      intro w hw
      rcases mem_of_mem_insertIdx hw with rfl | hw
      · exact hfits w (List.mem_of_getElem? hv)
      · exact hfits w (List.mem_of_mem_eraseIdx hw)
    | config index c =>
      obtain ⟨v,hv,rfl⟩ := Option.map_eq_some_iff.mp hs
      intro w hw
      rcases List.mem_or_eq_of_mem_set hw with hw | rfl
      · exact hfits w hw
      · obtain ⟨ho,hcut,hd⟩ := hok v hv
        exact (hfits v (List.mem_of_getElem? hv)).setWindowConfig ho hcut hd

end DirectFB.WindowConfig
