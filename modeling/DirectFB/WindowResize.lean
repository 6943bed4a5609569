import DirectFB.WindowConfig

/-! The size of a window in the default window manager, which is kept in the bounds, in the surface
and in the configuration of the layer region, with all that may fail when it is changed. -/
namespace DirectFB.WindowResize
open Transition
open WindowConfig (Size full cut limitExceeded)

structure Place where
  x : ℤ
  y : ℤ
  size : Size
  deriving DecidableEq

/-- The destination, the size of the source and the size in a `CoreLayerRegionConfig`. -/
structure RegionConfig where
  dest : Place
  source : Size
  size : Size
  deriving DecidableEq

/-- A `CoreWindow`: its bounds, if `DWOP_SCALE` is set, its opaque region, the size of its surface,
the configuration of its region, the one in its `WindowData`, and if the buffer mode of the context
is `DLBM_WINDOWS`. -/
structure Window where
  bounds : Place
  scale : Bool
  opaqueRegion : OpaqueRegion
  surface : Option Size
  region : Option RegionConfig
  data : RegionConfig
  windows : Bool

/-- `dfb_surface_reconfig` succeeds, refuses, or loses the buffers after the size was changed. -/
inductive Reconfig
  | done | refused | lost
  deriving DecidableEq

def Reconfig.apply (r : Reconfig) (old new : Size) : Size := if r = .refused then old else new

/-- The fields of a `CoreWindowConfig` that the flags name, as far as they are read here. With
`scale` comes if `DWOP_SCALE` is among the options, with `keys` if there is a list. -/
structure Change where
  scale : Option Bool := none
  color : Bool := false
  opaqueRegion : Option OpaqueRegion := none
  position : Option (ℤ × ℤ) := none
  size : Option Size := none
  keys : Option Bool := none
  others : Bool := false

/-- What the calls answer: for the surface when `DWOP_SCALE` is removed and for a new size, for the
region when the window is moved and for a new size, and if there is memory for the keys. -/
structure Answers where
  descale : Reconfig
  surface : Reconfig
  moves : Bool
  resizes : Bool
  memory : Bool

/-- `window->region && window->stack->context->config.buffermode == DLBM_WINDOWS` -/
def Window.own (w : Window) : Bool := w.windows && w.region.isSome

/-- `dfb_layer_region_set_configuration`, where the region takes the configuration. -/
def Window.configure (w : Window) (data : RegionConfig) : Window :=
  {w with data := data, region := w.region.map fun _ => data}

/-- `move_window` -/
def moveWindow (w : Window) (dx dy : ℤ) (accepts : Bool) : Window × Bool :=
  if w.own then
    let dest : Place := {w.data.dest with x := w.data.dest.x+dx, y := w.data.dest.y+dy}
    if accepts then
      -- only the destination is taken
      ({w with
        data := {w.data with dest := dest}
        region := w.region.map fun r : RegionConfig => {r with dest := dest}
        bounds := {w.bounds with x := w.bounds.x+dx, y := w.bounds.y+dy}},true)
    else
      ({w with data := {w.data with dest := {dest with x := dest.x-dx, y := dest.y-dy}}},false)
  else ({w with bounds := {w.bounds with x := w.bounds.x+dx, y := w.bounds.y+dy}},true)

def Window.follows (w : Window) : Bool := w.surface.isSome && !w.scale

def Window.reconfig (w : Window) (size : Size) (r : Reconfig) : Window × Bool :=
  if w.follows then
    ({w with surface := w.surface.map fun old => r.apply old size},r = .done)
  else (w,true)

/-- The part of `resize_window` after the surface was reconfigured. -/
def applySize (w : Window) (size : Size) (accepts : Bool) : Window × Bool :=
  if w.own then
    if accepts then
      let dest := {w.data.dest with size := size}
      ({w.configure ⟨dest,size,size⟩ with bounds := {w.bounds with size := size}},true)
    else
      -- the old size again, also in the bounds
      let dest := {w.data.dest with size := w.bounds.size}
      ({w with data := ⟨dest,w.bounds.size,w.bounds.size⟩},false)
  else ({w with
    opaqueRegion := (cut w.opaqueRegion size).getD w.opaqueRegion
    bounds := {w.bounds with size := size}},true)

/-- `resize_window` -/
def resizeWindow (w : Window) (size : Size) (r : Reconfig) (accepts : Bool) : Window × Bool :=
  if limitExceeded size then (w,false)
  else
    let (w,done) := w.reconfig size r
    if done then applySize w size accepts else (w,false)

/-- `set_window_bounds` -/
def setWindowBounds (w : Window) (x y : ℤ) (size : Size) (r : Reconfig) : Window × Bool :=
  if limitExceeded size then (w,false)
  else
    let (w,done) := w.reconfig size r
    if done then ({w with
      bounds := ⟨x,y,size⟩
      opaqueRegion := (cut w.opaqueRegion size).getD (full size)},true)
    else (w,false)

/-- `flags == (CWCF_POSITION | CWCF_SIZE)` -/
def onlyBounds (c : Change) : Bool :=
  c.scale.isNone && !c.color && c.opaqueRegion.isNone && c.keys.isNone && !c.others &&
  c.position.isSome && c.size.isSome

/-- `DWOP_SCALE` is removed from a window with a surface of another size. -/
def descales (w : Window) (c : Change) : Bool :=
  w.scale && c.scale == some false && w.surface.any fun size => size ≠ w.bounds.size

def setOptions (w : Window) (c : Change) (r : Reconfig) : Window × Bool :=
  let v := if descales w c then
    {w with surface := w.surface.map fun old => r.apply old w.bounds.size} else w
  if descales w c && r ≠ .done then (v,false) else ({v with scale := c.scale.getD w.scale},true)

/-- The bounds, set at once or one after the other. -/
def setBounds (w : Window) (c : Change) (a : Answers) : Window × Bool :=
  match onlyBounds c,c.position,c.size with
  | true,some (x,y),some size => setWindowBounds w x y size a.surface
  | _,position,size =>
    let (w,moved) := match position with
      | some (x,y) => moveWindow w (x-w.bounds.x) (y-w.bounds.y) a.moves
      | none => (w,true)
    match size with
    | some size => if moved then resizeWindow w size a.surface a.resizes else (w,false)
    | none => (w,moved)

def keysFail (c : Change) (a : Answers) : Bool := c.keys == some true && !a.memory

/-- `wm_set_window_config`, and whether it answers `DFB_OK`. -/
def setWindowConfig (w : Window) (c : Change) (a : Answers) : Window × Bool :=
  let (w,ok) := setOptions w c a.descale
  if !ok then (w,false)
  else if c.color then (w,false)
  else
    let (w,ok) := setBounds {w with opaqueRegion := c.opaqueRegion.getD w.opaqueRegion} c a
    if !ok then (w,false)
    else (w,!keysFail c a)

def step (w : Window) (e : Change × Answers) : Option Window := some (setWindowConfig w e.1 e.2).1

/-- The sizes are equal: of the surface, unless it is scaled, and of the region; and the opaque
region is inside of the window. -/
structure Equal (w : Window) : Prop where
  surface : w.scale = false → ∀ size, w.surface = some size → size = w.bounds.size
  region : w.windows → ∀ r, w.region = some r → r.dest = w.bounds
  opaque_within : w.opaqueRegion.Within (full w.bounds.size).toRegion

/-- The bounds, the surface size and the configuration of the region are as they were. -/
structure Same (w v : Window) : Prop where
  bounds : v.bounds = w.bounds
  surface : v.surface = w.surface
  region : v.region = w.region

def Good (w : Window) (r : Window × Bool) : Prop := Equal r.1 ∧ (r.2 = false → Same w r.1)

/-- The configurations in the `WindowData` and of the region are those of the bounds. -/
def Synced (w : Window) : Prop := w.own →
  w.data = ⟨w.bounds,w.bounds.size,w.bounds.size⟩ ∧ w.region = some w.data

/-- `DWOP_SCALE` after the options were set. -/
def scaled (w : Window) (c : Change) : Bool := c.scale.getD w.scale

def follows (w : Window) (c : Change) : Bool := w.surface.isSome && !scaled w c

def opaqueAfter (w : Window) (c : Change) : OpaqueRegion := c.opaqueRegion.getD w.opaqueRegion

def moves (w : Window) (c : Change) : Bool := c.position.any fun p => p ≠ (w.bounds.x,w.bounds.y)

def Inside (o : OpaqueRegion) (size : Size) : Prop := o.Within (full size).toRegion

def Untouched (w : Window) (c : Change) : Prop := descales w c = false ∧ moves w c = false

def BoundsMeet (w : Window) (p : ℤ × ℤ) (size : Size) (r : Reconfig) : Prop :=
  if limitExceeded size ∨ (w.follows ∧ r = .refused) then True
  else if w.follows ∧ r = .lost then size = w.bounds.size
  else w.own → p = (w.bounds.x,w.bounds.y) ∧ size = w.bounds.size

/-- The condition where the size is set: it fails only if nothing was changed, and the opaque region
is inside of the window of the new size, to which it is only cut without a region of the window. -/
def SizeMeets (w : Window) (c : Change) (a : Answers) (size : Size) : Prop :=
  if limitExceeded size ∨ (follows w c ∧ a.surface = .refused) then
    Untouched w c ∧ Inside (opaqueAfter w c) w.bounds.size
  else if (follows w c ∧ a.surface = .lost) ∨ (w.own ∧ a.resizes = false) then
    Untouched w c ∧ Inside (opaqueAfter w c) w.bounds.size ∧ (follows w c → size = w.bounds.size)
  else (if w.own then Inside (opaqueAfter w c) size else (cut (opaqueAfter w c) size).isSome) ∧
    (keysFail c a → Untouched w c ∧ size = w.bounds.size)

/-- The condition on a call: where it fails nothing was changed before, and neither surface nor
region gets a size alone; and the opaque region is inside of the window. -/
def Meets (w : Window) (c : Change) (a : Answers) : Prop :=
  if descales w c ∧ a.descale ≠ .done then a.descale = .refused
  else if c.color then descales w c = false
  else match onlyBounds c,c.position,c.size with
    | true,some p,some size => BoundsMeet w p size a.surface
    | _,position,size =>
      if position.isSome ∧ w.own ∧ a.moves = false then
        descales w c = false ∧ Inside (opaqueAfter w c) w.bounds.size
      else match size with
        | some size => SizeMeets w c a size
        | none => Inside (opaqueAfter w c) w.bounds.size ∧ (keysFail c a → Untouched w c)

section
variable {w u : Window} {c : Change} {a : Answers} {b : Place} {k ok : Bool} {s : Option Size}
  {o : OpaqueRegion} {n : Size} {r : Reconfig}

def Window.withBounds (w : Window) (b : Place) : Window :=
  {w with
    bounds := b
    data := if w.own then ⟨b,b.size,b.size⟩ else w.data
    region := if w.own then some ⟨b,b.size,b.size⟩ else w.region}

theorem move_eq (hu : Synced u) (x y : ℤ) (accepts : Bool) :
    moveWindow u (x-u.bounds.x) (y-u.bounds.y) accepts =
      if u.own ∧ accepts = false then (u,false)
      else (u.withBounds ⟨x,y,u.bounds.size⟩,true) := by
  unfold moveWindow Window.withBounds
  cases hown : u.own with
  | false => simp
  | true =>
    obtain ⟨hdata,hregion⟩ := hu hown
    cases accepts with
    | true =>
      simp [hdata,hregion]
    | false =>
      simp [hdata]
      rw [← hdata]

def finish (c : Change) (a : Answers) (r : Window × Bool) : Window × Bool :=
  if !r.2 then (r.1,false) else (r.1,!keysFail c a)

theorem Same.refl (w : Window) : Same w w := ⟨rfl,rfl,rfl⟩

theorem Synced.congr (hu : Synced u) (hbounds : w.bounds = u.bounds) (hdata : w.data = u.data)
    (hregion : w.region = u.region) (hwindows : w.windows = u.windows) : Synced w := by
  intro hown
  rw [Window.own,hwindows,hregion] at hown
  rw [hdata,hregion,hbounds]
  exact hu hown

end

def Start (w : Window) : Prop := Equal w ∧ Synced w

/-- A window as it was created, with a surface unless it is one for input only, and a region if the
buffer mode is `DLBM_WINDOWS`. -/
def created (bounds : Place) (scale inputOnly windows : Bool) : Window where
  bounds := bounds
  scale := scale
  opaqueRegion := ⟨⟨0,0,0,0⟩,Region.zero_valid⟩
  surface := if inputOnly then none else some bounds.size
  region := if windows && !inputOnly then some ⟨bounds,bounds.size,bounds.size⟩ else none
  data := ⟨bounds,bounds.size,bounds.size⟩
  windows := windows

def small : Size := ⟨10,10,ten_pos,ten_pos⟩

end DirectFB.WindowResize
