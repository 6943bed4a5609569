import DirectFB.LayerRegion

/-! The configuration of a layer context, its primary region and the surface of the region. -/
namespace DirectFB.LayerContext
open Transition LayerConfig LayerRegion

/-- `DFBDisplayLayerConfig` -/
structure DisplayLayerConfig where
  width : ℤ
  height : ℤ
  pixelformat : ℕ
  colorspace : ℕ
  buffermode : BufferMode
  options : Options
  source : ℕ
  surfaceCaps : SurfaceCaps
  deriving DecidableEq

/-- A `DFBDisplayLayerConfig` of which only the entries in its flags count. -/
structure Update where
  width : Option ℤ := none
  height : Option ℤ := none
  pixelformat : Option ℕ := none
  colorspace : Option ℕ := none
  buffermode : Option BufferMode := none
  options : Option Options := none
  source : Option ℕ := none
  surfaceCaps : Option SurfaceCaps := none

/-- `DFBLocation`, with exact numbers. -/
structure Location where
  x : ℚ
  y : ℚ
  w : ℚ
  h : ℚ

/-- `CoreLayerLayoutMode` -/
inductive LayoutMode
  | location | center | position | rectangle
  deriving DecidableEq

structure Screen where
  location : Location
  rectangle : Rectangle
  mode : LayoutMode

/-- The layer: its capabilities, its sources and whether they have a surface, the capabilities of
its surfaces, the dimension of the screen and the driver. -/
structure Layer where
  windows : Bool
  surface : Bool
  screenSize : Bool
  sources : Option (List (ℕ × Bool))
  surfaceCaps : SurfaceCaps
  dimension : Option (ℤ × ℤ)
  funcs : DisplayLayerFuncs

/-- `CoreLayerContext`, with the pixel format that is remembered for the layer. -/
structure Context where
  config : DisplayLayerConfig
  primary : CoreLayerRegionConfig
  region : Option LayerRegion.State
  screen : Screen
  rotation : ℕ
  pixelformat : ℕ

/-- What the driver and the surfaces answer during a call: to the test of a configuration, to the
creation of a surface (which gets a number) and to its reconfiguration, where a buffer may fail
after some were made, and what happens in the functions of the region. -/
structure Outcome where
  testRegion : DirectResult := .ok
  create : DirectResult := .ok
  surfaceId : ℕ := 0
  checkUpdate : DirectResult := .ok
  buffer : DirectResult := .ok
  buffersMade : ℕ := 0
  attach : LayerRegion.Outcome := {}
  configure : LayerRegion.Outcome := {}
  enable : LayerRegion.Outcome := {}
  disable : LayerRegion.Outcome := {}

/-- `DFB_COLOR_IS_RGB`, of the index of a format. -/
def isRGB (format : ℕ) : Bool :=
  format ∈ [0,1,2,3,4,7,13,17,18,19,23,24,25,27,28,29,38]

/-- `DFB_COLOR_IS_YUV` -/
def isYUV (format : ℕ) : Bool := format ∈ [6,8,9,10,15,16,20,21,31,33,34,36]

/-- `DFB_COLORSPACE_IS_COMPATIBLE` -/
def compatible (colorspace format : ℕ) : Bool :=
  isRGB format && colorspace = 1 ||
  isYUV format && (colorspace = 2 || colorspace = 3 || colorspace = 4)

/-- `DFB_COLORSPACE_DEFAULT` -/
def defaultColorspace (format : ℕ) : ℕ := if isRGB format then 1 else if isYUV format then 2 else 0

/-- The destination for a source of a new size, as the layout of the screen has it. -/
def destination (layer : Layer) (mode : LayoutMode) (dest : Rectangle) (width height : ℤ) :
    Rectangle :=
  match mode with
  | .center =>
    match layer.dimension with
    | some (w,h) => ⟨(w-width).tdiv 2,(h-height).tdiv 2,width,height⟩
    | none => ⟨dest.x,dest.y,width,height⟩
  | .position => ⟨dest.x,dest.y,width,height⟩
  -- the origin is left alone to allow the driver to handle it
  | .location | .rectangle =>
    if layer.screenSize = false ∧ (dest.w ≠ width ∨ dest.h ≠ height) then
      ⟨dest.x,dest.y,width,height⟩
    else dest

def updatedColorspace (colorspace : ℕ) (update : Update) (format : ℕ) : ℕ :=
  match update.colorspace with
  | some c => if compatible c format then c else defaultColorspace format
  | none => if update.pixelformat.isSome then defaultColorspace format else colorspace

def Update.resizes (update : Update) : Bool := update.width.isSome || update.height.isSome

/-- The flags that `build_updated_config` answers with. -/
def Update.flags (update : Update) : ConfigFlags where
  width := update.width.isSome
  height := update.height.isSome
  source := update.resizes
  dest := update.resizes
  format := update.pixelformat.isSome
  colorspace := update.pixelformat.isSome || update.colorspace.isSome
  buffermode := update.buffermode.isSome
  options := update.options.isSome
  sourceId := update.source.isSome
  surfaceCaps := update.surfaceCaps.isSome

/-- `build_updated_config` -/
def buildUpdatedConfig (layer : Layer) (x : Context) (update : Update) : CoreLayerRegionConfig :=
  let c := x.primary
  let width := update.width.getD c.width
  let height := update.height.getD c.height
  let format := update.pixelformat.getD c.format
  {c with
    width, height, format
    source := if update.resizes then ⟨0,0,width,height⟩ else c.source
    dest := if update.resizes then destination layer x.screen.mode c.dest width height else c.dest
    colorspace := updatedColorspace c.colorspace update format
    buffermode := update.buffermode.getD c.buffermode
    options := update.options.getD c.options
    sourceId := update.source.getD c.sourceId
    surfaceCaps := update.surfaceCaps.getD c.surfaceCaps}

/-- The entries of the layer's configuration that were modified are written back. -/
def DisplayLayerConfig.writeBack (c : DisplayLayerConfig) (update : Update) :
    DisplayLayerConfig where
  width := update.width.getD c.width
  height := update.height.getD c.height
  pixelformat := update.pixelformat.getD c.pixelformat
  colorspace := update.colorspace.getD c.colorspace
  buffermode := update.buffermode.getD c.buffermode
  options := update.options.getD c.options
  source := update.source.getD c.source
  surfaceCaps := update.surfaceCaps.getD c.surfaceCaps

def Layer.hasSurface (layer : Layer) (sourceId : ℕ) : Bool :=
  match layer.sources with
  | some sources => (sources.lookup sourceId).getD false
  | none => layer.surface

/-- The capabilities for flipping in a buffer mode, those of the options and those that are
taken from the configuration, added to some. -/
def surfaceCaps (caps : SurfaceCaps) (c : CoreLayerRegionConfig) (rotation : ℕ) : SurfaceCaps where
  double := caps.double || c.buffermode = .backVideo || c.buffermode = .backSystem
  triple := caps.triple || c.buffermode = .triple
  interlaced := caps.interlaced || c.options.deinterlacing || c.surfaceCaps.interlaced
  separated := caps.separated || c.surfaceCaps.separated
  premultiplied := caps.premultiplied || c.surfaceCaps.premultiplied
  rotated := caps.rotated || rotation = 90 || rotation = 270
  stereo := caps.stereo || c.options.stereo

def SurfaceCaps.numBuffers (caps : SurfaceCaps) : ℕ :=
  if caps.triple then 3 else if caps.double then 2 else 1

/-- A surface of a configuration. `DSCAPS_ROTATED` is not kept for it, so that it only can be
turned by half. -/
def configured (id : ℕ) (caps : SurfaceCaps) (c : CoreLayerRegionConfig) (rotation : ℕ) :
    LayerRegion.CoreSurface where
  id := id
  w := c.width
  h := c.height
  format := c.format
  colorspace := c.colorspace
  numBuffers := SurfaceCaps.numBuffers caps
  rotation := if rotation = 180 then 180 else 0
  stereo := caps.stereo

def incomplete (s : LayerRegion.CoreSurface) (rotation numBuffers : ℕ) : LayerRegion.CoreSurface :=
  {s with rotation, numBuffers}

def putSurface (y : LayerRegion.State) (surface : Option LayerRegion.CoreSurface) : LayerRegion.State :=
  {y with region := {y.region with surface}}

/-- `CLRSF_CONFIGURED` -/
def putConfigured (y : LayerRegion.State) (configured : Bool) : LayerRegion.State :=
  {y with region := {y.region with configured}}

/-- `dfb_layer_context_allocate_surface`, where the driver has no function of its own for it. -/
def allocateSurface (layer : Layer) (x : Context) (y : LayerRegion.State)
    (c : CoreLayerRegionConfig) (o : Outcome) : LayerRegion.State × DirectResult :=
  if o.create ≠ .ok then (y,o.create)
  else
    let caps := surfaceCaps layer.surfaceCaps c x.rotation
    y.setSurface (configured o.surfaceId caps c x.rotation) o.attach

/-- `dfb_layer_context_reallocate_surface`, where the driver has no function of its own for it. -/
def reallocateSurface (x : Context) (y : LayerRegion.State) (s : LayerRegion.CoreSurface)
    (c : CoreLayerRegionConfig) (o : Outcome) : LayerRegion.State × DirectResult :=
  if c.buffermode = .unknown then (y,.bug)
  -- the surface stays locked then
  else if o.checkUpdate ≠ .ok then (y.lockSurface s,o.checkUpdate)
  else
    let s' := configured s.id (surfaceCaps {} c x.rotation) c x.rotation
    if o.buffer ≠ .ok then
      (putSurface y (some (incomplete s' s.rotation o.buffersMade)),o.buffer)
    else (putSurface y (some s'),.ok)

def provideSurface (layer : Layer) (x : Context) (y : LayerRegion.State)
    (c : CoreLayerRegionConfig) (o : Outcome) : LayerRegion.State × DirectResult :=
  if layer.hasSurface c.sourceId then
    match y.region.surface with
    | some s => reallocateSurface x y s c o
    | none => allocateSurface layer x y c o
  else (putSurface y none,.ok)

def configureRegion (layer : Layer) (y : LayerRegion.State) (c : CoreLayerRegionConfig)
    (flags : ConfigFlags) (o : Outcome) : LayerRegion.State :=
  let surface := layer.hasSurface c.sourceId
  let z := (y.setConfiguration c {flags with surface := surface, palette := surface, freeze := true}
    o.configure).1
  if z.region.enabled then z else (z.enable layer.funcs o.enable).1

/-- What `dfb_layer_context_set_configuration` does with the region in a mode with buffers. -/
def setNormal (layer : Layer) (x : Context) (y : LayerRegion.State) (c : CoreLayerRegionConfig)
    (flags : ConfigFlags) (o : Outcome) : LayerRegion.State × DirectResult :=
  let y' := y.lockRegion
  let r := provideSurface layer x (putConfigured y' false) c o
  if r.2 ≠ .ok then (r.1.unlockRegion,r.2)
  else
    let z := putConfigured r.1 (r.1.region.configured || y'.region.configured)
    ((configureRegion layer z c flags o).unlockRegion,.ok)

def setWindows (y : LayerRegion.State) (o : Outcome) : LayerRegion.State :=
  let y' := y.lockRegion
  let z := if y'.region.enabled then putSurface (y'.disable o.disable).1 none else y'
  z.unlockRegion

namespace Context

def putRegion (x : Context) (y : LayerRegion.State) : Context := {x with region := some y}

def putPrimary (x : Context) (c : CoreLayerRegionConfig) : Context := {x with primary := c}

def putScreen (x : Context) (screen : Screen) : Context := {x with screen}

def remember (x : Context) (c : CoreLayerRegionConfig) (update : Update) : Context :=
  {x with primary := c, pixelformat := c.format, config := x.config.writeBack update}

end Context

/-- `dfb_layer_context_set_configuration` -/
def setConfiguration (layer : Layer) (x : Context) (update : Update) (o : Outcome) :
    Context × DirectResult :=
  let c := buildUpdatedConfig layer x update
  if c.buffermode = .windows then
    if layer.windows = false then (x,.unsupported)
    else
      match x.region with
      | none => (x.remember c update,.ok)
      | some y => ((x.putRegion (setWindows y o)).remember c update,.ok)
  else if o.testRegion ≠ .ok then (x,o.testRegion)
  else
    match x.region with
    | none => (x.remember c update,.ok)
    | some y =>
      let r := setNormal layer x y c update.flags o
      if r.2 ≠ .ok then (x.putRegion r.1,r.2) else ((x.putRegion r.1).remember c update,.ok)

/-- `update_primary_region_config` -/
def updatePrimaryRegionConfig (x : Context) (c : CoreLayerRegionConfig) (flags : ConfigFlags)
    (o : Outcome) : Context × DirectResult :=
  match x.region with
  | none => if o.testRegion ≠ .ok then (x,o.testRegion) else (x.putPrimary c,.ok)
  | some y =>
    let r := y.setConfiguration c {flags with freeze := true} o.configure
    if r.2 ≠ .ok then (x.putRegion r.1,r.2) else ((x.putRegion r.1).putPrimary c,.ok)

def ColorKey.changed (key : ColorKey) (r g b : Fin 256) (index : ℤ) : ColorKey :=
  ⟨r,g,b,if 0 ≤ index then Fin.ofNat 256 index.toNat else key.index⟩

/-- `dfb_layer_context_set_src_colorkey` -/
def setSrcColorkey (x : Context) (r g b : Fin 256) (index : ℤ) (o : Outcome) :
    Context × DirectResult :=
  updatePrimaryRegionConfig x
    {x.primary with srcKey := ColorKey.changed x.primary.srcKey r g b index} {srcKey := true} o

/-- `dfb_layer_context_set_dst_colorkey` -/
def setDstColorkey (x : Context) (r g b : Fin 256) (index : ℤ) (o : Outcome) :
    Context × DirectResult :=
  updatePrimaryRegionConfig x
    {x.primary with dstKey := ColorKey.changed x.primary.dstKey r g b index} {dstKey := true} o

/-- `dfb_layer_context_set_sourcerectangle` -/
def setSourcerectangle (layer : Layer) (x : Context) (source : Rectangle) (o : Outcome) :
    Context × DirectResult :=
  let c := x.primary
  if c.source = source then (x,.ok)
  else if source.x < 0 ∨ source.y < 0 ∨ c.width < source.x+source.w ∨ c.height < source.y+source.h
    then (x,.invArea)
  else if layer.screenSize = false ∧ (c.dest.w ≠ source.w ∨ c.dest.h ≠ source.h) then
    updatePrimaryRegionConfig x {c with source, dest := ⟨c.dest.x,c.dest.y,source.w,source.h⟩}
      {source := true, dest := true} o
  else updatePrimaryRegionConfig x {c with source} {source := true} o

def scale (q : ℚ) (n : ℤ) : ℤ := (q*n).num.tdiv (q*n).den

/-- `screen_rectangle` -/
def screenRectangle (layer : Layer) (location : Location) : Rectangle :=
  let d := layer.dimension.getD (720,576)
  ⟨scale location.x d.1,scale location.y d.2,scale location.w d.1,scale location.h d.2⟩

def setDest (x : Context) (dest : Rectangle) (screen : Screen) (o : Outcome) :
    Context × DirectResult :=
  let r := updatePrimaryRegionConfig x {x.primary with dest} {dest := true} o
  if r.2 = .ok then (r.1.putScreen screen,.ok) else r

/-- `dfb_layer_context_set_screenlocation` -/
def setScreenlocation (layer : Layer) (x : Context) (location : Location) (o : Outcome) :
    Context × DirectResult :=
  let dest := screenRectangle layer location
  setDest x dest ⟨location,dest,.location⟩ o

/-- `dfb_layer_context_set_screenrectangle` -/
def setScreenrectangle (x : Context) (rectangle : Rectangle) (o : Outcome) :
    Context × DirectResult :=
  setDest x rectangle ⟨x.screen.location,rectangle,.rectangle⟩ o

/-- `dfb_layer_context_set_screenposition` -/
def setScreenposition (x : Context) (px py : ℤ) (o : Outcome) : Context × DirectResult :=
  let c := x.primary
  if c.dest.x = px ∧ c.dest.y = py then (x,.ok)
  else
    let dest : Rectangle := ⟨px,py,c.dest.w,c.dest.h⟩
    setDest x dest ⟨x.screen.location,dest,.position⟩ o

/-- `dfb_layer_context_set_opacity` -/
def setOpacity (x : Context) (opacity : Fin 256) (o : Outcome) : Context × DirectResult :=
  if x.primary.opacity = opacity then (x,.ok)
  else updatePrimaryRegionConfig x {x.primary with opacity} {opacity := true} o

/-- `dfb_layer_context_set_field_parity` -/
def setFieldParity (x : Context) (field : ℤ) (o : Outcome) : Context × DirectResult :=
  if x.primary.parity = field then (x,.ok)
  else updatePrimaryRegionConfig x {x.primary with parity := field} {parity := true} o

/-- `dfb_layer_context_set_clip_regions` -/
def setClipRegions (x : Context) (clips : Clips) (o : Outcome) : Context × DirectResult :=
  updatePrimaryRegionConfig x {x.primary with clips} {clips := true} o

inductive Call
  | setConfiguration (update : Update)
  | setSrcColorkey (r g b : Fin 256) (index : ℤ)
  | setDstColorkey (r g b : Fin 256) (index : ℤ)
  | setSourcerectangle (source : Rectangle)
  | setScreenlocation (location : Location)
  | setScreenrectangle (rectangle : Rectangle)
  | setScreenposition (x y : ℤ)
  | setOpacity (opacity : Fin 256)
  | setFieldParity (field : ℤ)
  | setClipRegions (clips : Clips)

def perform (layer : Layer) (x : Context) (o : Outcome) : Call → Context × DirectResult
  | .setConfiguration update => setConfiguration layer x update o
  | .setSrcColorkey r g b index => setSrcColorkey x r g b index o
  | .setDstColorkey r g b index => setDstColorkey x r g b index o
  | .setSourcerectangle source => setSourcerectangle layer x source o
  | .setScreenlocation location => setScreenlocation layer x location o
  | .setScreenrectangle rectangle => setScreenrectangle x rectangle o
  | .setScreenposition px py => setScreenposition x px py o
  | .setOpacity opacity => setOpacity x opacity o
  | .setFieldParity field => setFieldParity x field o
  | .setClipRegions clips => setClipRegions x clips o

def Call.asserted (layer : Layer) (x : Context) : Call → Bool
  | .setConfiguration update =>
    let c := buildUpdatedConfig layer x update
    c.buffermode = .windows || match layer.sources with
      | some sources => sources.any (·.1 = c.sourceId)
      | none => true
  | _ => x.primary.buffermode ≠ .windows

def step (layer : Layer) (x : Context) (e : Call × Outcome) : Option Context :=
  if e.1.asserted layer x then some (perform layer x e.2 e.1).1 else none

def Created (x : Context) : Prop :=
  ∀ y, x.region = some y → y.region.config = x.primary ∧ y.region.configured = true ∧
    y.region.enabled = false ∧ y.region.surface = none

def modeBuffers : BufferMode → ℕ
  | .triple => 3
  | .backVideo | .backSystem => 2
  | .frontOnly | .unknown | .windows => 1

structure Matches (s : LayerRegion.CoreSurface) (c : CoreLayerRegionConfig) : Prop where
  w : s.w = c.width
  h : s.h = c.height
  format : s.format = c.format
  numBuffers : s.numBuffers = modeBuffers c.buffermode

/-- A region has the configuration of the context, and a surface for it where there is one. -/
structure InStep (layer : Layer) (y : LayerRegion.State) (c : CoreLayerRegionConfig) : Prop where
  config : y.region.config = c
  surface : ∀ s, y.region.surface = some s → Matches s c
  enabled : y.region.enabled = true → y.region.surface.isSome = layer.hasSurface c.sourceId

def Agrees (layer : Layer) (x : Context) : Prop :=
  x.primary.buffermode ≠ .windows → ∀ y, x.region = some y → InStep layer y x.primary

structure Unchanged (x x' : Context) : Prop where
  config : x'.config = x.config
  primary : x'.primary = x.primary
  region : x'.region.map (fun y => (y.region.config,y.region.configured,y.region.enabled)) =
    x.region.map (fun y => (y.region.config,y.region.configured,y.region.enabled))

/-- No step of the (re)allocation of the surface fails, and the layer asks for no buffers that the
mode does not have. -/
def Provided (layer : Layer) (x : Context) (y : LayerRegion.State) (c : CoreLayerRegionConfig)
    (o : Outcome) : Prop :=
  match y.region.surface with
  | some _ => c.buffermode ≠ .unknown ∧ o.checkUpdate = .ok ∧ o.buffer = .ok
  | none =>
    let caps := surfaceCaps layer.surfaceCaps c x.rotation
    o.create = .ok ∧
    (y.region.realized = true → y.region.frozen = false →
      Locked (configured o.surfaceId caps c x.rotation) o.attach.setLeft o.attach.setRight ∧
        o.attach.setRegion = .ok) ∧
    (layer.surfaceCaps.triple = true → c.buffermode = .triple) ∧
    (layer.surfaceCaps.double = true →
      c.buffermode = .backVideo ∨ c.buffermode = .backSystem ∨ c.buffermode = .triple)

/-- Where a region is set to a configuration that the driver has accepted: it is accepted by the
driver once more, the surface is provided, and after the mode of windows nothing but what the call
changes is other in the region than in the context. -/
def Kept (layer : Layer) (x : Context) (e : Call × Outcome) : Prop :=
  match e.1 with
  | .setConfiguration update =>
    let c := buildUpdatedConfig layer x update
    c.buffermode ≠ .windows → e.2.testRegion = .ok → ∀ y, x.region = some y →
      e.2.configure.testRegion = .ok ∧
      (layer.hasSurface c.sourceId = true → Provided layer x y c e.2) ∧
      (x.primary.buffermode = .windows → y.region.config.updated x.primary update.flags = x.primary)
  | _ => True

theorem pick_getD {α : Type} (a : Option α) (d : α) :
    (if a.isSome then a.getD d else d) = a.getD d := by
  cases a <;> rfl

theorem pick_again {α : Type} (b : Bool) (a d : α) :
    (if b then (if b then a else d) else d) = if b then a else d := by
  cases b <;> rfl

theorem buildUpdatedConfig_updated (layer : Layer) (x : Context) (update : Update) :
    x.primary.updated (buildUpdatedConfig layer x update) update.flags =
      buildUpdatedConfig layer x update := by
  have hall : update.flags ≠ ConfigFlags.all := fun h => by
    cases congrArg ConfigFlags.alphaRamp h
  have hcolorspace : ∀ c f, (if (update.pixelformat.isSome || update.colorspace.isSome) = true then
      updatedColorspace c update f else c) = updatedColorspace c update f := by
    intro c f
    unfold updatedColorspace
    cases update.colorspace <;> cases update.pixelformat <;> rfl
  unfold CoreLayerRegionConfig.updated
  rw [if_neg hall]
  exact CoreLayerRegionConfig.ext (pick_getD _ _) (pick_getD _ _) (pick_getD _ _) (hcolorspace _ _)
    (pick_getD _ _) (pick_getD _ _) (pick_getD _ _) (pick_getD _ _) (pick_again _ _ _)
    (pick_again _ _ _) rfl rfl rfl rfl rfl rfl rfl

theorem numBuffers_surfaceCaps {caps : SurfaceCaps} {c : CoreLayerRegionConfig} (rotation : ℕ)
    (htriple : caps.triple = true → c.buffermode = .triple)
    (hdouble : caps.double = true →
      c.buffermode = .backVideo ∨ c.buffermode = .backSystem ∨ c.buffermode = .triple) :
    SurfaceCaps.numBuffers (surfaceCaps caps c rotation) = modeBuffers c.buffermode := by
  unfold SurfaceCaps.numBuffers surfaceCaps
  dsimp only
  generalize caps.triple = triple at htriple ⊢
  generalize caps.double = double at hdouble ⊢
  generalize c.buffermode = mode at htriple hdouble ⊢
  cases mode <;> cases triple <;> cases double <;> first | rfl | cases htriple rfl | simp at hdouble

theorem configured_matches (id : ℕ) {caps : SurfaceCaps} {c : CoreLayerRegionConfig} (rotation : ℕ)
    (htriple : caps.triple = true → c.buffermode = .triple)
    (hdouble : caps.double = true →
      c.buffermode = .backVideo ∨ c.buffermode = .backSystem ∨ c.buffermode = .triple) :
    Matches (configured id (surfaceCaps caps c rotation) c rotation) c :=
  ⟨rfl,rfl,rfl,numBuffers_surfaceCaps rotation htriple hdouble⟩

def taken (r : CoreLayerRegion) (config : CoreLayerRegionConfig) : CoreLayerRegion :=
  {r with config, configured := true, frozen := true}

section Region
variable {y : LayerRegion.State} {c : CoreLayerRegionConfig}

/-- Freezing, the region takes a configuration as soon as the driver accepts it. -/
theorem setConfiguration_freeze (y : LayerRegion.State) (c : CoreLayerRegionConfig)
    (flags : ConfigFlags) (o : LayerRegion.Outcome) (hfreeze : flags.freeze = true)
    (htest : o.testRegion = .ok) :
    (y.setConfiguration c flags o).2 = .ok ∧
      (y.setConfiguration c flags o).1.region = taken y.region (y.region.config.updated c flags) := by
  unfold State.setConfiguration
  dsimp only
  rw [if_neg (not_not_intro htest),if_pos hfreeze,
    if_neg (show ¬ ((y.lockRegion.setFrozen true).region.realized = true ∧
      (y.lockRegion.setFrozen true).region.frozen = false) from fun h => by cases h.2),
    if_neg (not_not_intro rfl)]
  exact ⟨rfl,rfl⟩

theorem setConfiguration_refused (y : LayerRegion.State) (c : CoreLayerRegionConfig)
    (flags : ConfigFlags) (o : LayerRegion.Outcome) (htest : o.testRegion ≠ .ok) :
    y.setConfiguration c flags o = (y,o.testRegion) := by
  unfold State.setConfiguration
  dsimp only
  rw [if_pos htest]
  rfl

theorem enable_frozen (funcs : DisplayLayerFuncs) (o : LayerRegion.Outcome)
    (hfrozen : y.region.frozen = true) (henabled : y.region.enabled = false) :
    (y.enable funcs o).1.region = (y.setEnabled true).region := by
  have hrealize : y.lockRegion.realize funcs o = (y.lockRegion,.ok) := if_pos hfrozen
  unfold State.enable
  dsimp only
  rw [if_neg (show ¬ y.lockRegion.region.enabled = true by
    rw [show y.lockRegion.region.enabled = false from henabled]
    exact Bool.false_ne_true),hrealize,ite_self,if_neg (not_not_intro rfl)]
  rfl

/-- The first surface of a region is taken, by the driver as well where the region is shown. -/
theorem setSurface_first {s : LayerRegion.CoreSurface} {o : LayerRegion.Outcome}
    (hnone : y.region.surface = none)
    (hset : y.region.realized = true → y.region.frozen = false →
      Locked s o.setLeft o.setRight ∧ o.setRegion = .ok) :
    (y.setSurface s o).2 = .ok ∧ (y.setSurface s o).1.region = (putSurface y (some s)).region := by
  have hother : ¬ y.lockRegion.region.surface = some s := fun h => by cases hnone.symm.trans h
  unfold State.setSurface
  dsimp only
  rw [if_neg hother]
  by_cases hrealized : y.region.realized = true
  · rw [if_pos (show y.lockRegion.region.realized = true from hrealized)]
    by_cases hfrozen : y.region.frozen = true
    · have hkeep : y.lockRegion.regionSet y.lockRegion.region.config
          {surface := true, palette := true} (some s) o = (y.lockRegion,.ok) := if_pos hfrozen
      rw [hkeep,if_neg (not_not_intro rfl)]
      exact ⟨rfl,rfl⟩
    · obtain ⟨hlocked,hdriver⟩ := hset hrealized (Bool.eq_false_of_not_eq_true hfrozen)
      have hcases := State.regionSet_cases y.lockRegion y.lockRegion.region.config
        {surface := true, palette := true} (some s) o
        fun s' hs => (by rw [← Option.some.inj hs]; exact fun hstereo _ => hlocked.2 hstereo)
      generalize y.lockRegion.regionSet y.lockRegion.region.config
        {surface := true, palette := true} (some s) o = r at hcases
      obtain ⟨hret,-,hr⟩ | ⟨hret,-,hr⟩ | ⟨-,-,hfail⟩ := hcases
      · rw [if_neg (not_not_intro hret),hr]
        exact ⟨rfl,rfl⟩
      · rw [if_neg (not_not_intro hret),hr]
        exact ⟨rfl,rfl⟩
      · refine absurd ⟨fun s' hs => ?_,hdriver⟩ hfail
        rwa [← Option.some.inj hs]
  · rw [if_neg (show ¬ y.lockRegion.region.realized = true from hrealized),
      if_neg (not_not_intro rfl)]
    exact ⟨rfl,rfl⟩

end Region

section Configuration
variable {layer : Layer} {x : Context} {y : LayerRegion.State} {c : CoreLayerRegionConfig}
  {o : Outcome}

theorem provideSurface_spec
    (hprovided : layer.hasSurface c.sourceId = true → Provided layer x y c o) :
    (provideSurface layer x y c o).2 = .ok ∧
      (provideSurface layer x y c o).1.region.config = y.region.config ∧
      (∀ s, (provideSurface layer x y c o).1.region.surface = some s → Matches s c) ∧
      (provideSurface layer x y c o).1.region.surface.isSome = layer.hasSurface c.sourceId := by
  unfold provideSurface
  by_cases hsurface : layer.hasSurface c.sourceId = true
  · rw [if_pos hsurface,hsurface]
    have h := hprovided hsurface
    unfold Provided at h
    cases hy : y.region.surface with
    | some s =>
      rw [hy] at h
      obtain ⟨hmode,hcheck,hbuffer⟩ := h
      dsimp only
      unfold reallocateSurface
      dsimp only
      rw [if_neg hmode,if_neg (not_not_intro hcheck),if_neg (not_not_intro hbuffer)]
      refine ⟨rfl,rfl,fun s' hs => ?_,rfl⟩
      rw [← Option.some.inj hs]
      exact configured_matches _ _ (fun h => by cases h) (fun h => by cases h)
    | none =>
      rw [hy] at h
      obtain ⟨hcreate,hset,htriple,hdouble⟩ := h
      dsimp only
      unfold allocateSurface
      dsimp only
      rw [if_neg (not_not_intro hcreate)]
      obtain ⟨hret,hregion⟩ := setSurface_first hy hset
      rw [hregion]
      refine ⟨hret,rfl,fun s' hs => ?_,rfl⟩
      rw [← Option.some.inj hs]
      exact configured_matches _ _ htriple hdouble
  · rw [if_neg hsurface,Bool.eq_false_of_not_eq_true hsurface]
    refine ⟨rfl,rfl,fun s hs => ?_,rfl⟩
    cases hs

theorem configureRegion_region (flags : ConfigFlags) (hramp : flags.alphaRamp = false)
    (htest : o.configure.testRegion = .ok) :
    (configureRegion layer y c flags o).region.config = y.region.config.updated c flags ∧
      (configureRegion layer y c flags o).region.surface = y.region.surface := by
  unfold configureRegion
  dsimp only
  obtain ⟨-,hregion⟩ := setConfiguration_freeze y c {flags with
    surface := layer.hasSurface c.sourceId, palette := layer.hasSurface c.sourceId,
    freeze := true} o.configure rfl htest
  rw [CoreLayerRegionConfig.updated_freeze _ _ _ _ hramp] at hregion
  generalize (y.setConfiguration c _ o.configure).1 = z at hregion ⊢
  split_ifs with henabled
  · rw [hregion]
    exact ⟨rfl,rfl⟩
  · have hfrozen : z.region.frozen = true := by rw [hregion]; rfl
    rw [enable_frozen layer.funcs o.enable hfrozen (Bool.eq_false_of_not_eq_true henabled)]
    change z.region.config = _ ∧ z.region.surface = _
    rw [hregion]
    exact ⟨rfl,rfl⟩

theorem setNormal_spec {flags : ConfigFlags} (hramp : flags.alphaRamp = false)
    (hprovided : layer.hasSurface c.sourceId = true → Provided layer x y c o)
    (htest : o.configure.testRegion = .ok) (hupdated : y.region.config.updated c flags = c) :
    (setNormal layer x y c flags o).2 = .ok ∧ InStep layer (setNormal layer x y c flags o).1 c := by
  unfold setNormal
  dsimp only
  have hspec := provideSurface_spec (y := putConfigured y.lockRegion false) hprovided
  generalize provideSurface layer x (putConfigured y.lockRegion false) c o = r at hspec ⊢
  obtain ⟨hret,hconfig,hmatches,hsome⟩ := hspec
  rw [if_neg (not_not_intro hret)]
  obtain ⟨hc,hs⟩ := @configureRegion_region layer
    (putConfigured r.1 (r.1.region.configured || y.lockRegion.region.configured)) c o flags hramp htest
  refine ⟨rfl,?_,fun s h => hmatches s ?_,fun _ => ?_⟩
  · exact hc.trans ((congrArg (fun d => d.updated c flags) hconfig).trans hupdated)
  · exact hs.symm.trans h
  · exact (congrArg Option.isSome hs).trans hsome

def Sound (layer : Layer) (x : Context) (r : Context × DirectResult) : Prop :=
  Agrees layer r.1 ∧ (r.2 ≠ .ok → Unchanged x r.1)

theorem Unchanged.refl (x : Context) : Unchanged x x := ⟨rfl,rfl,rfl⟩

theorem sound_same (h : Agrees layer x) (ret : DirectResult) : Sound layer x (x,ret) :=
  ⟨h,fun _ => .refl x⟩

theorem setConfiguration_sound (h : Agrees layer x) {update : Update}
    (hkept : Kept layer x (.setConfiguration update,o)) :
    Sound layer x (setConfiguration layer x update o) := by
  have hbuild := buildUpdatedConfig_updated layer x update
  unfold Kept at hkept
  dsimp only at hkept
  unfold setConfiguration
  dsimp only
  generalize buildUpdatedConfig layer x update = c at hbuild hkept ⊢
  by_cases hwindows : c.buffermode = .windows
  · rw [if_pos hwindows]
    by_cases hcap : layer.windows = false
    · rw [if_pos hcap]
      exact sound_same h _
    · rw [if_neg hcap]
      cases x.region <;> exact ⟨fun hmode => absurd hwindows hmode,fun hret => absurd rfl hret⟩
  · rw [if_neg hwindows]
    by_cases htest : o.testRegion ≠ .ok
    · rw [if_pos htest]
      exact sound_same h _
    rw [if_neg htest]
    cases hregion : x.region with
    | none =>
      refine ⟨fun _ y hy => ?_,fun hret => absurd rfl hret⟩
      cases hregion.symm.trans hy
    | some y =>
      obtain ⟨htest',hprovided,hleft⟩ := hkept hwindows (not_not.mp htest) y hregion
      have hcurrent : y.region.config.updated x.primary update.flags = x.primary := by
        by_cases hmode : x.primary.buffermode = .windows
        · exact hleft hmode
        · rw [(h hmode y hregion).config]
          exact CoreLayerRegionConfig.updated_self _ _
      obtain ⟨hret,hstep⟩ := @setNormal_spec layer x _ _ _ _ rfl hprovided htest'
        (CoreLayerRegionConfig.updated_trans hcurrent hbuild)
      dsimp only
      rw [if_neg (not_not_intro hret)]
      refine ⟨fun _ z hz => ?_,fun hret => absurd rfl hret⟩
      rw [← Option.some.inj hz]
      exact hstep

/-- A configuration of the same size, format, source and mode, of which the flags say the rest. -/
theorem updatePrimary_sound (h : Agrees layer x) {f : ConfigFlags}
    (hmode : x.primary.buffermode ≠ .windows) (hramp : f.alphaRamp = false)
    (hupdated : x.primary.updated c f = c) (hmatches : ∀ s, Matches s x.primary → Matches s c)
    (hsource : c.sourceId = x.primary.sourceId) :
    Sound layer x (updatePrimaryRegionConfig x c f o) := by
  unfold updatePrimaryRegionConfig
  cases hregion : x.region with
  | none =>
    dsimp only
    split_ifs with htest
    · exact sound_same h _
    · refine ⟨fun _ y hy => ?_,fun hret => absurd rfl hret⟩
      cases hregion.symm.trans hy
  | some y =>
    obtain ⟨hconfig,hsurface,henabled⟩ := h hmode y hregion
    dsimp only
    by_cases htest : o.configure.testRegion = .ok
    · have hfrozen := CoreLayerRegionConfig.updated_freeze y.region.config c f.surface
        f.palette hramp
      obtain ⟨hret,hr⟩ := setConfiguration_freeze y c {f with freeze := true} o.configure rfl htest
      rw [hfrozen,hconfig,hupdated] at hr
      generalize y.setConfiguration c {f with freeze := true} o.configure = r at hret hr
      rw [if_neg (not_not_intro hret)]
      refine ⟨fun _ z hz => ?_,fun hret => absurd rfl hret⟩
      rw [← Option.some.inj hz]
      have hsame : r.1.region.surface = y.region.surface := by rw [hr]; rfl
      refine ⟨congrArg CoreLayerRegion.config hr,fun s hs => hmatches s ?_,fun hz => ?_⟩
      · exact hsurface s (hsame.symm.trans hs)
      · have hon : y.region.enabled = true := by
          change r.1.region.enabled = true at hz
          rwa [hr] at hz
        exact (congrArg Option.isSome hsame).trans
          ((henabled hon).trans (congrArg layer.hasSurface hsource.symm))
    · rw [setConfiguration_refused y c _ o.configure htest,if_pos htest]
      have hsame : x.putRegion y = x := by
        unfold Context.putRegion
        rw [← hregion]
      rw [hsame]
      exact sound_same h _

theorem setDest_sound (h : Agrees layer x) (hmode : x.primary.buffermode ≠ .windows)
    (dest : Rectangle) (screen : Screen) : Sound layer x (setDest x dest screen o) := by
  have hsound := updatePrimary_sound (c := {x.primary with dest}) (o := o) h
    (f := {dest := true}) hmode rfl rfl (fun s hs => ⟨hs.w,hs.h,hs.format,hs.numBuffers⟩) rfl
  unfold setDest
  generalize updatePrimaryRegionConfig x {x.primary with dest} {dest := true} o = r at hsound ⊢
  dsimp only
  split_ifs with hret
  · exact ⟨hsound.1,fun hret => absurd rfl hret⟩
  · exact hsound

theorem setSourcerectangle_sound (h : Agrees layer x) (hmode : x.primary.buffermode ≠ .windows)
    (source : Rectangle) : Sound layer x (setSourcerectangle layer x source o) := by
  unfold setSourcerectangle
  dsimp only
  split_ifs with hsame hvalid hfit
  · exact sound_same h _
  · exact sound_same h _
  · exact updatePrimary_sound h hmode rfl rfl (fun s hs => ⟨hs.w,hs.h,hs.format,hs.numBuffers⟩) rfl
  · exact updatePrimary_sound h hmode rfl rfl (fun s hs => ⟨hs.w,hs.h,hs.format,hs.numBuffers⟩) rfl

theorem perform_sound (h : Agrees layer x) {call : Call} (hkept : Kept layer x (call,o))
    (hasserted : call.asserted layer x = true) : Sound layer x (perform layer x o call) := by
  have hsize : ∀ c : CoreLayerRegionConfig, c.width = x.primary.width →
      c.height = x.primary.height → c.format = x.primary.format →
      c.buffermode = x.primary.buffermode → ∀ s, Matches s x.primary → Matches s c :=
    fun c hw hh hf hb s hs => ⟨hs.w.trans hw.symm,hs.h.trans hh.symm,hs.format.trans hf.symm,
      hs.numBuffers.trans (congrArg modeBuffers hb.symm)⟩
  cases call with
  | setConfiguration update => exact setConfiguration_sound h hkept
  | setSrcColorkey r g b index =>
    exact updatePrimary_sound h (of_decide_eq_true hasserted) rfl rfl (hsize _ rfl rfl rfl rfl) rfl
  | setDstColorkey r g b index =>
    exact updatePrimary_sound h (of_decide_eq_true hasserted) rfl rfl (hsize _ rfl rfl rfl rfl) rfl
  | setSourcerectangle source =>
    exact setSourcerectangle_sound h (of_decide_eq_true hasserted) source
  | setScreenlocation location => exact setDest_sound h (of_decide_eq_true hasserted) _ _
  | setScreenrectangle rectangle => exact setDest_sound h (of_decide_eq_true hasserted) _ _
  | setScreenposition px py =>
    unfold perform setScreenposition
    dsimp only
    split_ifs
    · exact sound_same h _
    · exact setDest_sound h (of_decide_eq_true hasserted) _ _
  | setOpacity opacity =>
    unfold perform setOpacity
    dsimp only
    split_ifs
    · exact sound_same h _
    · exact updatePrimary_sound h (of_decide_eq_true hasserted) rfl rfl (hsize _ rfl rfl rfl rfl) rfl
  | setFieldParity field =>
    unfold perform setFieldParity
    dsimp only
    split_ifs
    · exact sound_same h _
    · exact updatePrimary_sound h (of_decide_eq_true hasserted) rfl rfl (hsize _ rfl rfl rfl rfl) rfl
  | setClipRegions clips =>
    exact updatePrimary_sound h (of_decide_eq_true hasserted) rfl rfl (hsize _ rfl rfl rfl rfl) rfl

end Configuration

/-- In all runs that meet `Kept` the region and its surface agree with the context outside the mode
of windows, and a call that fails changes nothing of the configurations and the state. -/
theorem context_agrees {layer : Layer} {x : Context}
    (h : Reaches (step layer) (Kept layer) Created x) :
    Agrees layer x ∧ ∀ call o, Kept layer x (call,o) → call.asserted layer x = true →
      (perform layer x o call).2 ≠ .ok → Unchanged x (perform layer x o call).1 := by
  have hagrees : Agrees layer x := by
    refine h.invariant (Agrees layer) (fun x hx _ y hy => ?_) fun x e x' hx hkept hs => ?_
    · obtain ⟨hconfig,-,henabled,hsurface⟩ := hx y hy
      refine ⟨hconfig,fun s hs => ?_,fun hon => ?_⟩
      · cases hsurface.symm.trans hs
      · cases henabled.symm.trans hon
    · unfold step at hs
      split_ifs at hs with hasserted
      obtain rfl := Option.some.inj hs
      exact (perform_sound hx hkept hasserted).1
  exact ⟨hagrees,fun call o hkept hasserted => (perform_sound hagrees hkept hasserted).2⟩

def smallLayer : Layer := ⟨true,true,true,none,{},none,⟨true,true⟩⟩

def newContext : Context :=
  ⟨⟨8,8,0,0,.frontOnly,{},0,{}⟩,smallConfig,some newRegion, ⟨⟨0,0,1,1⟩,⟨0,0,8,8⟩,.location⟩,0,0⟩

theorem newContext_created : Created newContext := by
  rintro y hy
  rw [← Option.some.inj hy]
  exact ⟨rfl,rfl,rfl,rfl⟩

/-- The layer is made wider, given to the windows and taken back with a second buffer. -/
theorem taken_back : ∃ x, Reaches (step smallLayer) (Kept smallLayer) Created x ∧
    Agrees smallLayer x ∧ x.primary.width = 16 ∧
    x.region.bind (fun y => y.region.surface.map (·.numBuffers)) = some 2 ∧
    (perform smallLayer x {testRegion := .unsupported} (.setConfiguration {})).2 = .unsupported ∧
    Unchanged x (perform smallLayer x {testRegion := .unsupported} (.setConfiguration {})).1 := by
  have hwide : Reaches (step smallLayer) (Kept smallLayer) Created _ :=
    .step (.setConfiguration {width := some 16},{}) (.init newContext_created) (fun _ _ y hy => by
        rw [← Option.some.inj hy]
        exact ⟨rfl,fun _ => ⟨rfl,(fun h => by cases h),(fun h => by cases h),(fun h => by cases h)⟩,
          (fun h => by cases h)⟩) rfl
  have hwindows : Reaches (step smallLayer) (Kept smallLayer) Created _ :=
    .step (.setConfiguration {buffermode := some .windows},{}) hwide (fun h => absurd rfl h) rfl
  have hback : Reaches (step smallLayer) (Kept smallLayer) Created _ :=
    .step (.setConfiguration {buffermode := some .backVideo},{}) hwindows (fun _ _ y hy => by
        rw [← Option.some.inj hy]
        exact ⟨rfl,fun _ => ⟨rfl,(fun h => by cases h),(fun h => by cases h),(fun h => by cases h)⟩,
          (fun _ => rfl)⟩) rfl
  obtain ⟨hagrees,hunchanged⟩ := context_agrees hback
  exact ⟨_,hback,hagrees,rfl,rfl,rfl,hunchanged (.setConfiguration {}) {testRegion := .unsupported}
    (fun _ h => by cases h) rfl (fun h => by cases h)⟩

/-- The driver refuses a width at the second test, which is not looked at: the context has it and
the region does not. The surface cannot be reconfigured, and the region is not configured any more.
A width that is set in the mode of windows does not get to the region with a call that only leaves
the mode. -/
theorem out_of_step : ∃ x y z, Reaches (step smallLayer) (fun _ _ => True) Created x ∧
    (x.primary.width = 16 ∧ x.region.map (·.region.config.width) = some 8) ∧
    Reaches (step smallLayer) (fun _ _ => True) Created y ∧
    ((perform smallLayer y {checkUpdate := .noVideoMemory} (.setConfiguration {})).2 =
        .noVideoMemory ∧
      ¬ Unchanged y
        (perform smallLayer y {checkUpdate := .noVideoMemory} (.setConfiguration {})).1) ∧
    Reaches (step smallLayer) (fun _ _ => True) Created z ∧
    (z.primary.buffermode = .frontOnly ∧ z.primary.width = 16 ∧
      z.region.map (·.region.config.width) = some 8) := by
  have hrefused : Reaches (step smallLayer) (fun _ _ => True) Created _ :=
    .step (.setConfiguration {width := some 16},{configure := {testRegion := .unsupported}})
      (.init newContext_created) trivial rfl
  have hshown : Reaches (step smallLayer) (fun _ _ => True) Created _ :=
    .step (.setConfiguration {},{}) (.init newContext_created) trivial rfl
  have hwindows : Reaches (step smallLayer) (fun _ _ => True) Created _ :=
    .step (.setConfiguration {width := some 16, buffermode := some .windows},{})
      (.init newContext_created) trivial rfl
  have hback : Reaches (step smallLayer) (fun _ _ => True) Created _ :=
    .step (.setConfiguration {buffermode := some .frontOnly},{}) hwindows trivial rfl
  refine ⟨_,_,_,hrefused,⟨rfl,rfl⟩,hshown,⟨rfl,fun h => ?_⟩,hback,rfl,rfl,rfl⟩
  cases congrArg (Option.map (·.2.1)) h.region

end DirectFB.LayerContext
