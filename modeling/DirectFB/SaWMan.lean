import DirectFB.UpdateRegion

/-! The windows that SaWMan manages, and what its parts read of them. -/
namespace DirectFB.SaWMan

/-- `DFBWindowStackingClass`. -/
inductive StackingClass
  | middle | upper | lower
  deriving DecidableEq

/-- `DFBWindowGeometryMode`. -/
inductive GeometryMode
  | default | follow | rectangle | location
  deriving DecidableEq

/-- `DFBWindowGeometry`. -/
structure Geometry where
  mode : GeometryMode := .default
  rectangle : Rectangle := ⟨0,0,0,0,zero_nonneg,zero_nonneg⟩
  location : ℚ×ℚ×ℚ×ℚ := 0

/-- The `DWOP` options that are read. -/
structure WindowOptions where
  inputOnly : Bool := false
  alphaChannel : Bool := false
  colorKeying : Bool := false
  opaqueRegion : Bool := false
  keepAbove : Bool := false
  keepUnder : Bool := false
  followBounds : Bool := false
  deriving DecidableEq

/-- The `DWCAPS` capabilities that are read. -/
structure WindowCaps where
  inputOnly : Bool := false
  color : Bool := false
  noDecoration : Bool := false
  deriving DecidableEq

/-- What is read of a `CoreWindowConfig`. -/
structure WindowConfig where
  bounds : Rectangle
  opacity : Fin 256 := 0
  options : WindowOptions := {}
  opaqueRegion : OpaqueRegion := ⟨⟨0,0,0,0⟩,Region.zero_valid⟩
  stacking : StackingClass := .middle
  association : ℕ := 0
  srcGeometry : Geometry := {}
  dstGeometry : Geometry := {}
  z : ℤ := 0

/-- What is read of a `CoreSurface`. -/
structure Surface where
  width : ℤ
  height : ℤ
  width_nonneg : 0 ≤ width
  height_nonneg : 0 ≤ height
  premultiplied : Bool := false

structure Placement where
  bounds : Rectangle
  src : Rectangle
  dst : Rectangle
  inside : (Region.fromRectangle dst).Within (Region.fromRectangle bounds)

/-- A `CoreWindow` together with its `SaWManWindow`. -/
structure Window (ω : Type*) where
  id : ℕ := 0
  caps : WindowCaps := {}
  config : WindowConfig
  surface : Option Surface := none
  destroyed : Bool := false
  toplevel : Option ω := none
  subwindows : List ω := []
  parent : Option ω := none
  parentWindow : Option ω := none
  children : List ω := []
  inserted : Bool := false
  priority : ℤ := 0
  placement : Placement

abbrev Windows (ω : Type*) := ω → Window ω

namespace StackingClass

/-- `sawman_window_priority`, of a window in the class. -/
def priority : StackingClass → ℤ
  | .upper => 2
  | .middle => 1
  | .lower => 0

end StackingClass

/-- `sawman_config->borders` and the sizes of the tiers, by the class of a window. -/
structure Borders where
  thickness : StackingClass → ℤ
  resolution : StackingClass → ℤ×ℤ
  size : StackingClass → ℤ×ℤ

def noBorders : Borders := ⟨fun _ => 0,fun _ => (0,0),fun _ => (0,0)⟩

namespace Window
variable {ω : Type*}

def bounds (w : Window ω) : Rectangle := w.placement.bounds

def dst (w : Window ω) : Rectangle := w.placement.dst

def opacity (w : Window ω) : Fin 256 := w.config.opacity

def options (w : Window ω) : WindowOptions := w.config.options

def input (w : Window ω) : Bool := w.caps.inputOnly || w.options.inputOnly

/-- `sawman_window_border`. -/
def border (borders : Borders) (w : Window ω) : ℤ :=
  let thickness := borders.thickness w.config.stacking
  let resolution := borders.resolution w.config.stacking
  let size := borders.size w.config.stacking
  if w.caps.noDecoration then 0
  else if thickness ≠ 0 ∧ resolution.1 ≠ 0 ∧ resolution.2 ≠ 0 ∧
      resolution.1 ≠ size.1 ∧ resolution.2 ≠ size.2 then
    ((thickness*size.1).tdiv resolution.1+(thickness*size.2).tdiv resolution.2+1).tdiv 2
  else thickness

/-- `SAWMAN_TRANSLUCENT_WINDOW`. -/
def translucent (w : Window ω) : Bool :=
  decide (w.opacity < 0xff) ||
    (w.options.inputOnly || w.options.alphaChannel || w.options.colorKeying) ||
    w.config.dstGeometry.mode != .default || w.caps.inputOnly

end Window

/-- `SAWMAN_VISIBLE_WINDOW`. -/
def visible {ω : Type*} (borders : Borders) (s : Windows ω) (w : ω) : Bool :=
  (!(s w).input || decide ((s w).border borders ≠ 0)) && decide (0 < (s w).opacity) &&
    !(s w).destroyed && (s w).toplevel.all fun t => decide (0 < (s t).opacity)

end DirectFB.SaWMan
