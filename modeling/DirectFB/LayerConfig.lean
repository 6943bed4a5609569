import Mathlib.Tactic

/-! The configuration of a layer region, and the flags that say which entries of one are meant. -/
namespace DirectFB.LayerConfig

/-- `DFBDisplayLayerBufferMode` -/
inductive BufferMode
  | unknown | frontOnly | backVideo | backSystem | triple | windows
  deriving DecidableEq

/-- `DFBRectangle` -/
structure Rectangle where
  x : ℤ
  y : ℤ
  w : ℤ
  h : ℤ
  deriving DecidableEq

/-- `DFBDisplayLayerOptions` -/
structure Options where
  alphaChannel : Bool := false
  flickerFiltering : Bool := false
  deinterlacing : Bool := false
  srcColorKey : Bool := false
  dstColorKey : Bool := false
  opacity : Bool := false
  fieldParity : Bool := false
  lrMono : Bool := false
  stereo : Bool := false
  deriving DecidableEq

/-- `DFBColorKey` -/
structure ColorKey where
  r : Fin 256
  g : Fin 256
  b : Fin 256
  index : Fin 256
  deriving DecidableEq

/-- The clip regions, of which the number is known, and whether they show or cut out. -/
structure Clips where
  regions : List Rectangle
  positive : Bool
  deriving DecidableEq

/-- The `DFBSurfaceCapabilities` that are chosen here. -/
structure SurfaceCaps where
  double : Bool := false
  triple : Bool := false
  interlaced : Bool := false
  separated : Bool := false
  premultiplied : Bool := false
  rotated : Bool := false
  stereo : Bool := false
  deriving DecidableEq

/-- `CoreLayerRegionConfig`, with numbers for the format, the color space and the source. -/
@[ext] structure CoreLayerRegionConfig where
  width : ℤ
  height : ℤ
  format : ℕ
  colorspace : ℕ
  surfaceCaps : SurfaceCaps
  buffermode : BufferMode
  options : Options
  sourceId : ℕ
  source : Rectangle
  dest : Rectangle
  opacity : Fin 256
  srcKey : ColorKey
  dstKey : ColorKey
  parity : ℤ
  alphaRamp : Fin 4 → Fin 256
  clips : Clips
  keepBuffers : Bool
  deriving DecidableEq

/-- `CoreLayerRegionConfigFlags` -/
structure ConfigFlags where
  width : Bool := false
  height : Bool := false
  format : Bool := false
  surfaceCaps : Bool := false
  buffermode : Bool := false
  options : Bool := false
  sourceId : Bool := false
  colorspace : Bool := false
  source : Bool := false
  dest : Bool := false
  clips : Bool := false
  opacity : Bool := false
  alphaRamp : Bool := false
  srcKey : Bool := false
  dstKey : Bool := false
  parity : Bool := false
  surface : Bool := false
  palette : Bool := false
  freeze : Bool := false
  deriving DecidableEq

/-- `CLRCF_ALL`, which has `CLRCF_FREEZE` in it. -/
def ConfigFlags.all : ConfigFlags :=
  ⟨true,true,true,true,true,true,true,true,true,true,true,true,true,true,true,true,true,true,true⟩

/-- The flags that `dfb_layer_region_set` locks the buffers for. -/
def ConfigFlags.locking (flags : ConfigFlags) : Bool :=
  flags.surface || flags.width || flags.height || flags.format || flags.srcKey || flags.dstKey ||
  flags.opacity || flags.source || flags.dest

/-- The configuration with the entries of another that the flags say. -/
def CoreLayerRegionConfig.updated (current config : CoreLayerRegionConfig) (flags : ConfigFlags) :
    CoreLayerRegionConfig :=
  if flags = ConfigFlags.all then config
  else {current with
    width := if flags.width then config.width else current.width
    height := if flags.height then config.height else current.height
    format := if flags.format then config.format else current.format
    colorspace := if flags.colorspace then config.colorspace else current.colorspace
    surfaceCaps := if flags.surfaceCaps then config.surfaceCaps else current.surfaceCaps
    buffermode := if flags.buffermode then config.buffermode else current.buffermode
    options := if flags.options then config.options else current.options
    sourceId := if flags.sourceId then config.sourceId else current.sourceId
    source := if flags.source then config.source else current.source
    dest := if flags.dest then config.dest else current.dest
    opacity := if flags.opacity then config.opacity else current.opacity
    alphaRamp := if flags.alphaRamp then config.alphaRamp else current.alphaRamp
    srcKey := if flags.srcKey then config.srcKey else current.srcKey
    dstKey := if flags.dstKey then config.dstKey else current.dstKey
    parity := if flags.parity then config.parity else current.parity
    clips := if flags.clips then config.clips else current.clips}

theorem pick_trans {α : Type} {flag : Bool} {a b c : α} (hab : (if flag then b else a) = b)
    (hbc : (if flag then c else b) = c) : (if flag then c else a) = c := by
  cases flag
  · exact hab.trans hbc
  · exact hbc

theorem CoreLayerRegionConfig.updated_trans {a b c : CoreLayerRegionConfig} {flags : ConfigFlags}
    (hab : a.updated b flags = b) (hbc : b.updated c flags = c) : a.updated c flags = c := by
  unfold updated at hab hbc ⊢
  by_cases hall : flags = ConfigFlags.all
  · rw [if_pos hall]
  · rw [if_neg hall] at hab hbc ⊢
    have hkab := congrArg keepBuffers hab
    have hkbc := congrArg keepBuffers hbc
    exact CoreLayerRegionConfig.ext (pick_trans (congrArg width hab) (congrArg width hbc))
      (pick_trans (congrArg height hab) (congrArg height hbc))
      (pick_trans (congrArg format hab) (congrArg format hbc))
      (pick_trans (congrArg colorspace hab) (congrArg colorspace hbc))
      (pick_trans (congrArg surfaceCaps hab) (congrArg surfaceCaps hbc))
      (pick_trans (congrArg buffermode hab) (congrArg buffermode hbc))
      (pick_trans (congrArg options hab) (congrArg options hbc))
      (pick_trans (congrArg sourceId hab) (congrArg sourceId hbc))
      (pick_trans (congrArg source hab) (congrArg source hbc))
      (pick_trans (congrArg dest hab) (congrArg dest hbc))
      (pick_trans (congrArg opacity hab) (congrArg opacity hbc))
      (pick_trans (congrArg srcKey hab) (congrArg srcKey hbc))
      (pick_trans (congrArg dstKey hab) (congrArg dstKey hbc))
      (pick_trans (congrArg parity hab) (congrArg parity hbc))
      (pick_trans (congrArg alphaRamp hab) (congrArg alphaRamp hbc))
      (pick_trans (congrArg clips hab) (congrArg clips hbc))
      (hkab.trans hkbc)

theorem CoreLayerRegionConfig.updated_self (a : CoreLayerRegionConfig) (flags : ConfigFlags) :
    a.updated a flags = a := by
  unfold updated
  simp only [ite_self]

theorem CoreLayerRegionConfig.updated_freeze (a b : CoreLayerRegionConfig) {flags : ConfigFlags}
    (surface palette : Bool) (hramp : flags.alphaRamp = false) :
    a.updated b {flags with surface, palette, freeze := true} = a.updated b flags := by
  have hall : flags ≠ ConfigFlags.all := by
    rintro rfl
    cases hramp
  have hfrozen : ({flags with surface, palette, freeze := true} : ConfigFlags) ≠ ConfigFlags.all := by
    intro h
    have := congrArg ConfigFlags.alphaRamp h
    cases hramp.symm.trans this
  unfold updated
  rw [if_neg hall,if_neg hfrozen]

end DirectFB.LayerConfig
