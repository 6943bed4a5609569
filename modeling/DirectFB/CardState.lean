import DirectFB.Region

/-! The state of graphics operations: the values that its owner sets, the flags of what was
modified, the functions that were checked for acceleration and the serials of the surfaces it last
saw. -/
namespace DirectFB

/-- `StateModificationFlags`, for the members modelled. -/
inductive Modification
  | drawingFlags | blittingFlags | clip | color | srcBlend | dstBlend | srcColorkey | dstColorkey
  | destination | source | sourceMask | sourceMaskVals | writeMaskBits | renderOptions | source2
  | ropCode | fromBuffer | toBuffer
  deriving DecidableEq

/-- `SMF_ALL`. -/
def Modification.all : Finset Modification := {.drawingFlags,.blittingFlags,.clip,.color,.srcBlend,
  .dstBlend,.srcColorkey,.dstColorkey,.destination,.source,.sourceMask,.sourceMaskVals,
  .writeMaskBits,.renderOptions,.source2,.ropCode,.fromBuffer,.toBuffer}

@[simp] theorem Modification.mem_all (x : Modification) : x ∈ all := by
  cases x <;> decide

/-- `DFBAccelerationMask`, one bit each. -/
inductive Accel
  | fillRectangle | drawRectangle | drawLine | fillTriangle | fillTrapezoid | fillQuadrangle
  | fillSpan | drawMonoGlyph | blit | stretchBlit | texTriangles | blit2 | tileBlit | drawString
  deriving DecidableEq

namespace Accel

/-- `DFXL_ALL_DRAW`. -/
def allDraw : Finset Accel := {.fillRectangle,.drawRectangle,.drawLine,.fillTriangle,.fillTrapezoid,
  .fillQuadrangle,.fillSpan,.drawMonoGlyph}

/-- `DFXL_ALL_BLIT`. -/
def allBlit : Finset Accel := {.blit,.stretchBlit,.texTriangles,.blit2,.tileBlit,.drawString}

/-- `DFXL_ALL`, without the bit of monochrome glyphs. -/
def all : Finset Accel := allDraw.erase .drawMonoGlyph ∪ allBlit

/-- `DFB_BLITTING_FUNCTION`. -/
def blitting (accel : Accel) : Bool := accel ∈ allBlit

end Accel

structure CoreSurface where
  serial : ℕ
  numBuffers : ℕ
  w : ℤ
  h : ℤ

inductive BufferRole
  | front | back | idle
  deriving DecidableEq

inductive StereoEye
  | left | right
  deriving DecidableEq

/-- `CSF_SOURCE_LOCKED` and its siblings. -/
inductive LockFlag
  | source | sourceMask | source2
  deriving DecidableEq

/-- `CardState`. Serials are counts of increases. -/
structure CardState (S : Type*) where
  modified : Finset Modification := Modification.all
  modHw : Finset Modification := ∅
  flags : Finset LockFlag := ∅
  drawingflags : UInt32 := 0
  blittingflags : UInt32 := 0
  clip : Region := ⟨0,0,0,0⟩
  colorIndex : UInt32 := 0
  srcBlend : UInt32 := 5
  dstBlend : UInt32 := 6
  srcColorkey : UInt32 := 0
  dstColorkey : UInt32 := 0
  destination : Option S := none
  source : Option S := none
  dstSerial : ℕ := 0
  srcSerial : ℕ := 0
  accel : Finset Accel := ∅
  checked : Finset Accel := ∅
  set : Finset Accel := ∅
  disabled : Finset Accel := ∅
  fromRole : BufferRole := .front
  fromEye : StereoEye := .left
  toRole : BufferRole := .back
  toEye : StereoEye := .left
  renderOptions : UInt32 := 0
  sourceMask : Option S := none
  srcMaskSerial : ℕ := 0
  srcMaskOffset : ℤ × ℤ := (0,0)
  srcMaskFlags : UInt32 := 0
  source2 : Option S := none
  src2Serial : ℕ := 0
  writeMaskBits : UInt64 := 0
  ropCode : UInt32 := 0
  sourceFlipCount : UInt32 := 0
  sourceFlipCountUsed : Bool := false

namespace CardState

/-- `DSBLIT_SRC_MASK_ALPHA | DSBLIT_SRC_MASK_COLOR`. -/
def srcMaskBits : UInt32 := 0x00300000

/-- `DSRO_MATRIX`. -/
def matrixBit : UInt32 := 4

variable {S : Type*} [DecidableEq S]

def masked (s : CardState S) : Bool := s.blittingflags &&& srcMaskBits ≠ 0

def matrix (s : CardState S) : Bool := s.renderOptions &&& matrixBit ≠ 0

def modify (s : CardState S) (flag : Modification) : CardState S :=
  {s with modified := insert flag s.modified}

section Setters

/-- `_dfb_state_set_checked`. -/
def setChecked {β : Type*} [DecidableEq β] (s : CardState S) (member : CardState S → β)
    (put : CardState S → β → CardState S) (flag : Modification) (value : β) : CardState S :=
  if value ≠ member s then (put s value).modify flag else s

def setBlittingFlags (s : CardState S) (flags : UInt32) : CardState S :=
  s.setChecked blittingflags (fun s v => {s with blittingflags := v}) .blittingFlags flags

def setDrawingFlags (s : CardState S) (flags : UInt32) : CardState S :=
  s.setChecked drawingflags (fun s v => {s with drawingflags := v}) .drawingFlags flags

def setColorIndex (s : CardState S) (index : UInt32) : CardState S :=
  s.setChecked colorIndex (fun s v => {s with colorIndex := v}) .color index

def setSrcBlend (s : CardState S) (blend : UInt32) : CardState S :=
  s.setChecked srcBlend (fun s v => {s with srcBlend := v}) .srcBlend blend

def setDstBlend (s : CardState S) (blend : UInt32) : CardState S :=
  s.setChecked dstBlend (fun s v => {s with dstBlend := v}) .dstBlend blend

def setSrcColorkey (s : CardState S) (key : UInt32) : CardState S :=
  s.setChecked srcColorkey (fun s v => {s with srcColorkey := v}) .srcColorkey key

def setDstColorkey (s : CardState S) (key : UInt32) : CardState S :=
  s.setChecked dstColorkey (fun s v => {s with dstColorkey := v}) .dstColorkey key

def setRenderOptions (s : CardState S) (opts : UInt32) : CardState S :=
  s.setChecked renderOptions (fun s v => {s with renderOptions := v}) .renderOptions opts

def setWriteMaskBits (s : CardState S) (bits : UInt64) : CardState S :=
  s.setChecked writeMaskBits (fun s v => {s with writeMaskBits := v}) .writeMaskBits bits

def setRopCode (s : CardState S) (code : UInt32) : CardState S :=
  s.setChecked ropCode (fun s v => {s with ropCode := v}) .ropCode code

/-- `dfb_state_set_clip`. -/
def setClip (s : CardState S) (clip : Region) : CardState S :=
  s.setChecked CardState.clip (fun s v => {s with clip := v}) .clip clip

/-- `dfb_state_set_source_mask_vals`. -/
def setSourceMaskVals (s : CardState S) (offset : ℤ × ℤ) (flags : UInt32) : CardState S :=
  if s.srcMaskOffset ≠ offset ∨ s.srcMaskFlags ≠ flags then
    {s with srcMaskOffset := offset, srcMaskFlags := flags}.modify .sourceMaskVals
  else s

/-- `dfb_state_set_from`. -/
def setFrom (s : CardState S) (role : BufferRole) (eye : StereoEye) : CardState S :=
  if s.fromRole ≠ role ∨ s.fromEye ≠ eye then
    {s with fromRole := role, fromEye := eye, modified := s.modified ∪
      {.source,.source2,.sourceMask,.fromBuffer}}
  else s

/-- `dfb_state_set_to`. -/
def setTo (s : CardState S) (role : BufferRole) (eye : StereoEye) : CardState S :=
  if s.toRole ≠ role ∨ s.toEye ≠ eye then
    {s with toRole := role, toEye := eye, modified := s.modified ∪ {.destination,.toBuffer}}
  else s

/-- `validate_clip`. -/
def validateClip (s : CardState S) (xmax ymax : ℤ) : CardState S :=
  if s.clip.x1 ≤ xmax ∧ s.clip.y1 ≤ ymax ∧ s.clip.x2 ≤ xmax ∧ s.clip.y2 ≤ ymax then s
  else {s with clip := ⟨min s.clip.x1 xmax,min s.clip.y1 ymax,min s.clip.x2 xmax,
    min s.clip.y2 ymax⟩}.modify .clip

variable (surfaces : S → CoreSurface)

/-- `validate_clip` for a surface, if there is one. -/
def clipTo (s : CardState S) (surface : Option S) : CardState S :=
  surface.elim s fun u => s.validateClip ((surfaces u).w-1) ((surfaces u).h-1)

omit [DecidableEq S] in
@[simp] theorem clipTo_destination (s : CardState S) (surface : Option S) :
    (s.clipTo surfaces surface).destination = s.destination := by
  cases surface with
  | none => rfl
  | some u =>
    simp only [clipTo,Option.elim_some,validateClip]
    split_ifs <;> rfl

/-- `direct_serial_copy` from a surface, if there is one. -/
def copySerial (serial : ℕ) (surface : Option S) : ℕ :=
  surface.elim serial fun u => (surfaces u).serial

/-- A surface is replaced if it is another one and `dfb_surface_ref` succeeds for the new one. -/
def setSurface (s : CardState S) (other : Bool) (surface : Option S) (ref : Bool)
    (put : CardState S) (flag : Modification) : CardState S :=
  if other then
    if surface.isSome && !ref then s else put.modify flag
  else s

/-- `dfb_state_set_destination`. -/
def setDestination (s : CardState S) (destination : Option S) (ref : Bool) : CardState S :=
  s.setSurface (s.destination ≠ destination) destination ref {s.clipTo surfaces destination with
    destination := destination
    dstSerial := copySerial surfaces s.dstSerial destination} .destination

/-- `dfb_state_set_source`. -/
def setSource (s : CardState S) (source : Option S) (ref : Bool) : CardState S :=
  s.setSurface (s.source ≠ source) source ref {s with
    source := source
    srcSerial := copySerial surfaces s.srcSerial source} .source

/-- `dfb_state_set_source_2`. -/
def setSourceFlip (s : CardState S) (source : Option S) (flipCount : UInt32) (ref : Bool) :
    CardState S :=
  s.setSurface (s.source ≠ source || s.sourceFlipCount ≠ flipCount || !s.sourceFlipCountUsed)
    source ref {s with
      source := source
      sourceFlipCount := flipCount
      sourceFlipCountUsed := true
      srcSerial := copySerial surfaces s.srcSerial source} .source

/-- `dfb_state_set_source2`. -/
def setSource2 (s : CardState S) (source2 : Option S) (ref : Bool) : CardState S :=
  s.setSurface (s.source2 ≠ source2) source2 ref {s with
    source2 := source2
    src2Serial := copySerial surfaces s.src2Serial source2} .source2

/-- `dfb_state_set_source_mask`. -/
def setSourceMask (s : CardState S) (sourceMask : Option S) (ref : Bool) : CardState S :=
  s.setSurface (s.sourceMask ≠ sourceMask) sourceMask ref {s with
    sourceMask := sourceMask
    srcMaskSerial := copySerial surfaces s.srcMaskSerial sourceMask} .sourceMask

end Setters

section Updates

variable (surfaces : S → CoreSurface)

/-- `direct_serial_update` would change the serial. -/
def behind (serial : ℕ) (surface : Option S) : Bool :=
  surface.elim false fun u => serial < (surfaces u).serial

/-- `dfb_state_update_destination`. -/
def updateDestination (s : CardState S) : CardState S :=
  if behind surfaces s.dstSerial s.destination then
    {s.clipTo surfaces s.destination with
      dstSerial := copySerial surfaces s.dstSerial s.destination}.modify .destination
  else s

/-- `dfb_state_update_sources` with `CSF_SOURCE`. -/
def updateSource (s : CardState S) : CardState S :=
  if behind surfaces s.srcSerial s.source then
    {s with srcSerial := copySerial surfaces s.srcSerial s.source}.modify .source
  else s

/-- `dfb_state_update_sources` with `CSF_SOURCE_MASK`. -/
def updateSourceMask (s : CardState S) : CardState S :=
  if behind surfaces s.srcMaskSerial s.sourceMask then
    {s with srcMaskSerial := copySerial surfaces s.srcMaskSerial s.sourceMask}.modify .sourceMask
  else s

/-- `dfb_state_update_sources` with `CSF_SOURCE2`. -/
def updateSource2 (s : CardState S) : CardState S :=
  if behind surfaces s.src2Serial s.source2 then
    {s with src2Serial := copySerial surfaces s.src2Serial s.source2}.modify .source2
  else s

def outdated (s : CardState S) : Modification → Bool
  | .destination => behind surfaces s.dstSerial s.destination
  | .source => behind surfaces s.srcSerial s.source
  | .sourceMask => behind surfaces s.srcMaskSerial s.sourceMask
  | .source2 => behind surfaces s.src2Serial s.source2
  | _ => false

end Updates

end CardState

end DirectFB
