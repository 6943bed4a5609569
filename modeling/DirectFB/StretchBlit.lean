import DirectFB.GenefxXop

/-! Stretch blits by software, one after the other under one setup of the pipeline. -/
namespace DirectFB
namespace StretchBlit
open Genefx Span

/-- `DFBRectangle`. -/
structure Rect where
  x : ℤ
  y : ℤ
  w : ℤ
  h : ℤ

/-- `DFBRegion`. -/
structure Region where
  x1 : ℤ
  y1 : ℤ
  x2 : ℤ
  y2 : ℤ

/-- `dfb_rectangle_intersect_by_region`. -/
def Rect.intersectByRegion (r : Rect) (c : Region) : Option Rect :=
  let r := if r.x < c.x1 then ⟨c.x1,r.y,r.w-(c.x1-r.x),r.h⟩ else r
  let r := if r.y < c.y1 then ⟨r.x,c.y1,r.w,r.h-(c.y1-r.y)⟩ else r
  let r := if c.x2 < r.x+r.w-1 then ⟨r.x,r.y,c.x2-r.x+1,r.h⟩ else r
  let r := if c.y2 < r.y+r.h-1 then ⟨r.x,r.y,r.w,c.y2-r.y+1⟩ else r
  if r.w ≤ 0 ∨ r.h ≤ 0 then none else some r

/-- `rotflip_blittingflags`. -/
structure Rotflip where
  flipH : Bool
  flipV : Bool
  rotate90 : Bool

/-- A pixel of at most four bytes. -/
abbrev Pixel := BitVec 32

/-- What `gAcquire` has set up: the surfaces, the clip of the state, the flags, whether both
formats are the same, whether the function for 64 bits is used where they are, whether the
destination has the format `DSPF_RGB332`, `EXPAND` of the source format and `PIXEL_OUT` of the
destination format. -/
structure Setup where
  src : Surface
  dst : Surface
  clip : Region
  clip_inside : 0 ≤ clip.x1 ∧ clip.x2 < dst.width ∧ 0 ≤ clip.y1 ∧ clip.y2 < dst.height
  flags : Rotflip
  same : Bool
  long64 : Bool
  rgb332 : Bool
  expand : Pixel → Color
  pixelOut : Color → Pixel
  keepAccumulators : ℤ

/-- The functions that `gAcquireSetup` chooses from for a stretch blit without color keys. -/
inductive Pipeline
  | direct
  | converted
  | rotated
  deriving DecidableEq

def Setup.pipeline (c : Setup) : Pipeline :=
  if c.flags.rotate90 then .rotated
  else if c.same && !c.flags.flipH then .direct
  else .converted

structure State where
  Astep : ℤ
  ABsize : ℤ
  D : ℤ → Pixel

/-- What `gStretchBlit` makes of the flags: the factor of `Astep`, where the operands begin and
how they advance. -/
structure Walk where
  factor : ℤ
  Aop : Xop
  Bop : Xop
  advanceA : Xop → Xop
  advanceB : Xop → Xop

def walk (c : Setup) (srect drect : Rect) : Walk :=
  let up := (-c.dst.pitch).tdiv c.dst.unit
  let down := c.dst.pitch.tdiv c.dst.unit
  let right := drect.x+(drect.w-1)
  let bottom := drect.y+(drect.h-1)
  let Bop := xopXY c.src srect.x srect.y
  match c.flags.rotate90,c.flags.flipH,c.flags.flipV with
  | false,true,false =>
    ⟨-1,xopXY c.dst right drect.y,Bop,xopNext c.dst,xopNext c.src⟩
  | false,false,true =>
    ⟨1,xopXY c.dst drect.x bottom,Bop,xopPrev c.dst,xopNext c.src⟩
  | true,false,false =>
    ⟨up,xopXY c.dst drect.x bottom,Bop,xopCrab c.dst,xopNext c.src⟩
  | false,true,true =>
    ⟨-1,xopXY c.dst right bottom,Bop,xopPrev c.dst,xopNext c.src⟩
  | true,true,true =>
    ⟨down,xopXY c.dst drect.x drect.y,xopXY c.src srect.x (srect.y+srect.h-1),xopCrab c.dst,
      xopPrev c.src⟩
  | true,false,true =>
    ⟨up,xopXY c.dst right bottom,Bop,xopPrevCrab c.dst,xopNext c.src⟩
  | true,true,false =>
    ⟨down,xopXY c.dst drect.x drect.y,Bop,xopCrab c.dst,xopNext c.src⟩
  | false,false,false =>
    ⟨1,xopXY c.dst drect.x drect.y,Bop,xopNext c.dst,xopNext c.src⟩

/-- What the functions of the pipeline read of `GenefxState` besides the operands. -/
structure Line where
  Astep : ℤ
  ABsize : ℤ
  SperD : ℤ
  Xphase : ℤ
  Slen : ℕ
  Dlen : ℕ

/-- Pixels that are to be stored. -/
abbrev Stored := List (ℤ × Option Pixel)

section Pipelines

variable (c : Setup) (S : ℤ → Option Pixel) (p : Line)

def saccPixel (x : Accumulator) : Option Pixel :=
  if x.Marked then none else some (c.pixelOut x.color)

/-- The functions for `DSPF_RGB332` know no step. -/
def saccStep (Astep : ℤ) : ℤ := if c.rgb332 then 1 else Astep

/-- `Sacc_to_Aop_PFI`. -/
def saccTo (Sacc : List Accumulator) (Aop : ℤ) : Option Stored :=
  collect (fun k => Sacc[k]?.map fun x => (Aop+k*(saccStep c p.Astep*c.dst.unit),saccPixel c x)) p.Dlen

/-- `Sacc_Sto_Aop_PFI`. -/
def saccSto (Sacc : List Accumulator) (Aop : ℤ) : Option Stored :=
  collect (fun k => Sacc[((p.Xphase+k*p.SperD)/65536).toNat]?.map fun x =>
    (Aop+k*(saccStep c p.Astep*c.dst.unit),saccPixel c x)) p.Dlen

end Pipelines

def lines (step : ℤ) (advanceA advanceB : Xop → Xop) (run : Xop → Xop → Option Stored) :
    ℕ → ℤ → Xop → Xop → Option Stored
  | 0, _, _, _ => some []
  | h+1, iy, A, B =>
    (run A B).bind fun l => (lines step advanceA advanceB run h ((iy+step)%65536) (advanceA A)
      (advanceB^[((iy+step)/65536).toNat] B)).map fun rest => l++rest

/-- `dfb_clip_blit_precheck`. -/
def clipBlitPrecheck (clip : Region) (w h dx dy : ℤ) : Bool :=
  !(w < 1 || h < 1 || clip.x1 ≥ dx+w || clip.x2 < dx || clip.y1 ≥ dy+h || clip.y2 < dy)

structure Call where
  srect : Rect
  drect : Rect
  S : ℤ → Option Pixel

end StretchBlit

end DirectFB
