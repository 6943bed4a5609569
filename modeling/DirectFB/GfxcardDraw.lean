import DirectFB.CardState
import DirectFB.Clip

/-! The drawing functions of the graphics card: what they acquire, ask the driver for and leave to
the software, as a list of marks in the order in which it happens. -/
namespace DirectFB.GfxcardDraw

open Clip

/-- `DFBTrapezoid`. -/
structure Trapezoid where
  x1 : ℤ
  y1 : ℤ
  w1 : ℤ
  x2 : ℤ
  y2 : ℤ
  w2 : ℤ
  deriving DecidableEq

/-- What the driver or the software is asked to draw. -/
inductive Shape
  | rect (r : Rect)
  | outline (r : Rect)
  | line (l : Region)
  | triangle (t : Triangle)
  | trapezoid (t : Trapezoid)
  | quadrangles
  | glyph
  | blit (srect : Rect) (x y : ℤ)
  | blit2 (srect : Rect) (x y x2 y2 : ℤ)
  | stretch (srect drect : Rect)
  | texture
  deriving DecidableEq

/-- What happens while a function draws. Shapes are marked with the index of what they are for. -/
inductive Mark
  | lock
  | unlock
  | acquired (accel : Accel)
  | released
  | driver (i : ℕ) (s : Shape) (accepted : Bool)
  | software (i : ℕ) (s : Shape)
  deriving DecidableEq

/-- A question to the driver or to the locks: the function, the item and its part, and the depth of
functions that call each other. -/
structure Question where
  accel : Accel
  item : ℕ := 0
  part : ℤ := 0
  depth : ℕ := 0
  deriving DecidableEq

/-- `DSRO_MATRIX` with the matrix. -/
structure Matrix where
  m : Fin 9 → ℤ
  affine : Bool

structure Env where
  clipping : Accel → Bool
  dstMaxW : ℤ
  dstMaxH : ℤ
  notriemu : Bool
  batchFill : Bool
  batchBlit : Bool
  checkAcquire : Question → Bool
  acquire : Question → Bool
  accept : Question → Bool
  batch : Accel → Option ℕ
  softAcquire : Question → Bool
  alloc : Bool
  clip : Region
  matrix : Option Matrix
  flags : Rotation
  rotate90 : Bool

/-- `DFB_TRANSFORM`. -/
def Matrix.transform (m : Matrix) (p : ℤ × ℤ) : ℤ × ℤ :=
  if m.affine then
    ((p.1*m.m 0+p.2*m.m 1+m.m 2+0x8000)/2^16,(p.1*m.m 3+p.2*m.m 4+m.m 5+0x8000)/2^16)
  else
    let x := p.1*m.m 0+p.2*m.m 1+m.m 2
    let y := p.1*m.m 3+p.2*m.m 4+m.m 5
    let w := p.1*m.m 6+p.2*m.m 7+m.m 8
    if w = 0 then (if x < 0 then -0x7fffffff else 0x7fffffff,if y < 0 then -0x7fffffff else 0x7fffffff)
    else (Int.tdiv x w,Int.tdiv y w)

def Matrix.turns (m : Matrix) : Bool :=
  m.m 0 < 0 || m.m 1 ≠ 0 || m.m 3 ≠ 0 || m.m 4 < 0 || m.m 6 ≠ 0 || m.m 7 ≠ 0

section Rows

/-- `DDA`. -/
structure DDA where
  xi : ℤ
  xf : ℤ
  mi : ℤ
  mf : ℤ
  dy2 : ℤ

/-- `SETUP_DDA`. -/
def DDA.setup (xs ys xe ye : ℤ) : DDA :=
  let dx := xe-xs
  let dy := ye-ys
  if dy = 0 then ⟨xs,0,0,0,0⟩
  else
    let mf := 2*Int.tmod dx dy
    if mf < 0 then ⟨xs,-dy,Int.tdiv dx dy-1,mf+2*|dy|,2*dy⟩ else ⟨xs,-dy,Int.tdiv dx dy,mf,2*dy⟩

/-- `INC_DDA`. -/
def DDA.inc (d : DDA) : DDA :=
  let xi := d.xi+d.mi
  let xf := d.xf+d.mf
  if xf > 0 then {d with xi := xi+1, xf := xf-d.dy2} else {d with xi := xi, xf := xf}

def rowRect (clip : Region) (y xa xb : ℤ) : Option Rect :=
  let w := |xa-xb|
  let x := min xa xb
  let w := if clip.x2 < x+w then clip.x2-x+1 else w
  if w > 0 then
    let r : Rect := if clip.x1 > x then ⟨clip.x1,y,w-(clip.x1-x),1⟩ else ⟨x,y,w,1⟩
    if r.w > 0 ∧ y ≥ clip.y1 then some r else none
  else none

/-- The loop of `fill_tri` over rows. -/
def fillTriLoop (clip : Region) (tri : Triangle) : ℕ → ℤ → DDA → DDA → List Rect
  | 0, _, _, _ => []
  | n+1, y, dda1, dda2 =>
    if y = tri.y2 ∧ tri.y2 = tri.y3 then []
    else
      let dda2 := if y = tri.y2 then .setup tri.x2 tri.y2 tri.x3 tri.y3 else dda2
      (rowRect clip y dda1.xi dda2.xi).toList++fillTriLoop clip tri n (y+1) dda1.inc dda2.inc

/-- `fill_tri`, with the rectangles it fills. -/
def fillTri (clip : Region) (tri : Triangle) : List Rect :=
  let yend := if tri.y3 > clip.y2 then clip.y2 else tri.y3
  fillTriLoop clip tri (yend-tri.y1+1).toNat tri.y1 (.setup tri.x1 tri.y1 tri.x3 tri.y3)
    (.setup tri.x1 tri.y1 tri.x2 tri.y2)

def fillSorted (clip : Region) (tri : Triangle) : List Rect :=
  let tri := sortTriangle tri
  if tri.y3-tri.y1 > 0 then fillTri clip tri else []

end Rows

section Loops

variable {α : Type*}

/-- What a loop does with an item: pass over it, leave the loop, or ask the driver. The item may be
changed before. -/
inductive Attempt (α : Type*)
  | skip
  | stop
  | call (s : Shape) (item : α)

def drive (accept : ℕ → Bool) (attempt : α → Attempt α) : List (ℕ × α) → List (ℕ × α) × List Mark
  | [] => ([],[])
  | (i,p)::ps => match attempt p with
    | .skip => drive accept attempt ps
    | .stop => ((i,p)::ps,[])
    | .call s q =>
      if accept i then
        let r := drive accept attempt ps
        (r.1,.driver i s true::r.2)
      else ((i,q)::ps,[.driver i s false])

def draw (shapes : α → List Shape) (ps : List (ℕ × α)) : List Mark :=
  ps.flatMap fun p => (shapes p.2).map (.software p.1)

/-- `dfb_gfxcard_state_check_acquire` and `dfb_gfxcard_state_release` around a loop. What is left of
the items is all of them where the state is not acquired. -/
def withState (e : Env) (q : Question) (ps : List (ℕ × α))
    (loop : List (ℕ × α) → List (ℕ × α) × List Mark) : List (ℕ × α) × List Mark :=
  if e.checkAcquire q then
    let r := loop ps
    (r.1,.acquired q.accel::r.2++[.released])
  else (ps,[])

/-- The software, if `gAcquire` gets the state. -/
def withSoftware (e : Env) (q : Question) (marks : List Mark) : List Mark :=
  if e.softAcquire q then marks else []

def locked (marks : List Mark) : List Mark := .lock::marks++[.unlock]

def indexed (l : List α) : List (ℕ × α) := l.zipIdx.map fun p => (p.2,p.1)

end Loops

section Rectangles

variable (e : Env)

def tooLarge (r : Rect) : Bool := r.w > e.dstMaxW || r.h > e.dstMaxH

/-- One round of the loop of `dfb_gfxcard_fillrectangles`. -/
def attemptRectangle (r : Rect) : Attempt Rect :=
  if e.matrix.isNone && !intersects r e.clip then .skip
  else if tooLarge e r then
    let c := (clipRectangle e.clip r).getD r
    if tooLarge e c then .stop else .call (.rect c) r
  else if !e.clipping .fillRectangle then .call (.rect ((clipRectangle e.clip r).getD r)) r
  else .call (.rect r) r

def softRectangle (r : Rect) : List Shape := ((clipRectangle e.clip r).map .rect).toList

def turnedRectangle (m : Matrix) (r : Rect) : List Shape :=
  let a := m.transform (r.x,r.y)
  let b := m.transform (r.x+r.w,r.y)
  let c := m.transform (r.x+r.w,r.y+r.h)
  let d := m.transform (r.x,r.y+r.h)
  ((fillSorted e.clip ⟨a.1,a.2,b.1,b.2,c.1,c.2⟩)++
    fillSorted e.clip ⟨a.1,a.2,c.1,c.2,d.1,d.2⟩).map .rect

def scaledRectangle (m : Matrix) (r : Rect) : Rect :=
  let a := m.transform (r.x,r.y)
  let b := m.transform (r.x+r.w,r.y+r.h)
  ⟨min a.1 b.1,min a.2 b.2,|b.1-a.1|,|b.2-a.2|⟩

/-- `dfb_gfxcard_fillrectangles` around its software fallback. -/
def fillrectanglesWith (depth : ℕ) (fallback : List (ℕ × Rect) → List Mark) (rects : List Rect) :
    List Mark :=
  let items := (indexed rects).dropWhile fun p => e.matrix.isNone && !intersects p.2 e.clip
  if items.isEmpty then locked []
  else
    let r := withState e ⟨.fillRectangle,0,0,depth⟩ items
      (drive (fun i => e.accept ⟨.fillRectangle,i,0,depth⟩) (attemptRectangle e))
    locked (r.2++if r.1.isEmpty then [] else fallback r.1)

/-- `dfb_gfxcard_fillrectangles` without `DSRO_MATRIX`. -/
def fillrectanglesPlain (depth : ℕ) (rects : List Rect) : List Mark :=
  fillrectanglesWith {e with matrix := none} depth
    (fun ps => withSoftware e ⟨.fillRectangle,0,0,depth⟩ (draw (softRectangle e) ps)) rects

/-- `dfb_gfxcard_fillrectangles`. -/
def fillrectangles (rects : List Rect) : List Mark :=
  match e.matrix with
  | none => fillrectanglesPlain e 0 rects
  | some m => fillrectanglesWith e 0 (fun ps =>
      if m.m 1 = 0 ∧ m.m 3 = 0 then
        let tr := ps.filterMap fun p => clipRectangle e.clip (scaledRectangle m p.2)
        if tr.isEmpty then [] else fillrectanglesPlain e 1 tr
      else withSoftware e ⟨.fillRectangle,0,0,0⟩ (draw (turnedRectangle e m) ps)) rects

def attemptOutline (r : Rect) : Attempt Rect := if tooLarge e r then .stop else .call (.rect r) r

def turnedOutline (m : Matrix) (r : Rect) : List Shape :=
  let a := m.transform (r.x,r.y)
  let b := m.transform (r.x+r.w,r.y)
  let c := m.transform (r.x+r.w,r.y+r.h)
  let d := m.transform (r.x,r.y+r.h)
  [(⟨a.1,a.2,b.1,b.2⟩ : Region),⟨b.1,b.2,c.1,c.2⟩,⟨c.1,c.2,d.1,d.2⟩,⟨d.1,d.2,a.1,a.2⟩].filterMap
    fun l => (clipLine e.clip l).map .line

/-- `dfb_gfxcard_drawrectangle`. -/
def drawrectangle (rect : Rect) : List Mark :=
  if e.matrix.isNone && !intersects rect e.clip then locked []
  else
    let outline := (e.clipping .drawRectangle || !clipNeeded e.clip rect) && !tooLarge e rect
    let whole := if outline then withState e ⟨.drawRectangle,0,0,0⟩ [(0,rect)]
        (drive (fun i => e.accept ⟨.drawRectangle,i,0,0⟩) fun r => .call (.outline r) r)
      else ([(0,rect)],[])
    if whole.1.isEmpty then locked whole.2
    else match e.matrix with
    | none =>
      let rects := indexed (outlines e.clip rect)
      if rects.isEmpty then locked whole.2
      else
        let r := withState e ⟨.fillRectangle,0,0,0⟩ rects
          (drive (fun i => e.accept ⟨.fillRectangle,i,0,0⟩) (attemptOutline e))
        locked (whole.2++r.2++if r.1.isEmpty then [] else
          withSoftware e ⟨.fillRectangle,0,0,0⟩ (draw (fun r => [.rect r]) r.1))
    | some m => locked (whole.2++
        withSoftware e ⟨.drawLine,0,0,0⟩ (draw (turnedOutline e m) [(0,rect)]))

/-- One round of the loop of `dfb_gfxcard_drawlines`, which clips the line in the array. -/
def attemptLine (l : Region) : Attempt Region :=
  if !e.clipping .drawLine then
    match clipLine e.clip l with
    | none => .skip
    | some c => .call (.line c) c
  else .call (.line l) l

def softLine (l : Region) : List Shape :=
  let l := match e.matrix with
    | none => l
    | some m =>
      let a := m.transform (l.x1,l.y1)
      let b := m.transform (l.x2,l.y2)
      ⟨a.1,a.2,b.1,b.2⟩
  ((clipLine e.clip l).map .line).toList

/-- `dfb_gfxcard_drawlines`. -/
def drawlines (lines : List Region) : List Mark :=
  let r := withState e ⟨.drawLine,0,0,0⟩ (indexed lines)
    (drive (fun i => e.accept ⟨.drawLine,i,0,0⟩) (attemptLine e))
  locked (r.2++if r.1.isEmpty then [] else
    withSoftware e ⟨.drawLine,0,0,0⟩ (draw (softLine e) r.1))

def spanRect (r : Rect) : Option Rect :=
  if tooLarge e r then clipRectangle e.clip r
  else if !e.clipping .fillRectangle then clipRectangle e.clip r
  else some r

/-- One round of the loop of `dfb_gfxcard_fillspans`. -/
def attemptSpan (r : Rect) : Attempt Rect :=
  match spanRect e r with
  | none => .skip
  | some c => if tooLarge e c then .stop else .call (.rect c) r

/-- The rectangles for `BatchFill`. Spans that are still too large are passed over. -/
def batchSpans (spans : List (ℕ × Rect)) : List (ℕ × Shape) :=
  spans.filterMap fun p => (spanRect e p.2).bind fun c =>
    if tooLarge e c then none else some (p.1,.rect c)

def executed (batch : List (ℕ × Shape)) : Option ℕ → List Mark
  | none => batch.map fun p => .driver p.1 p.2 true
  | some done => (batch.take done).map fun p => .driver p.1 p.2 true

def remaining {α : Type*} (items : List (ℕ × α)) : Option ℕ → List (ℕ × α)
  | none => []
  | some done => items.drop done

/-- `BatchFill` and the loop after it. Without memory for more than 256 spans there is no batch. -/
def spansLoop (spans : List (ℕ × Rect)) : List (ℕ × Rect) × List Mark :=
  let loop := drive (fun i => e.accept ⟨.fillRectangle,i,0,0⟩) (attemptSpan e)
  if e.batchFill && (spans.length ≤ 256 || e.alloc) then
    let r := loop (remaining spans (e.batch .fillRectangle))
    (r.1,executed (batchSpans e spans) (e.batch .fillRectangle)++r.2)
  else loop spans

def softSpan (r : Rect) : List Shape :=
  match e.matrix with
  | none => softRectangle e r
  | some m =>
    if m.m 1 = 0 ∧ m.m 3 = 0 then softRectangle e (scaledRectangle m r) else turnedRectangle e m r

def spanRects (y : ℤ) (spans : List (ℤ × ℤ)) : List (ℕ × Rect) :=
  (indexed spans).map fun p => (p.1,⟨p.2.1,y+p.1,p.2.2,1⟩)

/-- `dfb_gfxcard_fillspans`. -/
def fillspans (y : ℤ) (spans : List (ℤ × ℤ)) : List Mark :=
  let r := withState e ⟨.fillRectangle,0,0,0⟩ (spanRects y spans) (spansLoop e)
  locked (r.2++if r.1.isEmpty then [] else
    withSoftware e ⟨.fillRectangle,0,0,0⟩ (draw (softSpan e) r.1))

end Rectangles

section Triangles

variable (e : Env)

def fan : List (ℤ × ℤ) → List Triangle
  | a::b::c::rest => ⟨a.1,a.2,b.1,b.2,c.1,c.2⟩::fan (a::c::rest)
  | _ => []

/-- The loop of `dfb_gfxcard_filltriangles` that clips. Only the answer for the first triangle of a
polygon is looked at. -/
def clippedTriangles : List (ℕ × Triangle) → List (ℕ × Triangle) × List Mark
  | [] => ([],[])
  | (i,t)::ts => match (clipTriangle e.clip t).map fan with
    | none | some [] => clippedTriangles ts
    | some (first::rest) =>
      if e.accept ⟨.fillTriangle,i,0,0⟩ then
        let r := clippedTriangles ts
        (r.1,.driver i (.triangle first) true::rest.zipIdx.map (fun p =>
          .driver i (.triangle p.1) (e.accept ⟨.fillTriangle,i,p.2+1,0⟩))++r.2)
      else ((i,t)::ts,[.driver i (.triangle first) false])

def emulate (ts : List (ℕ × Triangle)) : List Mark :=
  ts.flatMap fun p => (fillSorted e.clip p.2).map fun r =>
    .driver p.1 (.rect r) (e.accept ⟨.fillRectangle,p.1,r.y,0⟩)

def softTriangle (t : Triangle) : List Shape :=
  let t := match e.matrix with
    | none => t
    | some m =>
      let a := m.transform (t.x1,t.y1)
      let b := m.transform (t.x2,t.y2)
      let c := m.transform (t.x3,t.y3)
      ⟨a.1,a.2,b.1,b.2,c.1,c.2⟩
  (fillSorted e.clip t).map .rect

/-- `dfb_gfxcard_filltriangles`. -/
def filltriangles (tris : List Triangle) : List Mark :=
  let r := withState e ⟨.fillTriangle,0,0,0⟩ (indexed tris)
    (if !e.clipping .fillTriangle then clippedTriangles e
      else drive (fun i => e.accept ⟨.fillTriangle,i,0,0⟩) fun t => .call (.triangle t) t)
  locked (r.2++if r.1.isEmpty then []
    else if !e.notriemu && e.checkAcquire ⟨.fillRectangle,0,0,0⟩ then
      .acquired .fillRectangle::emulate e r.1++[.released]
    else withSoftware e ⟨.fillRectangle,0,0,0⟩ (draw (softTriangle e) r.1))

def halves (t : Trapezoid) : Triangle × Triangle :=
  (⟨t.x1,t.y1,t.x1+t.w1-1,t.y1,t.x2,t.y2⟩,⟨t.x1+t.w1-1,t.y1,t.x2,t.y2,t.x2+t.w2-1,t.y2⟩)

/-- The software for the halves of a trapezoid that the driver refused, within
`dfb_gfxcard_filltrapezoids`. The second half keeps its row where the matrix is used. -/
def softHalves (t : Trapezoid) (first second : Bool) : List Shape :=
  let h := halves t
  let both : Triangle × Triangle := match e.matrix with
    | none => h
    | some m =>
      let a := m.transform (h.1.x1,h.1.y1)
      let b := m.transform (h.1.x2,h.1.y2)
      let c := m.transform (h.1.x3,h.1.y3)
      let d := m.transform (h.2.x3,h.2.y3)
      (sortTriangle ⟨a.1,a.2,b.1,b.2,c.1,c.2⟩,
        sortTriangle (if second then ⟨b.1,b.2,c.2,h.2.y2,d.1,d.2⟩ else h.2))
  ((if first && 0 < both.1.y3-both.1.y1 then fillTri e.clip both.1 else [])++
    if second && 0 < both.2.y3-both.2.y1 then fillTri e.clip both.2 else []).map .rect

/-- The loop over the halves of trapezoids. The state is released for the software and acquired
again, without a look at the result. -/
def halvesLoop : List (ℕ × Trapezoid) → List Mark
  | [] => []
  | (i,t)::ts =>
    let asked := e.clipping .fillTriangle || e.matrix.isSome
    let first := asked && e.accept ⟨.fillTriangle,i,0,0⟩
    let second := asked && e.accept ⟨.fillTriangle,i,1,0⟩
    (if asked then [.driver i (.triangle (halves t).1) first,.driver i (.triangle (halves t).2) second]
      else [])++
    (if !first || !second then
      .released::withSoftware e ⟨.fillTriangle,i,0,0⟩
        ((softHalves e t (!first) (!second)).map (.software i))++
      if e.acquire ⟨.fillTriangle,i,0,0⟩ then [.acquired .fillTriangle] else []
    else [])++halvesLoop ts

def softTrapezoid (t : Trapezoid) : List Shape := [.trapezoid t]

/-- `dfb_gfxcard_filltrapezoids`. -/
def filltrapezoids (traps : List Trapezoid) : List Mark :=
  let r := withState e ⟨.fillTrapezoid,0,0,0⟩ (indexed traps) fun ps =>
    if e.clipping .fillTrapezoid || e.matrix.isSome then
      drive (fun i => e.accept ⟨.fillTrapezoid,i,0,0⟩) (fun t => .call (.trapezoid t) t) ps
    else (ps,[])
  locked (r.2++if r.1.isEmpty then []
    else if e.checkAcquire ⟨.fillTriangle,0,0,0⟩ then
      .acquired .fillTriangle::halvesLoop e r.1++[.released]
    else withSoftware e ⟨.fillTriangle,0,0,0⟩ (draw softTrapezoid r.1))

def softQuadrangle (p : (ℤ × ℤ) × (ℤ × ℤ) × (ℤ × ℤ) × (ℤ × ℤ)) : List Shape :=
  let f : ℤ × ℤ → ℤ × ℤ := e.matrix.elim id Matrix.transform
  let a := f p.1
  let b := f p.2.1
  let c := f p.2.2.1
  let d := f p.2.2.2
  (fillTri e.clip (sortTriangle ⟨a.1,a.2,b.1,b.2,c.1,c.2⟩)++
    fillTri e.clip (sortTriangle ⟨a.1,a.2,c.1,c.2,d.1,d.2⟩)).map .rect

/-- `dfb_gfxcard_fillquadrangles`. A driver that does not clip ends the function at once. -/
def fillquadrangles (quads : List ((ℤ × ℤ) × (ℤ × ℤ) × (ℤ × ℤ) × (ℤ × ℤ))) : List Mark :=
  let soft := withSoftware e ⟨.fillTriangle,0,0,0⟩ (draw (softQuadrangle e) (indexed quads))
  if e.checkAcquire ⟨.fillQuadrangle,0,0,0⟩ then
    if !e.clipping .fillQuadrangle then [.lock,.acquired .fillQuadrangle]
    else
      let hw := e.accept ⟨.fillQuadrangle,0,0,0⟩
      locked ([.acquired .fillQuadrangle,.driver 0 .quadrangles hw,.released]++if hw then [] else soft)
  else locked soft

/-- `dfb_gfxcard_draw_mono_glyphs`. -/
def drawMonoGlyphs (num : ℕ) : List Mark :=
  locked (if e.checkAcquire ⟨.drawMonoGlyph,0,0,0⟩ then
    .acquired .drawMonoGlyph::(List.range num).map (fun i =>
      .driver i .glyph (e.accept ⟨.drawMonoGlyph,i,0,0⟩))++[.released] else [])

/-- `dfb_gfxcard_texture_triangles`. -/
def textureTriangles : List Mark :=
  let r := if e.clipping .texTriangles then withState e ⟨.texTriangles,0,0,0⟩ [(0,())]
      (drive (fun i => e.accept ⟨.texTriangles,i,0,0⟩) fun u => .call .texture u)
    else ([(0,())],[])
  locked (r.2++withSoftware e ⟨.texTriangles,0,0,0⟩ (draw (fun _ => [.texture]) r.1))

end Triangles

section Blits

variable (e : Env)

def blitRect (r : Rect) (x y : ℤ) : Rect :=
  if e.flags.rotate90 then ⟨x,y,r.h,r.w⟩ else ⟨x,y,r.w,r.h⟩

def clippedBlit (r : Rect) (x y : ℤ) : Shape :=
  let c := clipBlitFlippedRotated e.clip r (blitRect e r x y) e.flags
  .blit c.1 c.2.x c.2.y

def blitVisible (r : Rect) (x y : ℤ) : Bool :=
  let d := blitRect e r x y
  clipBlitPrecheck e.clip d.w d.h d.x d.y

def driverBlit (r : Rect) (x y : ℤ) : Shape :=
  if !e.clipping .blit then clippedBlit e r x y else .blit r x y

/-- The part of `dfb_gfxcard_blit_locked` with the driver, and whether it drew. -/
def blitWithState (item depth : ℕ) (r : Rect) (x y : ℤ) : List (ℕ × Unit) × List Mark :=
  withState e ⟨.blit,item,0,depth⟩ [(item,())]
    (drive (fun i => e.accept ⟨.blit,i,0,depth⟩) fun u => .call (driverBlit e r x y) u)

/-- `dfb_gfxcard_blit_locked` without `DSRO_MATRIX`. -/
def blitPlain (item depth : ℕ) (r : Rect) (x y : ℤ) : List Mark :=
  if !blitVisible e r x y then []
  else
    let b := blitWithState e item depth r x y
    b.2++if b.1.isEmpty then [] else
      withSoftware e ⟨.blit,item,0,depth⟩ [.software item (clippedBlit e r x y)]

/-- A stretched blit that `DSRO_MATRIX` leads to. -/
def scaledBlit (m : Matrix) (srect drect : Rect) : List Shape :=
  let a := m.transform (drect.x,drect.y)
  let b := m.transform (drect.x+drect.w,drect.y+drect.h)
  let d : Rect := ⟨a.1,a.2,b.1-a.1,b.2-a.2⟩
  if clipBlitPrecheck e.clip d.w d.h d.x d.y then [.stretch srect d] else []

/-- `dfb_gfxcard_blit_locked`. A matrix that only moves is taken off for a blit elsewhere. -/
def blitLocked (item : ℕ) (r : Rect) (x y : ℤ) : List Mark :=
  match e.matrix with
  | none => blitPlain e item 0 r x y
  | some m =>
    let b := blitWithState e item 0 r x y
    b.2++if b.1.isEmpty then [] else
      if m.m 0 = 0x10000 ∧ m.m 1 = 0 ∧ m.m 3 = 0 ∧ m.m 4 = 0x10000 then
        locked (blitPlain e item 1 r (x+(m.m 2+0x8000)/2^16) (y+(m.m 5+0x8000)/2^16))
      else if m.turns then withSoftware e ⟨.texTriangles,item,0,0⟩ [.software item .texture]
      else withSoftware e ⟨.stretchBlit,item,0,0⟩
        ((scaledBlit e m r ⟨x,y,r.w,r.h⟩).map (.software item))

/-- `dfb_gfxcard_blit`. -/
def blit (r : Rect) (x y : ℤ) : List Mark := locked (blitLocked e 0 r x y)

/-- The software for blits that the driver left. -/
def softBlits (depth : ℕ) (ps : List (ℕ × Rect × ℤ × ℤ)) : List Mark :=
  match e.matrix with
  | none => withSoftware e ⟨.blit,0,0,depth⟩ (draw (fun b =>
      if blitVisible e b.1 b.2.1 b.2.2 then [clippedBlit e b.1 b.2.1 b.2.2] else []) ps)
  | some m =>
    if m.turns then withSoftware e ⟨.texTriangles,0,0,depth⟩ (draw (fun _ => [.texture]) ps)
    else withSoftware e ⟨.stretchBlit,0,0,depth⟩
      (draw (fun b => scaledBlit e m b.1 ⟨b.2.1,b.2.2,b.1.w,b.1.h⟩) ps)

/-- `clip_blits`. -/
def clipBlits (ps : List (ℕ × Rect × ℤ × ℤ)) : List (ℕ × Shape) :=
  ps.filterMap fun p => if blitVisible e p.2.1 p.2.2.1 p.2.2.2 then
    some (p.1,clippedBlit e p.2.1 p.2.2.1 p.2.2.2) else none

/-- One round of the loop of `dfb_gfxcard_batchblit`. -/
def attemptBlit (b : Rect × ℤ × ℤ) : Attempt (Rect × ℤ × ℤ) :=
  if e.matrix.isSome || blitVisible e b.1 b.2.1 b.2.2 then
    .call (driverBlit e b.1 b.2.1 b.2.2) b
  else .skip

/-- `BatchBlit` or the loop. Without memory for more than 256 blits nothing is done. -/
def blitsLoop (ps : List (ℕ × Rect × ℤ × ℤ)) : List (ℕ × Rect × ℤ × ℤ) × List Mark :=
  if e.batchBlit then
    if !e.clipping .blit then
      if ps.length ≤ 256 || e.alloc then
        (remaining ps (e.batch .blit),executed (clipBlits e ps) (e.batch .blit))
      else (ps,[])
    else (remaining ps (e.batch .blit),
      executed (ps.map fun p => (p.1,.blit p.2.1 p.2.2.1 p.2.2.2)) (e.batch .blit))
  else drive (fun i => e.accept ⟨.blit,i,0,0⟩) (attemptBlit e) ps

/-- `dfb_gfxcard_batchblit`. -/
def batchblit (blits : List (Rect × ℤ × ℤ)) : List Mark :=
  let r := withState e ⟨.blit,0,0,0⟩ (indexed blits) (blitsLoop e)
  locked (r.2++if r.1.isEmpty then [] else softBlits e 0 r.1)

structure Blit2 where
  rect : Rect
  x : ℤ
  y : ℤ
  x2 : ℤ
  y2 : ℤ
  deriving DecidableEq

def clippedBlit2 (b : Blit2) : Shape :=
  let c := clipBlit e.clip b.rect b.x b.y
  .blit2 c.1 c.2.1 c.2.2 (b.x2+(c.2.1-b.x)) (b.y2+(c.2.2-b.y))

def blit2Visible (b : Blit2) : Bool := clipBlitPrecheck e.clip b.rect.w b.rect.h b.x b.y

/-- One round of the loop of `dfb_gfxcard_batchblit2`. -/
def attemptBlit2 (b : Blit2) : Attempt Blit2 :=
  if e.matrix.isSome || blit2Visible e b then
    .call (if !e.clipping .blit2 then clippedBlit2 e b else .blit2 b.rect b.x b.y b.x2 b.y2) b
  else .skip

/-- `dfb_gfxcard_batchblit2`, which has no software for what is left. -/
def batchblit2 (blits : List Blit2) : List Mark :=
  locked (withState e ⟨.blit2,0,0,0⟩ (indexed blits)
    (drive (fun i => e.accept ⟨.blit2,i,0,0⟩) (attemptBlit2 e))).2

def firstTile (d c size : ℤ) : ℤ := if d < c then d+((c-d)-Int.tmod (c-d) size) else d

def lastTile (d c size : ℤ) : ℤ := if d > c then d-((c-d)-Int.tmod (c-d) size) else d

def steps (d1 d2 size : ℤ) : List ℤ :=
  (List.range (Int.toNat ((d2-d1+size-1)/size))).map fun k => d1+k*size

def tiles (rect : Rect) (dx1 dy1 dx2 dy2 : ℤ) : List (ℤ × ℤ) :=
  let xs := steps (firstTile dx1 e.clip.x1 rect.w) (lastTile dx2 e.clip.x2 rect.w) rect.w
  (steps (firstTile dy1 e.clip.y1 rect.h) (lastTile dy2 e.clip.y2 rect.h) rect.h).flatMap fun y =>
    xs.map fun x => (x,y)

def clippedTile (rect : Rect) (t : ℤ × ℤ) : Shape :=
  let c := clipBlit e.clip rect t.1 t.2
  .blit c.1 c.2.1 c.2.2

/-- One round of the loop of `dfb_gfxcard_tileblit`. -/
def attemptTile (rect : Rect) (t : ℤ × ℤ) : Attempt (ℤ × ℤ) :=
  if clipBlitPrecheck e.clip rect.w rect.h t.1 t.2 then
    .call (if !e.clipping .blit then clippedTile e rect t else .blit rect t.1 t.2) t
  else .skip

/-- The software for tiles that the driver left. -/
def softTiles (rect : Rect) (ps : List (ℕ × ℤ × ℤ)) : List Mark :=
  match e.matrix with
  | none => withSoftware e ⟨.blit,0,0,0⟩ (draw (fun t =>
      if clipBlitPrecheck e.clip rect.w rect.h t.1 t.2 then [clippedTile e rect t] else []) ps)
  | some m =>
    if m.turns then withSoftware e ⟨.texTriangles,0,0,0⟩ (draw (fun _ => [.texture]) ps)
    else withSoftware e ⟨.stretchBlit,0,0,0⟩
      (draw (fun t => scaledBlit e m rect ⟨t.1,t.2,rect.w,rect.h⟩) ps)

/-- `dfb_gfxcard_tileblit`. -/
def tileblit (rect : Rect) (dx1 dy1 dx2 dy2 : ℤ) : List Mark :=
  if e.matrix.isNone && !clipBlitPrecheck e.clip (dx2-dx1+1) (dy2-dy1+1) dx1 dy1 then locked []
  else
    let r := withState e ⟨.blit,0,0,0⟩ (indexed (tiles e rect dx1 dy1 dx2 dy2))
      (drive (fun i => e.accept ⟨.blit,i,0,0⟩) (attemptTile e rect))
    locked (r.2++if r.1.isEmpty then [] else softTiles e rect r.1)

def sameSize (srect drect : Rect) : Bool :=
  srect.w = drect.w && srect.h = drect.h || e.rotate90 && srect.w = drect.h && srect.h = drect.w

/-- The loop of `dfb_gfxcard_batchstretchblit`, with whether the state is acquired. The state is
released for a blit that is not stretched, which acquires it by itself. `clipped` is
`dfb_clip_stretchblit`. -/
def stretchLoop (clipped : Rect → Rect → Rect × Rect) :
    Bool → List (ℕ × Rect × Rect) → List (ℕ × Rect × Rect) × Bool × List Mark
  | acquired, [] => ([],acquired,[])
  | acquired, (i,srect,drect)::ps =>
    if !acquired && !e.checkAcquire ⟨.stretchBlit,i,0,0⟩ then ((i,srect,drect)::ps,false,[])
    else
      let start : List Mark := if acquired then [] else [.acquired .stretchBlit]
      if sameSize e srect drect then
        let r := stretchLoop clipped false ps
        (r.1,r.2.1,start++.released::blitLocked e i srect drect.x drect.y++r.2.2)
      else if e.matrix.isNone && !clipBlitPrecheck e.clip drect.w drect.h drect.x drect.y then
        let r := stretchLoop clipped true ps
        (r.1,r.2.1,start++r.2.2)
      else
        let c := if !e.clipping .stretchBlit then clipped srect drect else (srect,drect)
        if e.accept ⟨.stretchBlit,i,0,0⟩ then
          let r := stretchLoop clipped true ps
          (r.1,r.2.1,start++.driver i (.stretch c.1 c.2) true::r.2.2)
        else ((i,c)::ps,true,start++[.driver i (.stretch c.1 c.2) false])

def softStretch (b : Rect × Rect) : List Shape :=
  match e.matrix with
  | none =>
    if clipBlitPrecheck e.clip b.2.w b.2.h b.2.x b.2.y then [.stretch b.1 b.2] else []
  | some m => if m.turns then [.texture] else scaledBlit e m b.1 b.2

/-- `dfb_gfxcard_batchstretchblit`. -/
def batchstretchblit (clipped : Rect → Rect → Rect × Rect) (blits : List (Rect × Rect)) : List Mark :=
  let r := stretchLoop e clipped false (indexed blits)
  let accel : Accel := if e.matrix.any Matrix.turns then .texTriangles else .stretchBlit
  locked (r.2.2++(if r.2.1 then [.released] else [])++if r.1.isEmpty then [] else
    withSoftware e ⟨accel,0,0,0⟩ (draw (softStretch e) r.1))

end Blits

end DirectFB.GfxcardDraw
