import DirectFB.Region

/-! The software clipping of rectangles, lines, triangles and blits. -/
namespace DirectFB.Clip

/-- `DFBRectangle`. -/
structure Rect where
  x : ℤ
  y : ℤ
  w : ℤ
  h : ℤ
  deriving DecidableEq, Repr

/-- `DFB_REGION_INIT_FROM_RECTANGLE`. -/
def Rect.region (r : Rect) : Region := ⟨r.x,r.y,r.x+r.w-1,r.y+r.h-1⟩

/-- `dfb_rectangle_from_region`. -/
def ofRegion (r : Region) : Rect := ⟨r.x1,r.y1,r.x2-r.x1+1,r.y2-r.y1+1⟩

/-- `dfb_rectangle_region_intersects`. -/
def intersects (r : Rect) (region : Region) : Bool :=
  r.x ≤ region.x2 && r.y ≤ region.y2 && region.x1 < r.x+r.w && region.y1 < r.y+r.h

/-- `dfb_clip_rectangle`. -/
def clipRectangle (clip : Region) (r : Rect) : Option Rect :=
  if clip.x1 ≥ r.x+r.w ∨ clip.x2 < r.x ∨ clip.y1 ≥ r.y+r.h ∨ clip.y2 < r.y then none
  else
    let r := if clip.x1 > r.x then {r with w := r.w+(r.x-clip.x1), x := clip.x1} else r
    let r := if clip.y1 > r.y then {r with h := r.h+(r.y-clip.y1), y := clip.y1} else r
    let r := if clip.x2 < r.x+r.w-1 then {r with w := clip.x2-r.x+1} else r
    some (if clip.y2 < r.y+r.h-1 then {r with h := clip.y2-r.y+1} else r)

/-- `dfb_clip_needed`. -/
def clipNeeded (clip : Region) (r : Rect) : Bool :=
  clip.x1 > r.x || clip.y1 > r.y || clip.x2 < r.x+r.w-1 || clip.y2 < r.y+r.h-1

/-- The edges of a rectangle that are not cut off, `DFBEdgeFlags`. -/
structure Edges where
  left : Bool
  right : Bool
  top : Bool
  bottom : Bool

/-- `dfb_clip_edges`, with the rectangle it leaves. -/
def clipEdges (clip : Region) (r : Rect) : Edges × Rect :=
  match clipRectangle clip r with
  | none => (⟨false,false,false,false⟩,r)
  | some c => (⟨clip.x1 ≤ r.x,r.x+r.w-1 ≤ clip.x2,clip.y1 ≤ r.y,r.y+r.h-1 ≤ clip.y2⟩,c)

/-- `dfb_build_clipped_rectangle_outlines`. -/
def outlines (clip : Region) (rect : Rect) : List Rect :=
  let e := clipEdges clip rect
  let r := e.2
  let t : ℤ := if e.1.top then 1 else 0
  let tb : ℤ := t+if e.1.bottom then 1 else 0
  (if e.1.top then [⟨r.x,r.y,r.w,1⟩] else [])++
  if r.h > t then
    (if e.1.bottom then [⟨r.x,r.y+r.h-1,r.w,1⟩] else [])++
    if r.h > tb then
      (if e.1.left then [⟨r.x,r.y+t,1,r.h-tb⟩] else [])++
      if (r.w > 1 ∨ !e.1.left) ∧ e.1.right then [⟨r.x+r.w-1,r.y+t,1,r.h-tb⟩] else []
    else []
  else []

/-- The bits of `REGION_CODE` for one point. -/
structure Code where
  below : Bool
  above : Bool
  right : Bool
  left : Bool
  deriving DecidableEq

def code (clip : Region) (x y : ℤ) : Code := ⟨y > clip.y2,y < clip.y1,x > clip.x2,x < clip.x1⟩

def Code.outside (c : Code) : Bool := c.below || c.above || c.right || c.left

def Code.common (c d : Code) : Bool :=
  c.below && d.below || c.above && d.above || c.right && d.right || c.left && d.left

def atRow (line : Region) (y : ℤ) : Option (ℤ × ℤ) :=
  if line.y2-line.y1 = 0 then none
  else some (line.x1+Int.tdiv ((line.x2-line.x1)*(y-line.y1)) (line.y2-line.y1),y)

def atColumn (line : Region) (x : ℤ) : Option (ℤ × ℤ) :=
  if line.x2-line.x1 = 0 then none
  else some (x,line.y1+Int.tdiv ((line.y2-line.y1)*(x-line.x1)) (line.x2-line.x1))

def divide (clip line : Region) (c : Code) : Option (ℤ × ℤ) :=
  if c.below then atRow line clip.y2
  else if c.above then atRow line clip.y1
  else if c.right then atColumn line clip.x2
  else atColumn line clip.x1

def setFirst (line : Region) (p : ℤ × ℤ) : Region := {line with x1 := p.1, y1 := p.2}

def setSecond (line : Region) (p : ℤ × ℤ) : Region := {line with x2 := p.1, y2 := p.2}

/-- The loop of `dfb_clip_line` within `fuel` rounds: the answer and the line. -/
def clipLineLoop (clip : Region) : ℕ → Region → Option (Bool × Region)
  | 0, _ => none
  | n+1, line =>
    let code1 := code clip line.x1 line.y1
    let code2 := code clip line.x2 line.y2
    if code1.outside || code2.outside then
      if code1.common code2 then some (false,line)
      else if code1.outside then
        (divide clip line code1).bind fun p => clipLineLoop clip n (setFirst line p)
      else (divide clip line code2).bind fun p => clipLineLoop clip n (setSecond line p)
    else some (true,line)

/-- `dfb_clip_line`, with the line if the answer is `true`. -/
def clipLine (clip line : Region) : Option Region :=
  (clipLineLoop clip 5 line).bind fun r => if r.1 then some r.2 else none

/-- `DFBTriangle`. -/
structure Triangle where
  x1 : ℤ
  y1 : ℤ
  x2 : ℤ
  y2 : ℤ
  x3 : ℤ
  y3 : ℤ
  deriving DecidableEq, Repr

/-- `dfb_line_segment_intersect`, which takes the row of the end for its column. -/
def lineSegmentIntersect (line seg : Region) : Option (ℤ × ℤ) :=
  let x2 := seg.y2
  let num := (line.x2-line.x1)*(seg.y1-line.y1)-(line.y2-line.y1)*(seg.x1-line.x1)
  let den := (line.y2-line.y1)*(x2-seg.x1)-(line.x2-line.x1)*(seg.y2-seg.y1)
  if den = 0 then none
  else if num ≠ 0 ∧ (decide (num < 0) ≠ decide (den < 0) ∨ |num| > |den|) then none
  else some (Int.tdiv ((x2-seg.x1)*num) den+seg.x1,Int.tdiv ((seg.y2-seg.y1)*num) den+seg.y1)

/-- What becomes of one edge of a triangle, if it is not removed. -/
def clipEdge (clip reg : Region) : Option Region :=
  match clipLine clip reg with
  | some line => some line
  | none =>
    let p1 := (lineSegmentIntersect ⟨clip.x1,clip.y1,clip.x2,clip.y2⟩ reg).map fun p =>
      if p.1 ≤ clip.x1 ∨ p.2 ≤ clip.y1 then (clip.x1,clip.y1) else (clip.x2,clip.y2)
    let p2 := (lineSegmentIntersect ⟨clip.x2,clip.y1,clip.x1,clip.y2⟩ reg).map fun p =>
      if p.1 ≥ clip.x2 ∨ p.2 ≤ clip.y1 then (clip.x2,clip.y1) else (clip.x1,clip.y2)
    match p1, p2 with
    | some p, some q => some ⟨p.1,p.2,q.1,q.2⟩
    | some p, none => some ⟨p.1,p.2,p.1,p.2⟩
    | none, some q => some ⟨q.1,q.2,q.1,q.2⟩
    | none, none => none

def addVertex (p : List (ℤ × ℤ)) (v : ℤ × ℤ) : List (ℤ × ℤ) :=
  if p.getLast? = some v then p else p++[v]

/-- `dfb_clip_triangle`, with the vertices of the polygon. -/
def clipTriangle (clip : Region) (tri : Triangle) : Option (List (ℤ × ℤ)) :=
  let edges := [(⟨tri.x1,tri.y1,tri.x2,tri.y2⟩ : Region),⟨tri.x2,tri.y2,tri.x3,tri.y3⟩,
    ⟨tri.x3,tri.y3,tri.x1,tri.y1⟩].filterMap (clipEdge clip)
  let p := edges.foldl (fun p e => addVertex (addVertex p (e.x1,e.y1)) (e.x2,e.y2)) []
  let p := if p.getLast? = p.head? then p.dropLast else p
  if 3 ≤ p.length then some p else none

/-- `dfb_sort_triangle`. -/
def sortTriangle (t : Triangle) : Triangle :=
  let t := if t.y1 > t.y2 then ⟨t.x2,t.y2,t.x1,t.y1,t.x3,t.y3⟩ else t
  let t := if t.y2 > t.y3 then ⟨t.x1,t.y1,t.x3,t.y3,t.x2,t.y2⟩ else t
  if t.y1 > t.y2 then ⟨t.x2,t.y2,t.x1,t.y1,t.x3,t.y3⟩ else t

/-- `dfb_clip_blit_precheck`. -/
def clipBlitPrecheck (clip : Region) (w h dx dy : ℤ) : Bool :=
  !(w < 1 || h < 1 || clip.x1 ≥ dx+w || clip.x2 < dx || clip.y1 ≥ dy+h || clip.y2 < dy)

/-- One direction of `dfb_clip_blit`: the position in the source, the size and the destination. -/
def clipBlitAxis (x1 x2 sx w dx : ℤ) : ℤ × ℤ × ℤ :=
  if x1 > dx then (sx+(x1-dx),min (x2-x1+1) (dx+w-x1),x1)
  else if x2 < dx+w-1 then (sx,x2-dx+1,dx)
  else (sx,w,dx)

/-- `dfb_clip_blit`. -/
def clipBlit (clip : Region) (srect : Rect) (dx dy : ℤ) : Rect × ℤ × ℤ :=
  let x := clipBlitAxis clip.x1 clip.x2 srect.x srect.w dx
  let y := clipBlitAxis clip.y1 clip.y2 srect.y srect.h dy
  (⟨x.1,y.1,x.2.1,y.2.1⟩,x.2.2,y.2.2)

/-- The blitting flags that turn or mirror, as `dfb_simplify_blittingflags` leaves them. -/
structure Rotation where
  flipHorizontal : Bool := false
  flipVertical : Bool := false
  rotate90 : Bool := false
  deriving DecidableEq

/-- `dfb_region_region_intersect`, of which the caller here does not look at the result. -/
def intersectRegion (region clip : Region) : Region := (region.intersect clip).getD region

/-- `dfb_clip_blit_flipped_rotated`. -/
def clipBlitFlippedRotated (clip : Region) (srect drect : Rect) (flags : Rotation) : Rect × Rect :=
  let dest := drect.region
  let clipped := intersectRegion dest clip
  let drect := ofRegion clipped
  let offset : ℤ × ℤ := match flags.rotate90, flags.flipHorizontal, flags.flipVertical with
    | false, false, false => (clipped.x1-dest.x1,clipped.y1-dest.y1)
    | false, true, false => (dest.x2-clipped.x2,clipped.y1-dest.y1)
    | false, false, true => (clipped.x1-dest.x1,dest.y2-clipped.y2)
    | true, false, false => (dest.y2-clipped.y2,clipped.x1-dest.x1)
    | false, true, true => (dest.x2-clipped.x2,dest.y2-clipped.y2)
    | true, true, true => (clipped.y1-dest.y1,dest.x2-clipped.x2)
    | true, true, false => (clipped.y1-dest.y1,clipped.x1-dest.x1)
    | true, false, true => (dest.y2-clipped.y2,dest.x2-clipped.x2)
  let size : ℤ × ℤ := if flags.rotate90 then (drect.h,drect.w) else (drect.w,drect.h)
  (⟨srect.x+offset.1,srect.y+offset.2,size.1,size.2⟩,drect)

end DirectFB.Clip
