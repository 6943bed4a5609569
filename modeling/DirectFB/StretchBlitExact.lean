import DirectFB.Reaches
import DirectFB.StretchBlit

/-! Which source pixel each pixel of a stretch blit gets. -/
namespace DirectFB
namespace StretchBlit
open Genefx Span Transition

section Clip

variable {r d : Rect} {c : Region}

def Rect.Contains (r : Rect) (x y : ℤ) : Prop := (r.x ≤ x ∧ x < r.x+r.w) ∧ r.y ≤ y ∧ y < r.y+r.h

def Region.Contains (c : Region) (x y : ℤ) : Prop := (c.x1 ≤ x ∧ x ≤ c.x2) ∧ c.y1 ≤ y ∧ y ≤ c.y2

theorem not_contains_of_intersect (h : r.intersectByRegion c = none) (x y : ℤ) :
    ¬(r.Contains x y ∧ c.Contains x y) := by
  obtain ⟨rx,ry,rw,rh⟩ := r
  obtain ⟨x1,y1,x2,y2⟩ := c
  simp only [Rect.intersectByRegion,ite_eq_left_iff,reduceCtorEq,imp_false,not_not] at h
  simp only [Rect.Contains,Region.Contains]
  split_ifs at h <;> simp only at * <;> omega

end Clip

section Axis

/-- One direction of a blit: `n` source pixels are stretched over `o`, of which `d` are left
behind the first `c`. -/
structure Axis where
  n : ℤ
  o : ℤ
  c : ℤ
  d : ℤ

def Axis.f (a : Axis) : ℤ := a.n*65536/a.o

def Axis.phase (a : Axis) : ℤ := a.f*a.c%65536

def Axis.part (a : Axis) : ℤ := (a.d*a.f+a.phase+0xFFFF)/65536

structure Axis.Valid (a : Axis) : Prop where
  source : 0 < a.n
  target : 0 < a.o ∧ a.o < 32768
  offset : 0 ≤ a.c
  visible : 0 < a.d
  within : a.c+a.d ≤ a.o

variable {a : Axis}

theorem Axis.Valid.f_pos (h : a.Valid) : 0 < a.f := by
  have hsource := h.source
  have htarget := h.target
  exact Int.le_ediv_of_mul_le htarget.1 (by omega)

theorem Axis.Valid.mul_le (h : a.Valid) : a.o*a.f ≤ a.n*65536 :=
  Int.mul_ediv_self_le h.target.1.ne'

theorem Axis.Valid.inside (h : a.Valid) {k : ℤ} (hk : 0 ≤ k ∧ k < a.d) :
    0 ≤ (a.c+k)*a.f/65536 ∧ (a.c+k)*a.f/65536 < a.n := by
  have hpos := h.f_pos
  have hoffset := h.offset
  have hwithin := h.within
  have hle : (a.c+k+1)*a.f ≤ a.o*a.f := mul_le_mul_of_nonneg_right (by omega) hpos.le
  have hmul := h.mul_le
  have hnonneg : 0 ≤ (a.c+k)*a.f := mul_nonneg (by omega) hpos.le
  rw [add_mul,one_mul] at hle
  omega

theorem Axis.Valid.part_le (h : a.Valid) : a.f*a.c/65536+a.part ≤ a.n := by
  have hle : (a.c+a.d)*a.f ≤ a.o*a.f := mul_le_mul_of_nonneg_right h.within h.f_pos.le
  have hmul := h.mul_le
  rw [add_mul,mul_comm a.c] at hle
  rw [Axis.part,Axis.phase]
  omega

end Axis

section Geometry

variable (f : Rotflip) (srect orect drect : Rect)

def offsets : ℤ × ℤ :=
  let left := drect.x-orect.x
  let right := orect.x+orect.w-1-(drect.x+drect.w-1)
  let top := drect.y-orect.y
  let bottom := orect.y+orect.h-1-(drect.y+drect.h-1)
  (if if f.rotate90 then f.flipV else f.flipH then right else left,
    if if f.rotate90 then !f.flipH else f.flipV then bottom else top)

def columns : Axis :=
  if f.rotate90 then ⟨srect.w,orect.h,(offsets f orect drect).2,drect.h⟩
  else ⟨srect.w,orect.w,(offsets f orect drect).1,drect.w⟩

def rows : Axis :=
  if f.rotate90 then ⟨srect.h,orect.w,(offsets f orect drect).1,drect.w⟩
  else ⟨srect.h,orect.h,(offsets f orect drect).2,drect.h⟩

def undone (X Y : ℤ) : ℤ × ℤ :=
  if f.rotate90 then (if f.flipH then Y else orect.h-1-Y,if f.flipV then orect.w-1-X else X)
  else (if f.flipH then orect.w-1-X else X,if f.flipV then orect.h-1-Y else Y)

def source (X Y : ℤ) : ℤ × ℤ :=
  let (u,v) := undone f orect X Y
  let (fu,fv) := if f.rotate90 then (srect.w*65536/orect.h,srect.h*65536/orect.w)
    else (srect.w*65536/orect.w,srect.h*65536/orect.h)
  (srect.x+u*fu/65536,srect.y+v*fv/65536)

def Rotflip.rotate270 (f : Rotflip) : Bool := f.rotate90 && f.flipH && f.flipV

/-- The pixel that is written `k`-th in the `j`-th line. -/
def place (j k : ℤ) : ℤ × ℤ :=
  if f.rotate90 then
    (if f.flipV && !f.flipH then drect.x+(drect.w-1)-j else drect.x+j,
      if f.flipH then drect.y+k else drect.y+(drect.h-1)-k)
  else
    (if f.flipH then drect.x+(drect.w-1)-k else drect.x+k,
      if f.flipV then drect.y+(drect.h-1)-j else drect.y+j)

def Rotflip.count (f : Rotflip) (drect : Rect) : ℤ := if f.rotate90 then drect.w else drect.h

def Rotflip.span (f : Rotflip) (drect : Rect) : ℤ := if f.rotate90 then drect.h else drect.w

variable {f orect drect}

end Geometry

section Walks

variable (c : Setup) (srect drect : Rect)

/-- The factor of `Astep`. -/
def Setup.factor (c : Setup) : ℤ :=
  if c.flags.rotate90 then
    if c.flags.flipH then c.dst.pitch.tdiv c.dst.unit else (-c.dst.pitch).tdiv c.dst.unit
  else if c.flags.flipH then -1 else 1

def Setup.along (c : Setup) : ℤ :=
  if c.flags.rotate90 then if c.flags.flipH then c.dst.pitch else -c.dst.pitch
  else if c.flags.flipH then -c.dst.unit else c.dst.unit

def StepKept (Astep : ℤ) : Prop :=
  c.flags.span drect ≤ 1 ∨ (c.flags.rotate90 = true → c.dst.separated = false) ∧
    saccStep c (Astep*c.factor)*c.dst.unit = c.along

end Walks

section Lines

end Lines

section Pipelines

variable {c : Setup} {S : ℤ → Option Pixel} {p : Line}

def Setup.convert (c : Setup) (s : Pixel) : Pixel :=
  if c.pipeline = .direct then s else c.pixelOut (c.expand s)

variable {A B : Xop} {g : ℤ → Pixel} {addr : ℕ → ℤ}

end Pipelines

section Places

variable {c : Setup} {drect : Rect} {v : ℤ × ℤ → Pixel} {D : ℤ → Pixel}

def placed (c : Setup) (drect : Rect) (v : ℤ × ℤ → Pixel) : Stored :=
  (List.range (c.flags.count drect).toNat).flatMap fun j : ℕ =>
    (List.range (c.flags.span drect).toNat).map fun k : ℕ =>
      (c.dst.at (place c.flags drect j k).1 (place c.flags drect j k).2,
        some (v (place c.flags drect j k)))

end Places

section Calls

variable {c : Setup} {S : ℤ → Option Pixel} {st : State} {srect orect : Rect}

structure Sized (srect orect : Rect) : Prop where
  source : (0 < srect.w ∧ srect.w < 32768) ∧ 0 < srect.h ∧ srect.h < 32768
  target : (0 < orect.w ∧ orect.w < 32768) ∧ 0 < orect.h ∧ orect.h < 32768

def Readable (c : Setup) (S : ℤ → Option Pixel) (srect : Rect) : Prop :=
  ∀ x y, srect.Contains x y → (S (c.src.at x y)).isSome

/-- What the clipped blit keeps of the whole one: `Astep` fits, the phase is not lost in the
function for 64 bits, and the phase of the columns leads to the same lines as that of the lines. -/
structure Kept (c : Setup) (Astep : ℤ) (srect orect drect : Rect) : Prop where
  step : c.flags.rotate90 = true ∨ c.flags.flipH = true → StepKept c drect Astep
  phase : c.pipeline = .direct → c.long64 = true → ∀ k, 0 ≤ k → k < drect.w →
    let u := columns c.flags srect orect drect
    k*u.f/65536 = (u.phase+k*u.f)/65536
  lines : c.flags.rotate90 = true → ∀ j, 0 ≤ j → j < drect.w →
    let u := columns c.flags srect orect drect
    let v := rows c.flags srect orect drect
    if c.flags.rotate270 then v.part-1-(u.phase+j*v.f)/65536 = (v.phase+(v.d-1-j)*v.f)/65536
    else (u.phase+j*v.f)/65536 = (v.phase+j*v.f)/65536

def value (c : Setup) (S : ℤ → Option Pixel) (srect orect : Rect) (q : ℤ × ℤ) : Pixel :=
  c.convert ((S (c.src.at (source c.flags srect orect (q.1-orect.x) (q.2-orect.y)).1
    (source c.flags srect orect (q.1-orect.x) (q.2-orect.y)).2)).getD 0)

variable {drect : Rect}

def clipped (c : Setup) (srect orect drect : Rect) : Rect :=
  let u := columns c.flags srect orect drect
  let v := rows c.flags srect orect drect
  ⟨srect.x+u.f*u.c/65536,srect.y+v.f*v.c/65536,u.part,v.part⟩

structure Fits (c : Setup) (st : State) (e : Call) : Prop where
  sized : Sized e.srect e.drect
  readable : Readable c e.S e.srect
  kept : ∀ drect, e.drect.intersectByRegion c.clip = some drect →
    Kept c st.Astep e.srect e.drect drect

variable {e : Call}

end Calls

end StretchBlit

end DirectFB
