import DirectFB.Genefx

/-! The operands of the software renderer: where the pixels of a surface are and how an operand
is moved from line to line. -/
namespace DirectFB
namespace Genefx

/-- What the renderer knows of a surface with packed pixels. Addresses count in the unit of the
surface, which is a pixel, or a byte if pixels have three. A separated surface has its even lines
in the first half and its odd lines in the second. -/
structure Surface where
  org : ℤ
  pitch : ℤ
  unit : ℤ
  width : ℤ
  height : ℤ
  separated : Bool
  unit_pos : 0 < unit
  fits : width*unit ≤ pitch
  halves : separated = true → height%2 = 0

/-- `dst_field_offset` or `src_field_offset`. -/
def Surface.fieldOffset (s : Surface) : ℤ := s.height/2*s.pitch

def Surface.at (s : Surface) (x y : ℤ) : ℤ :=
  if s.separated then s.org+(if y%2 = 1 then s.fieldOffset else 0)+y/2*s.pitch+x*s.unit
  else s.org+y*s.pitch+x*s.unit

/-- `Aop[0]` and the parity of `Aop_field`, or `Bop[0]` and the parity of `Bop_field`. -/
@[ext] structure Xop where
  addr : ℤ
  field : Bool

/-- `Genefx_Aop_xy` and `Genefx_Bop_xy`. -/
def xopXY (s : Surface) (x y : ℤ) : Xop where
  addr := s.at x y
  field := s.separated && y%2 == 1

/-- `Genefx_Aop_next` and `Genefx_Bop_next`. -/
def xopNext (s : Surface) (p : Xop) : Xop :=
  if s.separated then
    if !p.field then ⟨p.addr+s.fieldOffset,!p.field⟩
    else ⟨p.addr+(s.pitch-s.fieldOffset),!p.field⟩
  else ⟨p.addr+s.pitch,p.field⟩

/-- `Genefx_Aop_prev` and `Genefx_Bop_prev`. -/
def xopPrev (s : Surface) (p : Xop) : Xop :=
  if s.separated then
    if !p.field then ⟨p.addr+(s.fieldOffset-s.pitch),!p.field⟩
    else ⟨p.addr-s.fieldOffset,!p.field⟩
  else ⟨p.addr-s.pitch,p.field⟩

/-- `Genefx_Aop_crab`. -/
def xopCrab (s : Surface) (p : Xop) : Xop := {p with addr := p.addr+s.unit}

/-- `Genefx_Aop_prev_crab`. -/
def xopPrevCrab (s : Surface) (p : Xop) : Xop := {p with addr := p.addr-s.unit}

section Lines

variable (s : Surface) (x y : ℤ)

end Lines

section Distinct

variable {s : Surface} {x y x' y' : ℤ}

def Surface.line (s : Surface) (y : ℤ) : ℤ :=
  if s.separated then (if y%2 = 1 then s.height/2 else 0)+y/2 else y

end Distinct

end Genefx

end DirectFB
