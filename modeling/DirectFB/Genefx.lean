import DirectFB.Span

/-! State of the software renderer and the functions that process one span of pixels. -/
namespace DirectFB
namespace Genefx
open Span Function

/-- `GenefxAccumulator`, its `RGB` side. -/
structure Accumulator where
  b : BitVec 16
  g : BitVec 16
  r : BitVec 16
  a : BitVec 16
  deriving DecidableEq

/-- `DFBColor`. -/
structure Color where
  a : BitVec 8
  r : BitVec 8
  g : BitVec 8
  b : BitVec 8
  deriving DecidableEq

/-- What the functions read of `GenefxState`. The addresses count pixels. -/
structure GenefxState where
  length : ℕ
  Aop : ℤ
  Bop : ℤ
  Astep : ℤ
  Ostep : ℤ
  Xphase : ℕ
  SperD : ℕ
  Skey : BitVec 32
  Dkey : BitVec 32
  Cop : BitVec 32
  color : Color

abbrev Pixels (w : ℕ) := ℤ → BitVec w

section Templates

variable {w : ℕ} {γ : Type*}

def keyed (mask Skey s : BitVec w) : Option (BitVec w) := if s &&& mask ≠ Skey then some s else none

def matching (mask Dkey s d : BitVec w) : Option (BitVec w) :=
  if d &&& mask = Dkey then some s else none

def ktoPixel (mask Skey : BitVec w) (m : Pixels w) (D S : ℤ) : Pixels w :=
  let s := m S
  if s &&& mask ≠ Skey then update m D s else m

def toKPixel (mask Dkey : BitVec w) (m : Pixels w) (D S : ℤ) : Pixels w :=
  if m D &&& mask = Dkey then update m D (m S) else m

/-- One pixel at a time, in the direction of `Ostep`. -/
def plain (pixel : Pixels w → ℤ → ℤ → Pixels w) (gfxs : GenefxState) (m : Pixels w) : Pixels w :=
  let S := if gfxs.Ostep < 0 then gfxs.Bop+(gfxs.length-1) else gfxs.Bop
  let D := if gfxs.Ostep < 0 then gfxs.Aop+(gfxs.length-1) else gfxs.Aop
  (steps pixel gfxs.Ostep (·+gfxs.Ostep) gfxs.length m D S).1

/-- The loop over two pixels at a time, in the direction of `Ostep`. It is used where both spans
have the same alignment, and a first and a last pixel may be left to be done alone. -/
def paired (pixel pair : Pixels w → ℤ → ℤ → Pixels w) (gfxs : GenefxState) (m : Pixels w) :
    Pixels w :=
  let Ostep := gfxs.Ostep
  let S := if Ostep < 0 then gfxs.Bop+(gfxs.length-1) else gfxs.Bop
  let D := if Ostep < 0 then gfxs.Aop+(gfxs.length-1) else gfxs.Aop
  let (m,D,S,l) :=
    if 0 < Ostep then
      if D%2 = 1 then (pixel m D S,D+1,S+1,gfxs.length-1) else (m,D,S,gfxs.length)
    else
      if D%2 = 1 then (m,D-1,S-1,gfxs.length) else (pixel m D S,D-2,S-2,gfxs.length-1)
  let (m,D,S) := steps pair (2*Ostep) (·+2*Ostep) (l/2) m D S
  if l%2 = 1 then
    if Ostep < 0 then pixel m (D+1) (S+1) else pixel m D S
  else m

/-- A function of `template_colorkey_16.h` that has a direction. -/
def directed (pixel pair : Pixels w → ℤ → ℤ → Pixels w) (gfxs : GenefxState) (m : Pixels w) :
    Pixels w :=
  let S := if gfxs.Ostep < 0 then gfxs.Bop+(gfxs.length-1) else gfxs.Bop
  let D := if gfxs.Ostep < 0 then gfxs.Aop+(gfxs.length-1) else gfxs.Aop
  if S%2 ≠ D%2 then plain pixel gfxs m else paired pixel pair gfxs m

def forward (head pixel pair : Pixels w → ℤ → γ → Pixels w) (next next2 : γ → γ) (length : ℕ)
    (m : Pixels w) (D : ℤ) (c : γ) : Pixels w :=
  let (m,D,c,l) :=
    if D%2 = 1 then (head m D c,D+1,next c,length-1) else (m,D,c,length)
  let (m,D,c) := steps pair 2 next2 (l/2) m D c
  if l%2 = 1 then pixel m D c else m

end Templates

section Keys16

/-- `MASK_RGB_L`. -/
def maskRgbL (rgbMask : BitVec 16) (p : BitVec 32) : BitVec 32 := p &&& rgbMask.setWidth 32

/-- `MASK_RGB_H`. -/
def maskRgbH (rgbMask : BitVec 16) (p : BitVec 32) : BitVec 32 :=
  p &&& rgbMask.setWidth 32 <<< 16

/-- `MASK_RGB_32`. -/
def maskRgb32 (rgbMask : BitVec 16) (p : BitVec 32) : BitVec 32 :=
  p &&& (rgbMask.setWidth 32 <<< 16 ||| rgbMask.setWidth 32)

/-- The body of the loop over two pixels in `Bop_PFI_Kto_Aop_PFI`. -/
def ktoPair (e : Endian) (rgbMask Skey : BitVec 16) (m : Pixels 16) (D S : ℤ) : Pixels 16 :=
  let SkeyH : BitVec 32 := Skey.setWidth 32 <<< 16
  let s : BitVec 32 := load2 e m S
  if maskRgbL rgbMask s ≠ Skey.setWidth 32 then
    if maskRgbH rgbMask s ≠ SkeyH then store2 e m D s
    else
      match e with
      | .big => update m (D+1) (s.setWidth 16)
      | .little => update m D (s.setWidth 16)
  else if maskRgbH rgbMask s ≠ SkeyH then
    match e with
    | .big => update m D ((s >>> 16).setWidth 16)
    | .little => update m (D+1) ((s >>> 16).setWidth 16)
  else m

/-- The body of the loop over two pixels in `Bop_PFI_toK_Aop_PFI`. -/
def toKPair (e : Endian) (rgbMask Dkey : BitVec 16) (m : Pixels 16) (D S : ℤ) : Pixels 16 :=
  let DkeyH : BitVec 32 := Dkey.setWidth 32 <<< 16
  let d : BitVec 32 := load2 e m D
  if maskRgb32 rgbMask d = DkeyH ||| Dkey.setWidth 32 then store2 e m D (load2 e m S)
  else if maskRgbL rgbMask d = Dkey.setWidth 32 then
    match e with
    | .big => update m D (m S)
    | .little => update m (D+1) (m (S+1))
  else if maskRgbH rgbMask d = DkeyH then
    match e with
    | .big => update m (D+1) (m (S+1))
    | .little => update m D (m S)
  else m

/-- `Bop_PFI_Kto_Aop_PFI` of `template_colorkey_16.h`. -/
def bop16Kto (e : Endian) (rgbMask : BitVec 16) (gfxs : GenefxState) : Pixels 16 → Pixels 16 :=
  directed (ktoPixel rgbMask (gfxs.Skey.setWidth 16))
    (ktoPair e rgbMask (gfxs.Skey.setWidth 16)) gfxs

/-- `Bop_PFI_toK_Aop_PFI` of `template_colorkey_16.h`. -/
def bop16ToK (e : Endian) (rgbMask : BitVec 16) (gfxs : GenefxState) : Pixels 16 → Pixels 16 :=
  directed (toKPixel rgbMask (gfxs.Dkey.setWidth 16))
    (toKPair e rgbMask (gfxs.Dkey.setWidth 16)) gfxs

end Keys16

section Scaled

variable {w : ℕ}

def scaledPixel (Bop : ℤ) (m : Pixels w) (D : ℤ) (i : ℕ) : Pixels w :=
  update m D (m (Bop+(i >>> 16 : ℕ)))

def firstPixel (Bop : ℤ) (m : Pixels w) (D : ℤ) (_ : ℕ) : Pixels w := update m D (m Bop)

def scaledPair (e : Endian) (Bop : ℤ) (SperD : ℕ) (m : Pixels w) (D : ℤ) (i : ℕ) : Pixels w :=
  match e with
  | .big => store2 e m D ((m (Bop+(i >>> 16 : ℕ))).setWidth (w+w) <<< w |||
      (m (Bop+((i+SperD) >>> 16 : ℕ))).setWidth (w+w))
  | .little => store2 e m D ((m (Bop+((i+SperD) >>> 16 : ℕ))).setWidth (w+w) <<< w |||
      (m (Bop+(i >>> 16 : ℕ))).setWidth (w+w))

/-- `Bop_16_Sto_Aop`. -/
def bop16Sto (e : Endian) (gfxs : GenefxState) (m : Pixels 16) : Pixels 16 :=
  let SperD2 := gfxs.SperD <<< 1
  forward (firstPixel gfxs.Bop) (scaledPixel gfxs.Bop) (scaledPair e gfxs.Bop gfxs.SperD)
    (·+gfxs.SperD) (·+SperD2) gfxs.length m gfxs.Aop gfxs.Xphase

/-- `Bop_32_Sto_Aop_64`, which begins with no phase. -/
def bop32Sto64 (e : Endian) (gfxs : GenefxState) (m : Pixels 32) : Pixels 32 :=
  let SperD2 := gfxs.SperD <<< 1
  forward (firstPixel gfxs.Bop) (scaledPixel gfxs.Bop) (scaledPair e gfxs.Bop gfxs.SperD)
    (·+gfxs.SperD) (·+SperD2) gfxs.length m gfxs.Aop 0

/-- One pixel at a time, as in `Bop_32_Sto_Aop`. -/
def plainSto (gfxs : GenefxState) (m : Pixels w) : Pixels w :=
  (steps (scaledPixel gfxs.Bop) 1 (·+gfxs.SperD) gfxs.length m gfxs.Aop gfxs.Xphase).1

end Scaled

section Keys32

def rgbBoth (x : BitVec 64) : BitVec 64 := x &&& 0x00ffffff00ffffff

def rgbHigh (x : BitVec 64) : BitVec 64 := x &&& 0x00ffffff00000000

def rgbLow (x : BitVec 64) : BitVec 64 := x &&& 0x0000000000ffffff

/-- The body of the loop over two pixels in `Bop_rgb32_Kto_Aop_64`. -/
def kto64Pair (e : Endian) (Skey : BitVec 32) (m : Pixels 32) (D S : ℤ) : Pixels 32 :=
  let DSkey : BitVec 64 := Skey.setWidth 64 <<< 32 ||| Skey.setWidth 64
  let s : BitVec 64 := load2 e m S
  if rgbBoth s ≠ DSkey then
    if rgbHigh s ≠ rgbHigh DSkey then
      if rgbLow s ≠ rgbLow DSkey then store2 e m D s
      else
        match e with
        | .big => update m D ((s >>> 32).setWidth 32)
        | .little => update m (D+1) ((s >>> 32).setWidth 32)
    else
      match e with
      | .big => update m (D+1) (s.setWidth 32)
      | .little => update m D (s.setWidth 32)
  else m

/-- The body of the loop over two pixels in `Bop_rgb32_toK_Aop_64`. -/
def toK64Pair (e : Endian) (Dkey : BitVec 32) (m : Pixels 32) (D S : ℤ) : Pixels 32 :=
  let DDkey : BitVec 64 := Dkey.setWidth 64 <<< 32 ||| Dkey.setWidth 64
  let d : BitVec 64 := load2 e m D
  if rgbHigh d = rgbHigh DDkey then
    if rgbLow d = rgbLow DDkey then store2 e m D (load2 e m S)
    else
      match e with
      | .big => update m D (m S)
      | .little => update m (D+1) (m (S+1))
  else if rgbLow d = rgbLow DDkey then
    match e with
    | .big => update m (D+1) (m (S+1))
    | .little => update m D (m S)
  else m

/-- `Bop_rgb32_Kto_Aop_64`. -/
def bopRgb32Kto64 (e : Endian) (gfxs : GenefxState) (m : Pixels 32) : Pixels 32 :=
  forward (ktoPixel 0x00ffffff gfxs.Skey) (ktoPixel 0x00ffffff gfxs.Skey)
    (kto64Pair e gfxs.Skey) (·+1) (·+2) gfxs.length m gfxs.Aop gfxs.Bop

/-- `Bop_rgb32_toK_Aop_64`. -/
def bopRgb32ToK64 (e : Endian) (gfxs : GenefxState) (m : Pixels 32) : Pixels 32 :=
  forward (toKPixel 0x00ffffff gfxs.Dkey) (toKPixel 0x00ffffff gfxs.Dkey)
    (toK64Pair e gfxs.Dkey) (·+1) (·+2) gfxs.length m gfxs.Aop gfxs.Bop

def copPixel (Cop : BitVec 32) (m : Pixels 32) (D : ℤ) (_ : Unit) : Pixels 32 := update m D Cop

/-- `Cop_to_Aop_32_64`. -/
def copTo64 (e : Endian) (gfxs : GenefxState) (m : Pixels 32) : Pixels 32 :=
  let DCop : BitVec 64 := gfxs.Cop.setWidth 64 <<< 32 ||| gfxs.Cop.setWidth 64
  forward (copPixel gfxs.Cop) (copPixel gfxs.Cop) (fun m D _ => store2 e m D DCop) id id
    gfxs.length m gfxs.Aop ()

/-- One pixel at a time, as in `Cop_to_Aop_32`. -/
def plainCop (gfxs : GenefxState) (m : Pixels 32) : Pixels 32 :=
  (steps (copPixel gfxs.Cop) 1 id gfxs.length m gfxs.Aop ()).1

def plainForward (pixel : Pixels 32 → ℤ → ℤ → Pixels 32) (gfxs : GenefxState) (m : Pixels 32) :
    Pixels 32 :=
  (steps pixel 1 (·+1) gfxs.length m gfxs.Aop gfxs.Bop).1

end Keys32

section Accumulators

def Accumulator.Marked (x : Accumulator) : Prop := x.a &&& 0xF000 ≠ 0

instance : DecidablePred Accumulator.Marked := fun _ => inferInstanceAs (Decidable (_ ≠ _))

/-- A channel in `PIXEL`. -/
def channel (x : BitVec 16) : ℕ := if x &&& 0xFF00 ≠ 0 then 0xFF else x.toNat

/-- A channel in `PIXEL`, limited to eight bits. -/
def limited (x : BitVec 16) : BitVec 8 := if x &&& 0xFF00 ≠ 0 then 0xFF else x.setWidth 8

/-- The channels in `PIXEL`. -/
def Accumulator.color (x : Accumulator) : Color where
  a := limited x.a
  r := limited x.r
  g := limited x.g
  b := limited x.b

/-- The formats of `template_acc_16.h`. -/
inductive Format16
  | rgb16
  | argb1555
  | rgba5551
  | rgb555
  | bgr555
  | argb2554
  | argb4444
  | rgba4444
  | rgb444

/-- `PIXEL_OUT`. -/
def Format16.pixelOut (f : Format16) (a r g b : ℕ) : ℕ :=
  match f with
  | .rgb16 => (r &&& 0xF8) <<< 8 ||| (g &&& 0xFC) <<< 3 ||| (b &&& 0xF8) >>> 3
  | .argb1555 =>
    (a &&& 0x80) <<< 8 ||| (r &&& 0xF8) <<< 7 ||| (g &&& 0xF8) <<< 2 ||| (b &&& 0xF8) >>> 3
  | .rgba5551 =>
    (a &&& 0x80) >>> 7 ||| (r &&& 0xF8) <<< 8 ||| (g &&& 0xF8) <<< 3 ||| (b &&& 0xF8) >>> 2
  | .rgb555 => (r &&& 0xF8) <<< 7 ||| (g &&& 0xF8) <<< 2 ||| (b &&& 0xF8) >>> 3
  | .bgr555 => (b &&& 0xF8) <<< 7 ||| (g &&& 0xF8) <<< 2 ||| (r &&& 0xF8) >>> 3
  | .argb2554 =>
    (a &&& 0xC0) <<< 8 ||| (r &&& 0xF8) <<< 6 ||| (g &&& 0xF8) <<< 1 ||| (b &&& 0xF0) >>> 4
  | .argb4444 =>
    (a &&& 0xF0) <<< 8 ||| (r &&& 0xF0) <<< 4 ||| (g &&& 0xF0) ||| (b &&& 0xF0) >>> 4
  | .rgba4444 =>
    (r &&& 0xF0) <<< 8 ||| (g &&& 0xF0) <<< 4 ||| (b &&& 0xF0) ||| (a &&& 0xF0) >>> 4
  | .rgb444 => (r &&& 0xF0) <<< 4 ||| (g &&& 0xF0) ||| (b &&& 0xF0) >>> 4

/-- `PIXEL`. -/
def Format16.pixel (f : Format16) (x : Accumulator) : ℕ :=
  f.pixelOut (channel x.a) (channel x.r) (channel x.g) (channel x.b)

def saccPixel (f : Format16) (m : Pixels 16) (D : ℤ) (x : Accumulator) : Pixels 16 :=
  if x.Marked then m else update m D (BitVec.ofNat 16 (f.pixel x))

/-- The body of the loops over two pixels in `Sacc_to_Aop_PFI` and `Sacc_Sto_Aop_PFI`. -/
def saccPair (e : Endian) (f : Format16) (m : Pixels 16) (D : ℤ) (x y : Accumulator) : Pixels 16 :=
  if ¬x.Marked ∧ ¬y.Marked then
    match e with
    | .big => store2 e m D (BitVec.ofNat 32 (f.pixel y ||| f.pixel x <<< 16))
    | .little => store2 e m D (BitVec.ofNat 32 (f.pixel x ||| f.pixel y <<< 16))
  else if ¬x.Marked then update m D (BitVec.ofNat 16 (f.pixel x))
  else if ¬y.Marked then update m (D+1) (BitVec.ofNat 16 (f.pixel y))
  else m

def plainSacc (f : Format16) (Sacc : ℕ → Accumulator) (gfxs : GenefxState) (m : Pixels 16) :
    Pixels 16 :=
  (steps (fun m D k => saccPixel f m D (Sacc k)) gfxs.Astep (·+1) gfxs.length m gfxs.Aop 0).1

/-- `Sacc_to_Aop_PFI` of `template_acc_16.h`. -/
def saccTo (e : Endian) (f : Format16) (Sacc : ℕ → Accumulator) (gfxs : GenefxState)
    (m : Pixels 16) : Pixels 16 :=
  if gfxs.Astep ≠ 1 then plainSacc f Sacc gfxs m
  else forward (fun m D k => saccPixel f m D (Sacc k)) (fun m D k => saccPixel f m D (Sacc k))
    (fun m D k => saccPair e f m D (Sacc k) (Sacc (k+1))) (·+1) (·+2) gfxs.length m gfxs.Aop 0

def plainSaccSto (f : Format16) (Sacc : ℕ → Accumulator) (gfxs : GenefxState) (m : Pixels 16) :
    Pixels 16 :=
  (steps (fun m D i => saccPixel f m D (Sacc (i >>> 16))) gfxs.Astep (·+gfxs.SperD) gfxs.length m
    gfxs.Aop gfxs.Xphase).1

/-- `Sacc_Sto_Aop_PFI` of `template_acc_16.h`. -/
def saccSto (e : Endian) (f : Format16) (Sacc : ℕ → Accumulator) (gfxs : GenefxState)
    (m : Pixels 16) : Pixels 16 :=
  if gfxs.Astep ≠ 1 then plainSaccSto f Sacc gfxs m
  else forward (fun m D _ => saccPixel f m D (Sacc 0))
    (fun m D i => saccPixel f m D (Sacc (i >>> 16)))
    (fun m D i => saccPair e f m D (Sacc (i >>> 16)) (Sacc ((i+gfxs.SperD) >>> 16)))
    (·+gfxs.SperD) (·+gfxs.SperD <<< 1) gfxs.length m gfxs.Aop gfxs.Xphase

def Accumulator.toWord (e : Endian) (x : Accumulator) : BitVec 64 :=
  match e with
  | .little => x.a++x.r++x.g++x.b
  | .big => x.b++x.g++x.r++x.a

def Accumulator.ofWord (e : Endian) (x : BitVec 64) : Accumulator :=
  match e with
  | .little => ⟨x.extractLsb' 0 16,x.extractLsb' 16 16,x.extractLsb' 32 16,x.extractLsb' 48 16⟩
  | .big => ⟨x.extractLsb' 48 16,x.extractLsb' 32 16,x.extractLsb' 16 16,x.extractLsb' 0 16⟩

/-- The color in `Dacc_xor_64`. -/
def Color.word (e : Endian) (c : Color) : BitVec 64 :=
  match e with
  | .big => c.b.setWidth 64 <<< 48 ||| c.g.setWidth 64 <<< 32 ||| c.r.setWidth 64 <<< 16 |||
      c.a.setWidth 64
  | .little => c.a.setWidth 64 <<< 48 ||| c.r.setWidth 64 <<< 32 ||| c.g.setWidth 64 <<< 16 |||
      c.b.setWidth 64

/-- `Dacc_xor_64`. -/
def daccXor64 (e : Endian) (gfxs : GenefxState) (Dacc : ℤ → Accumulator) : ℤ → Accumulator :=
  (steps (fun m D (_ : Unit) => update m D (.ofWord e ((m D).toWord e ^^^ gfxs.color.word e))) 1
    id gfxs.length Dacc 0 ()).1

/-- An accumulator in `Dacc_xor_C`. -/
def Accumulator.xor (c : Color) (x : Accumulator) : Accumulator where
  a := x.a ^^^ c.a.setWidth 16
  r := x.r ^^^ c.r.setWidth 16
  g := x.g ^^^ c.g.setWidth 16
  b := x.b ^^^ c.b.setWidth 16

/-- `Dacc_xor_C`. -/
def daccXor (gfxs : GenefxState) (Dacc : ℤ → Accumulator) : ℤ → Accumulator :=
  (steps (fun m D (_ : Unit) => if (m D).Marked then m else update m D ((m D).xor gfxs.color)) 1
    id gfxs.length Dacc 0 ()).1

end Accumulators

end Genefx

end DirectFB
