import DirectFB.SmoothScaleWords

/-! Smooth scaling to pixels of 16 bit, two of which are in a word. A pixel before the first word or
after the last one is scaled by itself. -/
namespace DirectFB.SmoothScale
open CountedLoop

structure Format16 where
  shiftR5 : ℕ
  shiftR6 : ℕ
  xF81F : BitVec 32
  x07E0 : BitVec 32
  maskRgb : BitVec 16
  hasAlpha : Bool

def rgb16 : Format16 := ⟨5,6,0xf81f,0x07e0,0xffff,false⟩

def argb4444 : Format16 := ⟨4,4,0x0f0f,0xf0f0,0x0fff,true⟩

def rgba4444 : Format16 := ⟨4,4,0x0f0f,0xf0f0,0xfff0,true⟩

namespace Format16

variable (f : Format16)

/-- `SHIFT_L10` -/
def shiftL10 : ℕ := 16-f.shiftR6

def across (l r : BitVec 32) (ratio : ℤ) : BitVec 64 :=
  let q := BitVec.ofInt 64 ratio
  let part (mask : BitVec 32) : BitVec 64 :=
    (long ((r &&& mask)-(l &&& mask))*q+long ((l &&& mask) <<< f.shiftR6)) &&&
      long (mask <<< f.shiftR6)
  part f.xF81F+part f.x07E0

def low (l r : BitVec 32) (ratio : ℤ) : BitVec 32 :=
  ((f.across l r ratio).sshiftRight f.shiftR6).setWidth 32

def high (l r : BitVec 32) (ratio : ℤ) : BitVec 32 :=
  (f.across l r ratio <<< f.shiftL10).setWidth 32

def single (dpT dpB : BitVec 32) (X : ℤ) : BitVec 16 :=
  (blend f.shiftR5 f.xF81F (f.x07E0 >>> f.shiftR5) f.x07E0 dpT dpB X).setWidth 16

def double (T B : BitVec 32) (X : ℤ) : BitVec 32 :=
  let xF81FF81F := (f.xF81F <<< 16) ||| f.xF81F
  let x07E007E0 := (f.x07E0 <<< 16) ||| f.x07E0
  let x07E0F81F := (f.x07E0 <<< 16) ||| f.xF81F
  let xF81F07E0 := (f.xF81F <<< 16) ||| f.x07E0
  if f.hasAlpha then blend f.shiftR5 xF81FF81F xF81FF81F x07E007E0 T B X
  else blend f.shiftR5 x07E0F81F (xF81F07E0.sshiftRight f.shiftR5) xF81F07E0 T B X

def guarded (protect : Option (BitVec 16)) (dt : BitVec 16) : BitVec 16 :=
  if some (dt &&& f.maskRgb) = protect then dt ^^^ 1 else dt

end Format16

namespace Clip

variable {s : Sizes} (c : Clip s)

/-- If there is a pixel before the first word, where `dst` is the address of the destination. -/
def head (dst : ℕ) : ℕ := (dst/2%2+c.x1.toNat%2)%2

def tail (dst : ℕ) : ℕ := (c.cw-c.head dst)%2

def w2 (dst : ℕ) : ℕ := (c.cw-c.head dst)/2

theorem head_lt (dst : ℕ) : c.head dst < 2 := Nat.mod_lt _ Nat.two_pos

theorem tail_lt (dst : ℕ) : c.tail dst < 2 := Nat.mod_lt _ Nat.two_pos

theorem parts_eq (dst : ℕ) : c.head dst+2*c.w2 dst+c.tail dst = c.cw := by
  have := c.cw_pos
  have := c.head_lt dst
  unfold w2 tail
  omega

end Clip

namespace Format16

variable {s : Sizes} (f : Format16) (c : Clip s) (source : ℤ → ℤ → BitVec 32)
  (protect : Option (BitVec 16)) (dst dpitch : ℕ) (m : Arrays)

/-- What `stretch_hvx_up/down_16` does in the loops over words. -/
def kernel : Kernel (BitVec 16) where
  vertical := s.vertical
  rows := c.ch
  dpitch := dpitch
  words := c.w2 dst
  start := ⟨s.horizontal.position c.x1+c.head dst*s.horizontal.fraq,c.head dst⟩
  advance p := ⟨p.point+s.horizontal.fraq+s.horizontal.fraq,p.r+1+1⟩
  value ratios p row :=
    let pl := s.horizontal.low p.point
    let pl' := s.horizontal.low (p.point+s.horizontal.fraq)
    f.low (source pl row) (source (pl+1) row) (ratios p.r) |||
      f.high (source pl' row) (source (pl'+1) row) (ratios (p.r+1))
  reads p row :=
    let pl := s.horizontal.low p.point
    let pl' := s.horizontal.low (p.point+s.horizontal.fraq)
    [.source pl row,.source (pl+1) row,.ratio p.r,.source pl' row,.source (pl'+1) row,
      .ratio (p.r+1)]
  lineRatio := s.vertical.ratio f.shiftR5
  write a T B X :=
    let dt := f.double T B X
    [(a,f.guarded protect (dt.setWidth 16)),(a+2,f.guarded protect ((dt >>> 16).setWidth 16))]

def columnReads (p : Cursor) (line : ℤ) : List Access :=
  let nlT := s.vertical.low line
  let nlB := s.vertical.high line
  let pl := s.horizontal.low p.point
  [.source pl nlT,.source (pl+1) nlT,.ratio p.r,.source pl nlB,.source (pl+1) nlB,.ratio p.r]

def columnPixel (ratios : ℕ → ℤ) (p : Cursor) (line : ℤ) : BitVec 16 :=
  let pl := s.horizontal.low p.point
  let dp := fun row => f.low (source pl row) (source (pl+1) row) (ratios p.r)
  f.guarded protect (f.single (dp (s.vertical.low line)) (dp (s.vertical.high line))
    (s.vertical.ratio f.shiftR5 line))

def column (s : Sizes) (_ : ℕ) (t : State (BitVec 16)) : State (BitVec 16) :=
  {t with
    accesses := t.accesses++columnReads (s := s) t.cursor t.line
    writes := t.writes++ [(t.dst16,f.columnPixel (s := s) source protect t.ratios t.cursor t.line)]
    dst16 := t.dst16+2*(dpitch/2 : ℕ)
    line := t.line+s.vertical.fraq}

/-- The variables of `stretch_hvx_up/down_16` before anything is scaled. -/
def prepared : State (BitVec 16) := c.fillRatios f.shiftR6 (c.start m 2 dpitch)

def heads (t : State (BitVec 16)) : State (BitVec 16) :=
  if c.head dst = 0 then t
  else
    {upTo (f.column source protect dpitch s) c.ch
        {t with cursor := ⟨s.horizontal.position c.x1,0⟩} with
      dst32 := t.dst32+2
      line := s.vertical.position c.y1}

def tails (t : State (BitVec 16)) : State (BitVec 16) :=
  if c.tail dst = 0 then t
  else
    upTo (f.column source protect dpitch s) c.ch {t with
      dst16 := c.x1*2+c.y1*dpitch+c.cw*2-2
      line := s.vertical.position c.y1}

/-- `stretch_hvx_up/down_16` -/
def stretchHvx : State (BitVec 16) :=
  f.tails c source protect dst dpitch ((f.kernel c source protect dst dpitch).lines
      (f.heads c source protect dst dpitch (f.prepared c dpitch m)))

theorem upTo_column (t : State (BitVec 16)) (n : ℕ) :
    upTo (f.column source protect dpitch s) n t = {t with
      accesses := t.accesses++(List.range n).flatMap fun y : ℕ =>
        columnReads (s := s) t.cursor (t.line+y*s.vertical.fraq)
      writes := t.writes++(List.range n).map fun y : ℕ => (t.dst16+y*(2*(dpitch/2 : ℕ)),
        f.columnPixel (s := s) source protect t.ratios t.cursor (t.line+y*s.vertical.fraq))
      dst16 := t.dst16+n*(2*(dpitch/2 : ℕ))
      line := t.line+n*s.vertical.fraq} := by
  induction n with
  | zero => simp [upTo]
  | succ n ih =>
    rw [upTo_succ,ih,flatMap_range_succ,List.range_succ,List.map_append,← List.append_assoc,
      ← List.append_assoc,Nat.cast_succ,add_mul,add_mul,one_mul,one_mul,← add_assoc,← add_assoc]
    rfl

theorem prepared_eq : f.prepared c dpitch m = {(c.start m 2 dpitch : State (BitVec 16)) with
    ratios := fun x => if x < c.cw then
      s.horizontal.ratio f.shiftR6 (s.horizontal.position (c.x1+x)) else m.ratios x
    cursor := ⟨s.horizontal.position (c.x1+c.cw),0⟩
    accesses := (List.range c.cw).map .ratio} :=
  c.fillRatios_eq _ _ _ _

theorem cursor_eq (x : ℕ) : (f.kernel c source protect dst dpitch).cursor x =
    ⟨s.horizontal.position (c.x1+(c.head dst+2*x : ℕ)),c.head dst+2*x⟩ := by
  induction x with
  | zero =>
    simp only [Kernel.cursor,kernel,Function.iterate_zero,id,mul_zero,add_zero]
    rw [Axis.position_add]
  | succ x ih =>
    rw [Kernel.cursor_succ,ih]
    simp only [kernel]
    congr 1
    rw [Axis.position_add,Axis.position_add]
    push_cast
    ring

theorem linePosition_eq (y : ℕ) : (f.kernel c source protect dst dpitch).linePosition c.y1 y =
    s.vertical.position (c.y1+y) := rfl

def begun : State (BitVec 16) := f.heads c source protect dst dpitch (f.prepared c dpitch m)

theorem begun_line : (f.begun c source protect dst dpitch m).line =
    (f.kernel c source protect dst dpitch).linePosition c.y1 0 := by
  rw [linePosition_eq,Nat.cast_zero,add_zero]
  unfold begun heads
  rw [prepared_eq]
  split_ifs <;> rfl

theorem begun_lineT : (f.begun c source protect dst dpitch m).lineT = -2000 := by
  unfold begun heads
  rw [prepared_eq]
  split_ifs
  · rfl
  · rw [upTo_column]
    rfl

theorem begun_dst32 : (f.begun c source protect dst dpitch m).dst32 =
    c.x1*2+c.y1*dpitch+2*c.head dst := by
  have := c.head_lt dst
  unfold begun heads
  rw [prepared_eq]
  split_ifs with hhead
  · rw [hhead]
    simp [Clip.start]
  · rw [show c.head dst = 1 by omega]
    rfl

def written (p : ℕ × ℕ) : ℤ :=
  c.x1*2+c.y1*dpitch+2*p.1+p.2*(if p.1 < c.head dst ∨ c.head dst+2*c.w2 dst ≤ p.1 then
    2*(dpitch/2 : ℕ) else 4*(dpitch/4 : ℕ))

variable {x : ℕ} {t : State (BitVec 16)} {a : Access}

/-- What a loop over pixels by themselves writes, in the column `x`. -/
theorem column_writes (hx : x < c.head dst ∨ c.head dst+2*c.w2 dst ≤ x) (hdst : t.dst16 = c.x1*2+c.y1*dpitch+2*x) :
    (upTo (f.column source protect dpitch s) c.ch t).writes.map Prod.fst =
      t.writes.map Prod.fst++(List.range c.ch).flatMap fun y => [written c dst dpitch (x,y)] := by
  rw [upTo_column,List.map_append,List.map_map]
  congr 1
  refine Eq.trans (List.map_congr_left fun y _ => ?_) (List.flatMap_pure_eq_map _ _).symm
  unfold written
  rw [if_pos hx,← hdst]
  rfl

theorem begun_writes : (f.begun c source protect dst dpitch m).writes.map Prod.fst =
    (List.range c.ch).flatMap fun y => (List.range (c.head dst)).map fun x =>
      written c dst dpitch (x,y) := by
  have := c.head_lt dst
  unfold begun heads
  rw [prepared_eq]
  split_ifs with hhead
  · rw [hhead]
    simp [Clip.start]
  · have hone : c.head dst = 1 := by omega
    refine (f.column_writes c source protect dst dpitch (x := 0) (.inl (by omega)) ?_).trans ?_
    · simp [Clip.start]
    · rw [hone]
      rfl

theorem rowWrites_fst
    (hdst : t.dst32 = c.x1*2+c.y1*dpitch+2*c.head dst) (y : ℕ) :
    ((f.kernel c source protect dst dpitch).rowWrites t c.y1 y).map Prod.fst =
      (List.range (2*c.w2 dst)).map fun x => written c dst dpitch (c.head dst+x,y) := by
  rw [← flatMap_range_pairs (fun x => written c dst dpitch (x,y))]
  unfold Kernel.rowWrites
  rw [List.map_flatMap]
  refine List.flatMap_congr fun x hx => ?_
  have hx : x < c.w2 dst := List.mem_range.mp hx
  simp only [kernel,List.map_cons,List.map_nil,written]
  rw [if_neg (by omega),if_neg (by omega),hdst]
  congr 1
  · push_cast
    ring
  · congr 1
    push_cast
    ring

theorem tails_writes : (f.tails c source protect dst dpitch t).writes.map Prod.fst =
      t.writes.map Prod.fst++(List.range c.ch).flatMap fun y => (List.range (c.tail dst)).map fun x =>
        written c dst dpitch (c.head dst+2*c.w2 dst+x,y) := by
  have := c.tail_lt dst
  have hparts := c.parts_eq dst
  unfold tails
  split_ifs with htail
  · rw [htail]
    simp
  · have hone : c.tail dst = 1 := by omega
    refine (f.column_writes c source protect dst dpitch (x := c.head dst+2*c.w2 dst)
      (.inr le_rfl) ?_).trans ?_
    · rw [← hparts,hone]
      push_cast
      ring
    · rw [hone]
      rfl

/-- Head, words and tail of the rows are written one after the other, and are all the pixels. -/
theorem writes_perm : ((f.stretchHvx c source protect dst dpitch m).writes.map Prod.fst).Perm
    (c.pixels.map (written c dst dpitch)) := by
  have hlines := (Kernel.before_upTo c.y1_nonneg (f.begun_line c source protect dst dpitch m)
    (f.begun_lineT c source protect dst dpitch m) c.ch).writes
  have hrows : ((f.kernel c source protect dst dpitch).lines
      (f.begun c source protect dst dpitch m)).writes.map Prod.fst =
      ((List.range c.ch).flatMap fun y => (List.range (c.head dst)).map fun x =>
        written c dst dpitch (x,y))++
      (List.range c.ch).flatMap fun y => (List.range (2*c.w2 dst)).map fun x =>
        written c dst dpitch (c.head dst+x,y) := by
    rw [← begun_writes f c source protect dst dpitch m]
    refine (congrArg (List.map Prod.fst) hlines).trans ?_
    rw [List.map_append,List.map_flatMap]
    congr 1
    exact List.flatMap_congr fun y _ => f.rowWrites_fst c source protect dst dpitch
      (f.begun_dst32 c source protect dst dpitch m) y
  have hpixels : c.pixels.map (written c dst dpitch) = (List.range c.ch).flatMap fun y =>
      ((List.range (c.head dst)).map fun x => written c dst dpitch (x,y))++
      ((List.range (2*c.w2 dst)).map fun x => written c dst dpitch (c.head dst+x,y))++
      (List.range (c.tail dst)).map fun x =>
        written c dst dpitch (c.head dst+2*c.w2 dst+x,y) := by
    unfold Clip.pixels
    rw [List.map_flatMap]
    refine List.flatMap_congr fun y _ => ?_
    rw [List.map_map,← c.parts_eq dst,map_range_add,map_range_add]
    rfl
  unfold stretchHvx
  rw [tails_writes]
  refine ((List.Perm.of_eq hrows).append_right _).trans ?_
  rw [hpixels]
  exact ((List.flatMap_append_perm _ _ _).append_right _).trans (List.flatMap_append_perm _ _ _)

def address (p : ℕ × ℕ) : ℤ := (c.x1+p.1)*2+(c.y1+p.2)*dpitch

def PitchFits : Prop :=
  c.y1 = c.y2 ∨ (c.w2 dst = 0 ∨ 4 ∣ dpitch) ∧ (c.head dst+c.tail dst = 0 ∨ 2 ∣ dpitch)

theorem address_eq (p : ℕ × ℕ) : address c dpitch p = written c dst dpitch p+
    (p.2*(if p.1 < c.head dst ∨ c.head dst+2*c.w2 dst ≤ p.1 then dpitch%2 else dpitch%4) : ℕ) := by
  have htwo : (dpitch : ℤ) = 2*(dpitch/2 : ℕ)+(dpitch%2 : ℕ) := by
    rw [← Nat.cast_ofNat,← Nat.cast_mul,← Nat.cast_add,Nat.div_add_mod]
  have hfour : (dpitch : ℤ) = 4*(dpitch/4 : ℕ)+(dpitch%4 : ℕ) := by
    rw [← Nat.cast_ofNat,← Nat.cast_mul,← Nat.cast_add,Nat.div_add_mod]
  unfold address written
  split_ifs
  · rw [Nat.cast_mul p.2,Nat.cast_mul 2,Nat.cast_ofNat]
    linear_combination (p.2 : ℤ)*htwo
  · rw [Nat.cast_mul p.2,Nat.cast_mul 4,Nat.cast_ofNat]
    linear_combination (p.2 : ℤ)*hfour

theorem written_le (p : ℕ × ℕ) : written c dst dpitch p ≤ address c dpitch p := by
  rw [address_eq c dst]
  exact le_add_of_nonneg_right (Nat.cast_nonneg _)

theorem written_eq_iff : (∀ p ∈ c.pixels, written c dst dpitch p = address c dpitch p) ↔
    PitchFits c dst dpitch := by
  have hparts := c.parts_eq dst
  have hhead := c.head_lt dst
  have htail := c.tail_lt dst
  constructor
  · intro h
    unfold PitchFits
    by_contra! hout
    obtain ⟨hy,hout⟩ := hout
    have := c.y_le
    -- a column whose second row is not where it belongs
    have hcolumn : ∀ x < c.cw, (if x < c.head dst ∨ c.head dst+2*c.w2 dst ≤ x then dpitch%2
        else dpitch%4) = 0 := by
      intro x hx
      have heq := h (x,1) (c.mem_pixels.mpr ⟨hx,by unfold Clip.ch; omega⟩)
      rw [address_eq c dst,left_eq_add,Nat.cast_eq_zero,one_mul] at heq
      exact heq
    by_cases hwords : c.w2 dst = 0 ∨ 4 ∣ dpitch
    · obtain ⟨hby,hdvd⟩ := hout hwords
      rcases Nat.eq_zero_or_pos (c.head dst) with hzero | hpos
      · have := hcolumn (c.head dst+2*c.w2 dst) (by omega)
        rw [if_pos (.inr le_rfl)] at this
        omega
      · have := hcolumn 0 (by omega)
        rw [if_pos (.inl hpos)] at this
        omega
    · push Not at hwords
      have := hcolumn (c.head dst) (by omega)
      rw [if_neg (by omega)] at this
      omega
  · intro h p hp
    obtain ⟨hx,hy⟩ := c.mem_pixels.mp hp
    have hzero : p.2*(if p.1 < c.head dst ∨ c.head dst+2*c.w2 dst ≤ p.1 then dpitch%2
        else dpitch%4) = 0 := by
      rcases h with hone | ⟨hwords,hby⟩
      · unfold Clip.ch at hy
        rw [show p.2 = 0 by omega,zero_mul]
      · refine Nat.mul_eq_zero.mpr (.inr ?_)
        split_ifs <;> omega
    rw [address_eq c dst,hzero,Nat.cast_zero,add_zero]

theorem once_iff : ((f.stretchHvx c source protect dst dpitch m).writes.map Prod.fst).Perm
    (c.pixels.map (address c dpitch)) ↔ PitchFits c dst dpitch := by
  rw [← written_eq_iff,← perm_map_iff fun p _ => written_le c dst dpitch p]
  exact (f.writes_perm c source protect dst dpitch m).congr_left _

theorem mem_columnReads {x y : ℕ} :
    a ∈ columnReads (s := s) ⟨s.horizontal.position (c.x1+x),x⟩ (s.vertical.position (c.y1+y)) ↔
      (∃ column row, a = .source column row ∧ c.Sample x y column row) ∨ a = .ratio x := by
  unfold columnReads Clip.Sample
  simp only [Axis.high_eq,List.mem_cons,List.not_mem_nil,or_false]
  constructor
  · rintro (rfl | rfl | rfl | rfl | rfl | rfl)
    · exact .inl ⟨_,_,rfl,.inl rfl,.inl rfl⟩
    · exact .inl ⟨_,_,rfl,.inr rfl,.inl rfl⟩
    · exact .inr rfl
    · exact .inl ⟨_,_,rfl,.inl rfl,.inr rfl⟩
    · exact .inl ⟨_,_,rfl,.inr rfl,.inr rfl⟩
    · exact .inr rfl
  · rintro (⟨_,_,rfl,rfl | rfl,rfl | rfl⟩ | rfl) <;> tauto

theorem mem_column_accesses
    (hcursor : t.cursor = ⟨s.horizontal.position (c.x1+x),x⟩)
    (hline : t.line = s.vertical.position c.y1) :
    a ∈ (upTo (f.column source protect dpitch s) c.ch t).accesses ↔ a ∈ t.accesses ∨
      ∃ y < c.ch, (∃ column row, a = .source column row ∧ c.Sample x y column row) ∨
        a = .ratio x := by
  rw [upTo_column,List.mem_append,List.mem_flatMap]
  simp only [List.mem_range,hcursor,hline,← Axis.position_add,mem_columnReads]

theorem lines_cursor : ((f.kernel c source protect dst dpitch).lines
    (f.begun c source protect dst dpitch m)).cursor =
      ⟨s.horizontal.position (c.x1+(c.head dst+2*c.w2 dst : ℕ)),c.head dst+2*c.w2 dst⟩ := by
  have hbefore := Kernel.before_upTo c.y1_nonneg (f.begun_line c source protect dst dpitch m)
    (f.begun_lineT c source protect dst dpitch m) c.ch
  rcases hbefore.lineT with ⟨hzero,-⟩ | ⟨_,-,-,-,hcursor⟩
  · exact absurd hzero c.ch_pos.ne'
  · exact hcursor.trans (f.cursor_eq c source protect dst dpitch _)

def Accessed (c : Clip s) (a : Access) : Prop :=
  (∃ x < c.cw, ∃ y < c.ch, ∃ column row, a = .source column row ∧ c.Sample x y column row) ∨
    ∃ x < c.cw, a = .ratio x

theorem begun_accesses (ha : a ∈ (f.begun c source protect dst dpitch m).accesses) :
    Accessed c a := by
  have hratio {a : Access} (ha : a ∈ (f.prepared c dpitch m).accesses) : Accessed c a := by
    rw [prepared_eq] at ha
    obtain ⟨x,hx,rfl⟩ := List.mem_map.mp ha
    exact .inr ⟨x,List.mem_range.mp hx,rfl⟩
  unfold begun heads at ha
  split_ifs at ha
  · exact hratio ha
  · rcases (f.mem_column_accesses c source protect dpitch (x := 0) (by simp) (by
      rw [prepared_eq]; rfl)).mp ha with ha | ⟨y,hy,⟨column,row,rfl,hsample⟩ | rfl⟩
    · exact hratio ha
    · exact .inl ⟨0,c.cw_pos,y,hy,column,row,rfl,hsample⟩
    · exact .inr ⟨0,c.cw_pos,rfl⟩

theorem mem_rowReads {x y : ℕ} : a ∈ (f.kernel c source protect dst dpitch).rowReads c.y1 x y ↔
      ∃ z, (z = c.head dst+2*x ∨ z = c.head dst+2*x+1) ∧
        ((∃ column row, a = .source column row ∧ c.Sample z y column row) ∨ a = .ratio z) := by
  unfold Kernel.rowReads Clip.Sample
  rw [cursor_eq,linePosition_eq]
  have hnext : s.horizontal.position (c.x1+(c.head dst+2*x : ℕ))+s.horizontal.fraq =
      s.horizontal.position (c.x1+(c.head dst+2*x+1 : ℕ)) := by
    rw [Nat.cast_succ,← add_assoc,Axis.position_add _ 1,one_mul]
  simp only [kernel,hnext,List.mem_append,List.mem_cons,List.not_mem_nil,or_false]
  constructor
  · rintro ((rfl | rfl | rfl | rfl | rfl | rfl) | (rfl | rfl | rfl | rfl | rfl | rfl))
    · exact ⟨_,.inl rfl,.inl ⟨_,_,rfl,.inl rfl,.inl rfl⟩⟩
    · exact ⟨_,.inl rfl,.inl ⟨_,_,rfl,.inr rfl,.inl rfl⟩⟩
    · exact ⟨_,.inl rfl,.inr rfl⟩
    · exact ⟨_,.inr rfl,.inl ⟨_,_,rfl,.inl rfl,.inl rfl⟩⟩
    · exact ⟨_,.inr rfl,.inl ⟨_,_,rfl,.inr rfl,.inl rfl⟩⟩
    · exact ⟨_,.inr rfl,.inr rfl⟩
    · exact ⟨_,.inl rfl,.inl ⟨_,_,rfl,.inl rfl,.inr rfl⟩⟩
    · exact ⟨_,.inl rfl,.inl ⟨_,_,rfl,.inr rfl,.inr rfl⟩⟩
    · exact ⟨_,.inl rfl,.inr rfl⟩
    · exact ⟨_,.inr rfl,.inl ⟨_,_,rfl,.inl rfl,.inr rfl⟩⟩
    · exact ⟨_,.inr rfl,.inl ⟨_,_,rfl,.inr rfl,.inr rfl⟩⟩
    · exact ⟨_,.inr rfl,.inr rfl⟩
  · rintro ⟨_,rfl | rfl,⟨_,_,rfl,rfl | rfl,rfl | rfl⟩ | rfl⟩ <;> tauto

theorem lines_accesses (ha : a ∈ ((f.kernel c source protect dst dpitch).lines
    (f.begun c source protect dst dpitch m)).accesses) :
    Accessed c a ∨ ∃ i < c.w2 dst+8, a = .word i := by
  have hparts := c.parts_eq dst
  rcases Kernel.mem_lines_accesses c.y1_nonneg (f.begun_line c source protect dst dpitch m)
    (f.begun_lineT c source protect dst dpitch m) ha with ha | ⟨x,hx,y,hy,ha⟩ | hword
  · exact .inl (f.begun_accesses c source protect dst dpitch m ha)
  · have hx : x < c.w2 dst := hx
    obtain ⟨z,hz,⟨column,row,rfl,hsample⟩ | rfl⟩ :=
      (f.mem_rowReads c source protect dst dpitch).mp ha
    · exact .inl (.inl ⟨z,by omega,y,hy,column,row,rfl,hsample⟩)
    · exact .inl (.inr ⟨z,by omega,rfl⟩)
  · exact .inr hword

theorem mem_accesses_of_tail (htail : c.tail dst ≠ 0) :
    a ∈ (f.stretchHvx c source protect dst dpitch m).accesses ↔
      a ∈ ((f.kernel c source protect dst dpitch).lines
        (f.begun c source protect dst dpitch m)).accesses ∨
      ∃ y < c.ch, (∃ column row, a = .source column row ∧
        c.Sample (c.head dst+2*c.w2 dst) y column row) ∨ a = .ratio (c.head dst+2*c.w2 dst) := by
  unfold stretchHvx tails
  rw [if_neg htail]
  let t := (f.kernel c source protect dst dpitch).lines (f.begun c source protect dst dpitch m)
  exact f.mem_column_accesses c source protect dpitch (t := {t with
    dst16 := c.x1*2+c.y1*dpitch+c.cw*2-2
    line := s.vertical.position c.y1}) (f.lines_cursor c source protect dst dpitch m) rfl

theorem mem_accesses
    (ha : a ∈ (f.stretchHvx c source protect dst dpitch m).accesses) :
    Accessed c a ∨ ∃ i < c.w2 dst+8, a = .word i := by
  have hparts := c.parts_eq dst
  by_cases htail : c.tail dst = 0
  · unfold stretchHvx tails at ha
    rw [if_pos htail] at ha
    exact f.lines_accesses c source protect dst dpitch m ha
  · rcases (f.mem_accesses_of_tail c source protect dst dpitch m htail).mp ha with
      ha | ⟨y,hy,⟨column,row,rfl,hsample⟩ | rfl⟩
    · exact f.lines_accesses c source protect dst dpitch m ha
    · exact .inl (.inl ⟨_,by omega,y,hy,column,row,rfl,hsample⟩)
    · exact .inl (.inr ⟨_,by omega,rfl⟩)

theorem lines_subset : ((f.kernel c source protect dst dpitch).lines
    (f.begun c source protect dst dpitch m)).accesses ⊆
      (f.stretchHvx c source protect dst dpitch m).accesses := by
  intro a ha
  unfold stretchHvx tails
  split_ifs
  · exact ha
  · rw [upTo_column]
    exact List.mem_append_left _ ha

theorem first_accesses {column row : ℤ} (hsample : c.Sample 0 0 column row) :
    .source column row ∈ (f.stretchHvx c source protect dst dpitch m).accesses := by
  have hparts := c.parts_eq dst
  have hcw := c.cw_pos
  by_cases hhead : c.head dst = 0
  · by_cases hwords : c.w2 dst = 0
    · have hx : c.head dst+2*c.w2 dst = 0 := by omega
      refine (f.mem_accesses_of_tail c source protect dst dpitch m (by omega)).mpr
        (.inr ⟨0,c.ch_pos,.inl ⟨column,row,rfl,?_⟩⟩)
      rwa [hx]
    · refine f.lines_subset c source protect dst dpitch m (Kernel.rowReads_subset c.ch_pos
        c.y1_nonneg (f.begun_line c source protect dst dpitch m)
        (f.begun_lineT c source protect dst dpitch m) (Nat.pos_of_ne_zero hwords) ?_)
      exact (f.mem_rowReads c source protect dst dpitch).mpr
        ⟨0,.inl (by omega),.inl ⟨column,row,rfl,hsample⟩⟩
  · refine f.lines_subset c source protect dst dpitch m (Kernel.subset_lines_accesses ?_)
    unfold begun heads
    rw [if_neg hhead]
    refine (f.mem_column_accesses c source protect dpitch (x := 0) (by simp) (by
      rw [prepared_eq]; rfl)).mpr (.inr ⟨0,c.ch_pos,.inl ⟨column,row,rfl,hsample⟩⟩)

theorem reads_iff : Clip.Reads s (f.stretchHvx c source protect dst dpitch m).accesses ↔
    s.horizontal.Fits c.x1 ∧ s.vertical.Fits c.y1 := by
  refine c.reads_iff (fun column row hmem => ?_) fun column row hsample =>
    f.first_accesses c source protect dst dpitch m hsample
  rcases f.mem_accesses c source protect dst dpitch m hmem with
    (⟨x,hx,y,hy,_,_,heq,hsample⟩ | ⟨_,_,heq⟩) | ⟨_,_,heq⟩
  · obtain ⟨rfl,rfl⟩ := Access.source.inj heq
    exact ⟨x,hx,y,hy,hsample⟩
  · cases heq
  · cases heq

theorem begun_ratios :
    (f.begun c source protect dst dpitch m).ratios = (f.prepared c dpitch m).ratios := by
  unfold begun heads
  split_ifs
  · rfl
  · rw [upTo_column]

def across2 (s : Sizes) (row x : ℤ) : BitVec 32 :=
  let p := s.horizontal.position x
  let q := s.horizontal.position (x+1)
  f.low (source (s.horizontal.low p) row) (source (s.horizontal.low p+1) row)
    (s.horizontal.ratio f.shiftR6 p) |||
  f.high (source (s.horizontal.low q) row) (source (s.horizontal.low q+1) row)
    (s.horizontal.ratio f.shiftR6 q)

/-- What is interpolated from a line of the source for a word. -/
theorem value_eq (hx : x < c.w2 dst) (row : ℤ) :
    (f.kernel c source protect dst dpitch).value (f.begun c source protect dst dpitch m).ratios
      ((f.kernel c source protect dst dpitch).cursor x) row =
    f.across2 source s row (c.x1+(c.head dst+2*x : ℕ)) := by
  have hparts := c.parts_eq dst
  have hnext : s.horizontal.position (c.x1+(c.head dst+2*x : ℕ))+s.horizontal.fraq =
      s.horizontal.position (c.x1+(c.head dst+2*x : ℕ)+1) := by
    rw [Axis.position_add _ 1,one_mul]
  rw [cursor_eq,begun_ratios,prepared_eq]
  simp only [kernel,hnext]
  rw [if_pos (by omega),if_pos (by omega),Nat.cast_succ,← add_assoc]
  rfl

theorem safe_iff : Safe c (f.kernel c source protect dst dpitch) (f.begun c source protect dst dpitch m)
      (f.stretchHvx c source protect dst dpitch m) (address c dpitch)
      (fun row x => f.across2 source s row (c.x1+(c.head dst+2*x : ℕ))) ↔
    (s.horizontal.Fits c.x1 ∧ s.vertical.Fits c.y1) ∧ PitchFits c dst dpitch := by
  constructor
  · intro hsafe
    exact ⟨(f.reads_iff c source protect dst dpitch m).mp hsafe.reads,
      (f.once_iff c source protect dst dpitch m).mp hsafe.once⟩
  · rintro ⟨hreads,hpitch⟩
    refine ⟨(f.reads_iff c source protect dst dpitch m).mpr hreads,fun i hi => ?_,fun i hi => ?_,
      (f.once_iff c source protect dst dpitch m).mpr hpitch,fun y _ x hx => ?_⟩
    · rcases f.mem_accesses c source protect dst dpitch m hi with
        (⟨_,_,_,_,_,_,heq,_⟩ | ⟨x,hx,heq⟩) | ⟨_,_,heq⟩
      · cases heq
      · obtain rfl := Access.ratio.inj heq
        exact hx
      · cases heq
    · rcases f.mem_accesses c source protect dst dpitch m hi with
        (⟨_,_,_,_,_,_,heq,_⟩ | ⟨_,_,heq⟩) | ⟨i,hi,heq⟩
      · cases heq
      · cases heq
      · obtain rfl := Access.word.inj heq
        exact hi
    · have hfilled := Kernel.filled_upTo c.y1_nonneg (f.begun_line c source protect dst dpitch m)
        (f.begun_lineT c source protect dst dpitch m) y
      obtain ⟨htop,hbottom⟩ := hfilled.holds x hx
      rw [hfilled.ratios,hfilled.lineT,f.value_eq c source protect dst dpitch m hx] at htop hbottom
      exact ⟨htop,hbottom⟩

end Format16

/-- The smooth scaler is safe if there are two columns and rows to interpolate between, or, where it
scales down, if it begins at the first column or row only where it scales by more than a fraction,
and if the pitch of the destination is a number of words. A pixel of 32 bit then is the same for
each clip that it is in. -/
theorem smooth_scale_iff (s : Sizes) (dpitch : ℕ) :
    (∀ (f : Format32) (source : ℤ → ℤ → BitVec 32) (protect : Option (BitVec 32)),
      ∃ pixel : ℤ → ℤ → BitVec 32, ∀ (c : Clip s) (m : Arrays),
        let result := f.stretchHvx c source protect dpitch m
        (Safe c (f.kernel c source protect dpitch) (f.prepared c m dpitch) result
            (Format32.address c dpitch) (fun row x => f.across s source row (c.x1+x)) ∧
          result.writes.Perm (c.pixels.map fun p =>
            (Format32.address c dpitch p,pixel (c.x1+p.1) (c.y1+p.2)))) ↔
          (s.horizontal.Fits c.x1 ∧ s.vertical.Fits c.y1) ∧ (4 ∣ dpitch ∨ c.y1 = c.y2)) ∧
    ∀ (f : Format16) (source : ℤ → ℤ → BitVec 32) (protect : Option (BitVec 16)) (dst : ℕ)
      (c : Clip s) (m : Arrays),
      Safe c (f.kernel c source protect dst dpitch) (f.begun c source protect dst dpitch m)
          (f.stretchHvx c source protect dst dpitch m) (Format16.address c dpitch)
          (fun row x => f.across2 source s row (c.x1+(c.head dst+2*x : ℕ))) ↔
        (s.horizontal.Fits c.x1 ∧ s.vertical.Fits c.y1) ∧ Format16.PitchFits c dst dpitch :=
  ⟨fun f source protect => ⟨f.pixel s source protect,fun c m =>
    f.safe_iff c source protect dpitch m⟩,
    fun f source protect dst c m => f.safe_iff c source protect dst dpitch m⟩

def onePixel : Sizes := ⟨1,1,2,2,by decide,by decide,by decide,by decide⟩

def wholeClip : Clip onePixel :=
  ⟨0,0,1,1,by decide,by decide,by decide,by decide,by decide,by decide⟩

def emptyArrays : Arrays := ⟨fun _ => 0,⟨0,by decide,fun _ => 0⟩,⟨0,by decide,fun _ => 0⟩⟩

/-- The pixel to the right of a single one is read, and the one below it. -/
example : (argb.stretchHvx wholeClip (fun _ _ => 0) none 8 emptyArrays).accesses.take 4 =
    [.ratio 0,.ratio 1,.source 0 0,.source 1 0] := rfl

theorem single_pixel_left : ¬ ∀ (s : Sizes) (dpitch : ℕ) (f : Format32)
    (source : ℤ → ℤ → BitVec 32) (protect : Option (BitVec 32)) (c : Clip s) (m : Arrays),
    Safe c (f.kernel c source protect dpitch) (f.prepared c m dpitch)
      (f.stretchHvx c source protect dpitch m) (Format32.address c dpitch)
      (fun row x => f.across s source row (c.x1+x)) := by
  intro h
  have hsafe := h onePixel 8 argb (fun _ _ => 0) none wholeClip emptyArrays
  have hfits := (argb.reads_iff wholeClip (fun _ _ => 0) none 8 emptyArrays).mp hsafe.reads
  have htwo : (2 : ℤ) ≤ 1 := hfits.1
  revert htwo
  decide

end DirectFB.SmoothScale
