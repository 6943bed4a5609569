import DirectFB.SmoothScale

/-! The functions that scale smoothly to pixels of 32 and of 16 bit, the latter two at a time. -/
namespace DirectFB.SmoothScale
open CountedLoop

structure Sizes where
  width : ℤ
  height : ℤ
  dstWidth : ℤ
  dstHeight : ℤ
  width_pos : 1 ≤ width
  height_pos : 1 ≤ height
  dstWidth_pos : 1 ≤ dstWidth
  dstHeight_pos : 1 ≤ dstHeight

def Sizes.down (s : Sizes) : Bool := s.width > s.dstWidth && s.height > s.dstHeight

def Sizes.horizontal (s : Sizes) : Axis :=
  ⟨s.width,s.dstWidth,s.down,s.width_pos,s.dstWidth_pos,fun h => by
    simp only [Sizes.down,gt_iff_lt,Bool.and_eq_true,decide_eq_true_eq] at h
    exact h.1⟩

def Sizes.vertical (s : Sizes) : Axis :=
  ⟨s.height,s.dstHeight,s.down,s.height_pos,s.dstHeight_pos,fun h => by
    simp only [Sizes.down,gt_iff_lt,Bool.and_eq_true,decide_eq_true_eq] at h
    exact h.2⟩

structure Clip (s : Sizes) where
  x1 : ℤ
  y1 : ℤ
  x2 : ℤ
  y2 : ℤ
  x1_nonneg : 0 ≤ x1
  y1_nonneg : 0 ≤ y1
  x_le : x1 ≤ x2
  y_le : y1 ≤ y2
  x2_lt : x2 < s.dstWidth
  y2_lt : y2 < s.dstHeight

structure Arrays where
  ratios : ℕ → ℤ
  lbT : Buffer
  lbB : Buffer

namespace Clip

variable {s : Sizes} (c : Clip s)

def cw : ℕ := (c.x2-c.x1+1).toNat

def ch : ℕ := (c.y2-c.y1+1).toNat

def pixels : List (ℕ × ℕ) :=
  (List.range c.ch).flatMap fun y => (List.range c.cw).map fun x => (x,y)

def start {π : Type*} (m : Arrays) (size dpitch : ℕ) : State π where
  ratios := m.ratios
  lbT := m.lbT
  lbB := m.lbB
  lineT := -2000
  line := s.vertical.position c.y1
  cursor := ⟨s.horizontal.position c.x1,0⟩
  dst16 := c.x1*size+c.y1*dpitch
  dst32 := c.x1*size+c.y1*dpitch
  accesses := []
  writes := []

def fillRatios {π : Type*} (shift : ℕ) (t : State π) : State π :=
  upTo (fun x t => {t with
    ratios := Function.update t.ratios x (s.horizontal.ratio shift t.cursor.point)
    cursor := {t.cursor with point := t.cursor.point+s.horizontal.fraq}
    accesses := t.accesses++[.ratio x]}) c.cw t

theorem cw_pos : 0 < c.cw := by
  have := c.x_le
  unfold cw
  omega

theorem ch_pos : 0 < c.ch := by
  have := c.y_le
  unfold ch
  omega

theorem x1_add_lt {x : ℕ} (hx : x < c.cw) : c.x1+x < s.dstWidth := by
  have := c.x2_lt
  unfold cw at hx
  omega

theorem y1_add_lt {y : ℕ} (hy : y < c.ch) : c.y1+y < s.dstHeight := by
  have := c.y2_lt
  unfold ch at hy
  omega

theorem fillRatios_eq {π : Type*} (shift : ℕ) (m : Arrays) (size dpitch : ℕ) :
    c.fillRatios shift (c.start m size dpitch : State π) = {(c.start m size dpitch : State π) with
        ratios := fun x => if x < c.cw then
          s.horizontal.ratio shift (s.horizontal.position (c.x1+x)) else m.ratios x
        cursor := ⟨s.horizontal.position (c.x1+c.cw),0⟩
        accesses := (List.range c.cw).map .ratio} := by
  unfold fillRatios
  generalize c.cw = n
  induction n with
  | zero => simp [upTo,start]
  | succ n ih =>
    rw [upTo_succ,ih]
    dsimp only [start]
    congr 1
    · funext x
      rcases lt_trichotomy x n with hx | rfl | hx
      · rw [Function.update_of_ne hx.ne,if_pos hx,if_pos (by omega)]
      · rw [Function.update_self,if_pos (Nat.lt_succ_self x)]
      · rw [Function.update_of_ne hx.ne',if_neg (by omega),if_neg (by omega)]
    · rw [Nat.cast_succ,← add_assoc,Axis.position_add (c.x1+n) 1,one_mul]
    · rw [List.range_succ,List.map_append]
      rfl

theorem mem_pixels {p : ℕ × ℕ} : p ∈ c.pixels ↔ p.1 < c.cw ∧ p.2 < c.ch := by
  unfold pixels
  simp only [List.mem_flatMap,List.mem_map,List.mem_range]
  constructor
  · rintro ⟨y,hy,x,hx,rfl⟩
    exact ⟨hx,hy⟩
  · rintro ⟨hx,hy⟩
    exact ⟨p.2,hy,p.1,hx,rfl⟩

def Sample (x y : ℕ) (column row : ℤ) : Prop :=
  let pl := s.horizontal.low (s.horizontal.position (c.x1+x))
  let nlT := s.vertical.low (s.vertical.position (c.y1+y))
  (column = pl ∨ column = pl+1) ∧ (row = nlT ∨ row = nlT+1)

def Reads (s : Sizes) (l : List Access) : Prop :=
  ∀ column row, .source column row ∈ l → (0 ≤ column ∧ column < s.width) ∧ 0 ≤ row ∧ row < s.height

/-- Where four pixels are read for each of the clip, those for the first one decide. -/
theorem reads_iff {l : List Access}
    (hsound : ∀ column row, .source column row ∈ l →
      ∃ x < c.cw, ∃ y < c.ch, c.Sample x y column row)
    (hfirst : ∀ column row, c.Sample 0 0 column row → .source column row ∈ l) :
    Reads s l ↔ s.horizontal.Fits c.x1 ∧ s.vertical.Fits c.y1 := by
  constructor
  · intro h
    have htop := h _ _ (hfirst _ _ ⟨.inl rfl,.inl rfl⟩)
    have hbottom := h _ _ (hfirst _ _ ⟨.inr rfl,.inr rfl⟩)
    rw [Nat.cast_zero,add_zero,add_zero] at htop hbottom
    exact ⟨Axis.Inside.fits ⟨htop.1.1,hbottom.1.2⟩,Axis.Inside.fits ⟨htop.2.1,hbottom.2.2⟩⟩
  · rintro ⟨hh,hv⟩ column row hmem
    obtain ⟨x,hx,y,hy,hcolumn,hrow⟩ := hsound column row hmem
    have hxin := hh.inside c.x1_nonneg (le_add_of_nonneg_right (Nat.cast_nonneg x)) (c.x1_add_lt hx)
    have hyin := hv.inside c.y1_nonneg (le_add_of_nonneg_right (Nat.cast_nonneg y)) (c.y1_add_lt hy)
    obtain ⟨hx0,hx1⟩ := hxin
    obtain ⟨hy0,hy1⟩ := hyin
    have hw : s.horizontal.size = s.width := rfl
    have hh : s.vertical.size = s.height := rfl
    constructor
    · rcases hcolumn with rfl | rfl <;> omega
    · rcases hrow with rfl | rfl <;> omega

end Clip

/-- An unsigned value of 32 bit as a `long`. -/
def long (v : BitVec 32) : BitVec 64 := v.setWidth 64

/-- Two words interpolated, some of their bits in place and the others, of which the masks are `b`
when they are shifted and `c` in place, shifted to the right before they are multiplied. -/
def blend (shift : ℕ) (a b c : BitVec 32) (first second : BitVec 32) (ratio : ℤ) : BitVec 32 :=
  let r := BitVec.ofInt 64 ratio
  let even := ((long ((second &&& a)-(first &&& a))*r).sshiftRight shift+long (first &&& a)) &&&
    long a
  let odd := (long (((second >>> shift) &&& b)-((first >>> shift) &&& b))*r+long (first &&& c)) &&&
    long c
  (even+odd).setWidth 32

structure Format32 where
  shiftR8 : ℕ
  shiftL8 : ℕ
  x00FF00FF : BitVec 32
  xFF00FF00 : BitVec 32
  maskRgb : BitVec 32

def argb : Format32 := ⟨8,8,0x00ff00ff,0xff00ff00,0x00ffffff⟩

def rgb32 : Format32 := ⟨8,8,0x00ff00ff,0x0000ff00,0x00ffffff⟩

namespace Format32

variable (f : Format32)

def interpolate (first second : BitVec 32) (ratio : ℤ) : BitVec 32 :=
  blend f.shiftR8 f.x00FF00FF f.x00FF00FF f.xFF00FF00 first second ratio

def guarded (protect : Option (BitVec 32)) (dt : BitVec 32) : BitVec 32 :=
  if some (dt &&& f.maskRgb) = protect then dt ^^^ 1 else dt

/-- What `stretch_hvx_up/down_32` does, of which `x` is the index of the ratio. -/
def kernel {s : Sizes} (c : Clip s) (source : ℤ → ℤ → BitVec 32) (protect : Option (BitVec 32))
    (dpitch : ℕ) : Kernel (BitVec 32) where
  vertical := s.vertical
  rows := c.ch
  dpitch := dpitch
  words := c.cw
  start := ⟨s.horizontal.position c.x1,0⟩
  advance p := ⟨p.point+s.horizontal.fraq,p.r+1⟩
  value ratios p row :=
    let pl := s.horizontal.low p.point
    f.interpolate (source pl row) (source (pl+1) row) (ratios p.r)
  reads p row :=
    let pl := s.horizontal.low p.point
    [.source pl row,.source (pl+1) row,.ratio p.r]
  lineRatio := s.vertical.ratio f.shiftL8
  write a T B X := [(a,f.guarded protect (f.interpolate T B X))]

/-- The variables of `stretch_hvx_up/down_32` before it scales line by line. -/
def prepared {s : Sizes} (c : Clip s) (m : Arrays) (dpitch : ℕ) : State (BitVec 32) :=
  c.fillRatios f.shiftL8 (c.start m 4 dpitch)

/-- `stretch_hvx_up/down_32` -/
def stretchHvx {s : Sizes} (c : Clip s) (source : ℤ → ℤ → BitVec 32) (protect : Option (BitVec 32))
    (dpitch : ℕ) (m : Arrays) : State (BitVec 32) :=
  (f.kernel c source protect dpitch).lines (f.prepared c m dpitch)

def across (s : Sizes) (source : ℤ → ℤ → BitVec 32) (row x : ℤ) : BitVec 32 :=
  let p := s.horizontal.position x
  f.interpolate (source (s.horizontal.low p) row) (source (s.horizontal.low p+1) row)
    (s.horizontal.ratio f.shiftL8 p)

def pixel (s : Sizes) (source : ℤ → ℤ → BitVec 32) (protect : Option (BitVec 32)) (x y : ℤ) :
    BitVec 32 :=
  let q := s.vertical.position y
  f.guarded protect (f.interpolate (f.across s source (s.vertical.low q) x)
    (f.across s source (s.vertical.low q+1) x) (s.vertical.ratio f.shiftL8 q))

end Format32

/-- What is asked of a call: it reads no pixel but those of the source, accesses no entries but
those of the arrays, writes each pixel of the clip once and nothing else, and when it combines the
line buffers to a row they hold the two lines of the source between which the row is. -/
structure Safe {π : Type*} {s : Sizes} (c : Clip s) (k : Kernel π) (t : State π)
    (result : State π) (address : ℕ × ℕ → ℤ) (word : ℤ → ℕ → BitVec 32) : Prop where
  reads : Clip.Reads s result.accesses
  ratios : ∀ i, .ratio i ∈ result.accesses → i < c.cw
  words : ∀ i, .word i ∈ result.accesses → i < k.words+8
  once : (result.writes.map Prod.fst).Perm (c.pixels.map address)
  lines : ∀ y < c.ch,
    let nlT := s.vertical.low (s.vertical.position (c.y1+y))
    let u := k.fill (s.vertical.low (upTo k.row y t).line) (upTo k.row y t)
    ∀ x < k.words, u.lbT.words x = word nlT x ∧ u.lbB.words x = word (nlT+1) x

namespace Format32

variable {s : Sizes} (f : Format32) (c : Clip s) (source : ℤ → ℤ → BitVec 32)
  (protect : Option (BitVec 32)) (dpitch : ℕ) (m : Arrays)

def address (p : ℕ × ℕ) : ℤ := (c.x1+p.1)*4+(c.y1+p.2)*dpitch

theorem cursor_eq (x : ℕ) :
    (f.kernel c source protect dpitch).cursor x = ⟨s.horizontal.position (c.x1+x),x⟩ := by
  induction x with
  | zero => simp [Kernel.cursor,kernel]
  | succ x ih =>
    rw [Kernel.cursor_succ,ih]
    simp only [kernel]
    rw [Nat.cast_succ,← add_assoc,Axis.position_add (c.x1+x) 1,one_mul]

theorem linePosition_eq (y : ℕ) :
    (f.kernel c source protect dpitch).linePosition c.y1 y = s.vertical.position (c.y1+y) := rfl

theorem prepared_eq : f.prepared c m dpitch = {(c.start m 4 dpitch : State (BitVec 32)) with
    ratios := fun x => if x < c.cw then
      s.horizontal.ratio f.shiftL8 (s.horizontal.position (c.x1+x)) else m.ratios x
    cursor := ⟨s.horizontal.position (c.x1+c.cw),0⟩
    accesses := (List.range c.cw).map .ratio} :=
  c.fillRatios_eq _ _ _ _

theorem prepared_line :
    (f.prepared c m dpitch).line = (f.kernel c source protect dpitch).linePosition c.y1 0 := by
  rw [prepared_eq,linePosition_eq]
  simp [Clip.start]

theorem prepared_lineT : (f.prepared c m dpitch).lineT = -2000 := by
  rw [prepared_eq]
  rfl

theorem value_eq {x : ℕ} (hx : x < c.cw) (row : ℤ) :
    (f.kernel c source protect dpitch).value (f.prepared c m dpitch).ratios
      ((f.kernel c source protect dpitch).cursor x) row = f.across s source row (c.x1+x) := by
  rw [cursor_eq,prepared_eq]
  simp only [kernel]
  rw [if_pos hx]
  rfl

def written (p : ℕ × ℕ) : ℤ := c.x1*4+c.y1*dpitch+p.2*(4*(dpitch/4 : ℕ))+4*p.1

theorem writes_eq : (f.stretchHvx c source protect dpitch m).writes = c.pixels.map fun p =>
    (written c dpitch p,f.pixel s source protect (c.x1+p.1) (c.y1+p.2)) := by
  have hlines := (Kernel.before_upTo c.y1_nonneg (f.prepared_line c source protect dpitch m)
    (f.prepared_lineT c dpitch m) c.ch).writes
  have hnil : (f.prepared c m dpitch).writes = [] := by
    rw [prepared_eq]
    rfl
  refine hlines.trans ?_
  rw [hnil,List.nil_append,Clip.pixels,List.map_flatMap]
  refine List.flatMap_congr fun y hy => ?_
  rw [List.map_map]
  refine Eq.trans ?_ (List.flatMap_pure_eq_map _ _)
  unfold Kernel.rowWrites
  dsimp only
  refine List.flatMap_congr fun x hx => ?_
  have hx : x < c.cw := List.mem_range.mp hx
  rw [f.value_eq c source protect dpitch m hx,f.value_eq c source protect dpitch m hx,prepared_eq,
    linePosition_eq]
  rfl

theorem address_eq (p : ℕ × ℕ) : address c dpitch p = written c dpitch p+(p.2*(dpitch%4) : ℕ) := by
  have hdiv : (dpitch : ℤ) = 4*(dpitch/4 : ℕ)+(dpitch%4 : ℕ) := by
    rw [← Nat.cast_ofNat,← Nat.cast_mul,← Nat.cast_add,Nat.div_add_mod]
  unfold address written
  rw [Nat.cast_mul]
  linear_combination (p.2 : ℤ)*hdiv

theorem written_le (p : ℕ × ℕ) : written c dpitch p ≤ address c dpitch p := by
  rw [address_eq]
  exact le_add_of_nonneg_right (Nat.cast_nonneg _)

/-- Every row is where it belongs if the pitch is a number of words, or if there is only one. -/
theorem written_eq_iff : (∀ p ∈ c.pixels, written c dpitch p = address c dpitch p) ↔
    4 ∣ dpitch ∨ c.y1 = c.y2 := by
  constructor
  · intro h
    by_contra! hout
    have := c.y_le
    have hsecond : (0,1) ∈ c.pixels := c.mem_pixels.mpr ⟨c.cw_pos,by unfold Clip.ch; omega⟩
    have heq := h _ hsecond
    rw [address_eq] at heq
    omega
  · intro h p hp
    have hzero : p.2*(dpitch%4) = 0 := by
      rcases h with hdvd | hone
      · rw [Nat.mod_eq_zero_of_dvd hdvd,mul_zero]
      · obtain ⟨-,hy⟩ := c.mem_pixels.mp hp
        unfold Clip.ch at hy
        rw [show p.2 = 0 by omega,zero_mul]
    rw [address_eq,hzero,Nat.cast_zero,add_zero]

theorem once_iff : ((f.stretchHvx c source protect dpitch m).writes.map Prod.fst).Perm
    (c.pixels.map (address c dpitch)) ↔ 4 ∣ dpitch ∨ c.y1 = c.y2 := by
  rw [writes_eq,List.map_map,← written_eq_iff]
  exact perm_map_iff fun p _ => written_le c dpitch p

theorem mem_rowReads {x y : ℕ} {a : Access} :
    a ∈ (f.kernel c source protect dpitch).rowReads c.y1 x y ↔
      (∃ column row, a = .source column row ∧ c.Sample x y column row) ∨ a = .ratio x := by
  unfold Kernel.rowReads Clip.Sample
  rw [cursor_eq,linePosition_eq]
  simp only [kernel,List.mem_append,List.mem_cons,List.not_mem_nil,or_false]
  constructor
  · rintro ((rfl | rfl | rfl) | (rfl | rfl | rfl))
    · exact .inl ⟨_,_,rfl,.inl rfl,.inl rfl⟩
    · exact .inl ⟨_,_,rfl,.inr rfl,.inl rfl⟩
    · exact .inr rfl
    · exact .inl ⟨_,_,rfl,.inl rfl,.inr rfl⟩
    · exact .inl ⟨_,_,rfl,.inr rfl,.inr rfl⟩
    · exact .inr rfl
  · rintro (⟨_,_,rfl,rfl | rfl,rfl | rfl⟩ | rfl) <;> tauto

theorem mem_accesses {a : Access} (ha : a ∈ (f.stretchHvx c source protect dpitch m).accesses) :
    (∃ x < c.cw, ∃ y < c.ch, ∃ column row, a = .source column row ∧ c.Sample x y column row) ∨
      (∃ x < c.cw, a = .ratio x) ∨ ∃ i < c.cw+8, a = .word i := by
  rcases Kernel.mem_lines_accesses c.y1_nonneg (f.prepared_line c source protect dpitch m)
    (f.prepared_lineT c dpitch m) ha with ha | ⟨x,hx,y,hy,ha⟩ | hword
  · rw [prepared_eq] at ha
    obtain ⟨x,hx,rfl⟩ := List.mem_map.mp ha
    exact .inr (.inl ⟨x,List.mem_range.mp hx,rfl⟩)
  · rcases (f.mem_rowReads c source protect dpitch).mp ha with hsource | rfl
    · exact .inl ⟨x,hx,y,hy,hsource⟩
    · exact .inr (.inl ⟨x,hx,rfl⟩)
  · exact .inr (.inr hword)

theorem reads_iff : Clip.Reads s (f.stretchHvx c source protect dpitch m).accesses ↔
    s.horizontal.Fits c.x1 ∧ s.vertical.Fits c.y1 := by
  refine c.reads_iff (fun column row hmem => ?_) fun column row hsample => ?_
  · rcases f.mem_accesses c source protect dpitch m hmem with
      ⟨x,hx,y,hy,_,_,heq,hsample⟩ | ⟨_,_,heq⟩ | ⟨_,_,heq⟩
    · obtain ⟨rfl,rfl⟩ := Access.source.inj heq
      exact ⟨x,hx,y,hy,hsample⟩
    · cases heq
    · cases heq
  · refine Kernel.rowReads_subset c.ch_pos c.y1_nonneg (f.prepared_line c source protect dpitch m)
      (f.prepared_lineT c dpitch m) c.cw_pos ?_
    exact (f.mem_rowReads c source protect dpitch).mpr (.inl ⟨_,_,rfl,hsample⟩)

/-- A call is safe, and writes the pixels that are at their positions whatever the clip is, where
the source fits and the pitch is a number of words. -/
theorem safe_iff : (Safe c (f.kernel c source protect dpitch) (f.prepared c m dpitch)
        (f.stretchHvx c source protect dpitch m) (address c dpitch)
        (fun row x => f.across s source row (c.x1+x)) ∧
      (f.stretchHvx c source protect dpitch m).writes.Perm (c.pixels.map fun p =>
        (address c dpitch p,f.pixel s source protect (c.x1+p.1) (c.y1+p.2)))) ↔
      (s.horizontal.Fits c.x1 ∧ s.vertical.Fits c.y1) ∧ (4 ∣ dpitch ∨ c.y1 = c.y2) := by
  constructor
  · rintro ⟨hsafe,-⟩
    exact ⟨(f.reads_iff c source protect dpitch m).mp hsafe.reads,
      (f.once_iff c source protect dpitch m).mp hsafe.once⟩
  · rintro ⟨hreads,hpitch⟩
    refine ⟨⟨(f.reads_iff c source protect dpitch m).mpr hreads,fun i hi => ?_,fun i hi => ?_,
      (f.once_iff c source protect dpitch m).mpr hpitch,fun y _ x hx => ?_⟩,?_⟩
    · rcases f.mem_accesses c source protect dpitch m hi with
        ⟨_,_,_,_,_,_,heq,_⟩ | ⟨x,hx,heq⟩ | ⟨_,_,heq⟩
      · cases heq
      · obtain rfl := Access.ratio.inj heq
        exact hx
      · cases heq
    · rcases f.mem_accesses c source protect dpitch m hi with
        ⟨_,_,_,_,_,_,heq,_⟩ | ⟨_,_,heq⟩ | ⟨i,hi,heq⟩
      · cases heq
      · cases heq
      · obtain rfl := Access.word.inj heq
        exact hi
    · have hfilled := Kernel.filled_upTo c.y1_nonneg (f.prepared_line c source protect dpitch m)
        (f.prepared_lineT c dpitch m) y
      obtain ⟨htop,hbottom⟩ := hfilled.holds x hx
      rw [hfilled.ratios,hfilled.lineT,f.value_eq c source protect dpitch m hx] at htop hbottom
      exact ⟨htop,hbottom⟩
    · rw [writes_eq]
      refine List.Perm.of_eq (List.map_congr_left fun p hp => ?_)
      rw [(written_eq_iff c dpitch).mpr hpitch p hp]

end Format32

end DirectFB.SmoothScale
