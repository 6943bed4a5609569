import DirectFB.CountedLoop

/-! The smooth scaling of a picture. Each pixel is interpolated between four of the source, at first
along the two lines, which are kept in buffers, and then between them. -/
namespace DirectFB.SmoothScale
open CountedLoop

/-- One direction of a scaled picture: the length of the source, that of the destination, and
which of the two sets of macros is used. -/
structure Axis where
  size : ℤ
  dst : ℤ
  down : Bool
  size_pos : 1 ≤ size
  dst_pos : 1 ≤ dst
  down_lt : down = true → dst < size

namespace Axis

variable (a : Axis)

/-- `hfraq` and `vfraq`, with `MINUS_1` -/
def fraq : ℤ := (a.size-if a.down then 0 else 1)*0x40000/a.dst

/-- `POINT_0` and `LINE_0` -/
def zero : ℤ := if a.down then a.fraq else 0

/-- `POINT_L` and `LINE_T` -/
def low (p : ℤ) : ℤ := if a.down then (p-1)/0x40000-1 else p/0x40000

/-- `POINT_R` and `LINE_B` -/
def high (p : ℤ) : ℤ := if a.down then (p-1)/0x40000 else p/0x40000+1

/-- `POINT_TO_RATIO` and `LINE_TO_RATIO` -/
def ratio (shift : ℕ) (p : ℤ) : ℤ :=
  if a.down then (if p%0x40000 = 0 then 0x40000 else p%0x40000)*2^shift/a.fraq
  else p%0x40000/2^(18-shift)

def position (k : ℤ) : ℤ := a.zero+k*a.fraq

def Inside (p : ℤ) : Prop := 0 ≤ a.low p ∧ a.low p+1 < a.size

def Fits (first : ℤ) : Prop :=
  if a.down then first = 0 → a.dst ≤ (a.size-a.dst)*0x40000 else 2 ≤ a.size

instance (first : ℤ) : Decidable (a.Fits first) :=
  inferInstanceAs (Decidable (ite _ _ _))

variable {a}

theorem high_eq (p : ℤ) : a.high p = a.low p+1 := by
  unfold high low
  split_ifs <;> ring

theorem position_add (k n : ℤ) : a.position (k+n) = a.position k+n*a.fraq := by
  unfold position
  ring

theorem dst_mul_fraq_le : a.dst*a.fraq ≤ (a.size-if a.down then 0 else 1)*0x40000 :=
  Int.mul_ediv_self_le (by have := a.dst_pos; omega)

theorem fraq_nonneg : 0 ≤ a.fraq := by
  have := a.size_pos
  have := a.dst_pos
  unfold fraq
  apply Int.ediv_nonneg
  · split_ifs <;> omega
  · omega

theorem le_fraq (hdown : a.down = true) : 0x40000 ≤ a.fraq := by
  have := a.down_lt hdown
  have := a.dst_pos
  unfold fraq
  rw [if_pos hdown,Int.le_ediv_iff_mul_le (by omega)]
  omega

theorem lt_fraq_iff (hdown : a.down = true) :
    0x40000 < a.fraq ↔ a.dst ≤ (a.size-a.dst)*0x40000 := by
  have := a.dst_pos
  unfold fraq
  rw [if_pos hdown,← Int.add_one_le_iff,Int.le_ediv_iff_mul_le (by omega)]
  constructor <;> intro h <;> linarith

theorem low_mono {k k' : ℤ} (h : k ≤ k') : a.low (a.position k) ≤ a.low (a.position k') := by
  have hle : a.position k ≤ a.position k' :=
    add_le_add_right (mul_le_mul_of_nonneg_right h fraq_nonneg) _
  unfold low
  split_ifs <;> omega

theorem neg_one_le_low {k : ℤ} (hk : 0 ≤ k) : -1 ≤ a.low (a.position k) := by
  have hfraq := a.fraq_nonneg
  have hpos := mul_nonneg hk hfraq
  unfold low position zero
  split_ifs with hdown
  · have := le_fraq hdown
    omega
  · omega

theorem low_add_one_lt {k : ℤ} (hlt : k < a.dst)
    (hsize : a.down = false → 2 ≤ a.size) : a.low (a.position k)+1 < a.size := by
  have hfraq := a.fraq_nonneg
  have hmul := a.dst_mul_fraq_le
  have hlast : (k+1)*a.fraq ≤ a.dst*a.fraq := mul_le_mul_of_nonneg_right hlt hfraq
  unfold low position zero
  cases hdown : a.down with
  | true =>
    rw [hdown] at hmul
    simp only [if_true] at hmul ⊢
    have : a.fraq+k*a.fraq = (k+1)*a.fraq := by ring
    omega
  | false =>
    have := hsize hdown
    rw [hdown] at hmul
    simp only [if_false,Bool.false_eq_true] at hmul ⊢
    have : (k+1)*a.fraq = k*a.fraq+a.fraq := by ring
    -- where the positions do not advance they are all at the first pixel
    rcases hfraq.eq_or_lt with hzero | hpos
    · rw [← hzero,mul_zero]
      omega
    · omega

/-- From a first column or row that fits on no pixel is off the source. -/
theorem Fits.inside {first k : ℤ} (h : a.Fits first) (h0 : 0 ≤ first) (hk : first ≤ k)
    (hlt : k < a.dst) : a.Inside (a.position k) := by
  have hk0 : 0 ≤ k := h0.trans hk
  unfold Fits at h
  refine ⟨?_,low_add_one_lt hlt fun hdown => by simpa [hdown] using h⟩
  have hfraq := a.fraq_nonneg
  unfold low position zero
  cases hdown : a.down with
  | true =>
    simp only [hdown,if_true] at h ⊢
    have hle := le_fraq hdown
    rcases hk0.eq_or_lt with rfl | hpos
    · have := (lt_fraq_iff hdown).mpr (h (by omega))
      omega
    · have : 1*a.fraq ≤ k*a.fraq := mul_le_mul_of_nonneg_right hpos hfraq
      omega
  | false =>
    simp only [if_false,Bool.false_eq_true]
    have := mul_nonneg hk0 hfraq
    omega

theorem Inside.fits {first : ℤ} (h : a.Inside (a.position first)) : a.Fits first := by
  obtain ⟨hlow,hhigh⟩ := h
  unfold Fits
  cases hdown : a.down with
  | true =>
    simp only [if_true]
    rintro rfl
    rw [← lt_fraq_iff hdown]
    simp only [low,position,zero,hdown,if_true] at hlow
    omega
  | false =>
    simp only [if_false,Bool.false_eq_true]
    omega

end Axis

/-- A line buffer: where the array is, and the words from the first address in it on that is a
multiple of 32. -/
structure Buffer where
  base : ℕ
  aligned : 4 ∣ base
  words : ℕ → BitVec 32

def Buffer.first (b : Buffer) : ℕ := ((b.base+31)/32*32-b.base)/4

def Buffer.set (b : Buffer) (x : ℕ) (v : BitVec 32) : Buffer :=
  {b with words := Function.update b.words x v}

def Buffer.over (b : Buffer) (n : ℕ) (f : ℕ → BitVec 32) : Buffer :=
  {b with words := fun x => if x < n then f x else b.words x}

/-- An access to a pixel of the source, to the table of ratios or to the array of a line buffer. -/
inductive Access
  | source (column row : ℤ)
  | ratio (i : ℕ)
  | word (i : ℕ)

structure Cursor where
  point : ℤ
  r : ℕ

/-- What the functions for 16 and for 32 bit differ in: how many words a line has and where its
pixels are, how a word is interpolated from the source, and how it is written. -/
structure Kernel (π : Type*) where
  vertical : Axis
  rows : ℕ
  dpitch : ℕ
  words : ℕ
  start : Cursor
  advance : Cursor → Cursor
  value : (ℕ → ℤ) → Cursor → ℤ → BitVec 32
  reads : Cursor → ℤ → List Access
  lineRatio : ℤ → ℤ
  write : ℤ → BitVec 32 → BitVec 32 → ℤ → List (ℤ × π)

/-- The variables of the functions. What is written is listed with its address. -/
structure State (π : Type*) where
  ratios : ℕ → ℤ
  lbT : Buffer
  lbB : Buffer
  lineT : ℤ
  line : ℤ
  cursor : Cursor
  dst16 : ℤ
  dst32 : ℤ
  accesses : List Access
  writes : List (ℤ × π)

variable {π : Type*}

namespace Kernel

variable (k : Kernel π)

def fillBoth (nlT : ℤ) (x : ℕ) (s : State π) : State π :=
  {s with
    lbT := s.lbT.set x (k.value s.ratios s.cursor nlT)
    lbB := s.lbB.set x (k.value s.ratios s.cursor (nlT+1))
    cursor := k.advance s.cursor
    accesses := s.accesses++(k.reads s.cursor nlT++k.reads s.cursor (nlT+1)++
      [.word (s.lbT.first+x),.word (s.lbB.first+x)])}

def fillBottom (nlT : ℤ) (x : ℕ) (s : State π) : State π :=
  {s with
    lbB := s.lbB.set x (k.value s.ratios s.cursor (nlT+1))
    cursor := k.advance s.cursor
    accesses := s.accesses++(k.reads s.cursor (nlT+1)++[.word (s.lbB.first+x)])}

def fill (nlT : ℤ) (s : State π) : State π :=
  if nlT = s.lineT then s
  else
    let t := {s with cursor := k.start}
    let t := if nlT-s.lineT > 1 then upTo (k.fillBoth nlT) k.words t
      else upTo (k.fillBottom nlT) k.words {t with lbT := t.lbB, lbB := t.lbT}
    {t with lineT := nlT}

def combine (x : ℕ) (s : State π) : State π :=
  {s with
    accesses := s.accesses++[.word (s.lbB.first+x),.word (s.lbT.first+x)]
    writes := s.writes++ k.write (s.dst32+4*x) (s.lbT.words x) (s.lbB.words x) (k.lineRatio s.line)}

def nextRow (s : State π) : State π :=
  {s with dst32 := s.dst32+4*(k.dpitch/4 : ℕ), line := s.line+k.vertical.fraq}

def row (_ : ℕ) (s : State π) : State π :=
  k.nextRow (upTo k.combine k.words (k.fill (k.vertical.low s.line) s))

def lines (s : State π) : State π := upTo k.row k.rows s

def cursor (x : ℕ) : Cursor := k.advance^[x] k.start

def linePosition (y1 : ℤ) (y : ℕ) : ℤ := k.vertical.position (y1+y)

/-- The line buffers hold the source lines `lineT` and the one below it. -/
def Holds (s : State π) : Prop :=
  ∀ x < k.words, s.lbT.words x = k.value s.ratios (k.cursor x) s.lineT ∧
    s.lbB.words x = k.value s.ratios (k.cursor x) (s.lineT+1)

def rowWrites (s : State π) (y1 : ℤ) (y : ℕ) : List (ℤ × π) :=
  let p := k.linePosition y1 y
  (List.range k.words).flatMap fun x : ℕ =>
    k.write (s.dst32+y*(4*(k.dpitch/4 : ℕ))+4*x) (k.value s.ratios (k.cursor x) (k.vertical.low p))
      (k.value s.ratios (k.cursor x) (k.vertical.low p+1)) (k.lineRatio p)

end Kernel

section Buffers

variable (b : Buffer) (f : ℕ → BitVec 32)

theorem Buffer.over_zero : b.over 0 f = b := rfl

theorem Buffer.set_over (n : ℕ) : (b.over n f).set n (f n) = b.over (n+1) f := by
  unfold Buffer.set Buffer.over
  congr 1
  funext x
  rcases lt_trichotomy x n with hx | rfl | hx
  · rw [Function.update_of_ne hx.ne]
    dsimp only
    rw [if_pos hx,if_pos (by omega)]
  · rw [Function.update_self,if_pos (Nat.lt_succ_self x)]
  · rw [Function.update_of_ne hx.ne']
    dsimp only
    rw [if_neg (by omega),if_neg (by omega)]

theorem Buffer.first_lt : b.first < 8 := by
  unfold Buffer.first
  have := b.aligned
  omega

end Buffers

namespace Kernel

variable {k : Kernel π}

theorem cursor_succ (x : ℕ) : k.cursor (x+1) = k.advance (k.cursor x) :=
  Function.iterate_succ_apply' _ _ _

theorem upTo_fillBoth (nlT : ℤ) (s : State π) (n : ℕ) :
    upTo (k.fillBoth nlT) n {s with cursor := k.start} = {s with
      lbT := s.lbT.over n fun x => k.value s.ratios (k.cursor x) nlT
      lbB := s.lbB.over n fun x => k.value s.ratios (k.cursor x) (nlT+1)
      cursor := k.cursor n
      accesses := s.accesses++(List.range n).flatMap fun x =>
        k.reads (k.cursor x) nlT++k.reads (k.cursor x) (nlT+1)++
          [.word (s.lbT.first+x),.word (s.lbB.first+x)]} := by
  induction n with
  | zero => simp [upTo,Buffer.over_zero,cursor]
  | succ n ih =>
    rw [upTo_succ,ih,flatMap_range_succ,cursor_succ,← List.append_assoc,← Buffer.set_over,
      ← Buffer.set_over]
    rfl

theorem upTo_fillBottom (nlT : ℤ) (s : State π) (n : ℕ) :
    upTo (k.fillBottom nlT) n {s with cursor := k.start} = {s with
      lbB := s.lbB.over n fun x => k.value s.ratios (k.cursor x) (nlT+1)
      cursor := k.cursor n
      accesses := s.accesses++(List.range n).flatMap fun x =>
        k.reads (k.cursor x) (nlT+1)++[.word (s.lbB.first+x)]} := by
  induction n with
  | zero => simp [upTo,Buffer.over_zero,cursor]
  | succ n ih =>
    rw [upTo_succ,ih,flatMap_range_succ,cursor_succ,← List.append_assoc,← Buffer.set_over]
    rfl

theorem upTo_combine (s : State π) (n : ℕ) : upTo k.combine n s = {s with
      accesses := s.accesses++(List.range n).flatMap fun x =>
        [.word (s.lbB.first+x),.word (s.lbT.first+x)]
      writes := s.writes++(List.range n).flatMap fun x : ℕ =>
        k.write (s.dst32+4*x) (s.lbT.words x) (s.lbB.words x) (k.lineRatio s.line)} := by
  induction n with
  | zero => simp [upTo]
  | succ n ih =>
    rw [upTo_succ,ih,flatMap_range_succ,flatMap_range_succ,← List.append_assoc,← List.append_assoc]
    rfl

/-- What holds before a row, where the rows begin with the row `y1` of the destination. -/
structure Before (k : Kernel π) (y1 : ℤ) (s0 : State π) (y : ℕ) (s : State π) : Prop where
  ratios : s.ratios = s0.ratios
  line : s.line = k.linePosition y1 y
  dst32 : s.dst32 = s0.dst32+y*(4*(k.dpitch/4 : ℕ))
  writes : s.writes = s0.writes++(List.range y).flatMap (k.rowWrites s0 y1)
  lineT : y = 0 ∧ s.lineT = -2000 ∨ ∃ z, y = z+1 ∧
    s.lineT = k.vertical.low (k.linePosition y1 z) ∧ k.Holds s ∧ s.cursor = k.cursor k.words

structure Filled (k : Kernel π) (y1 : ℤ) (s0 : State π) (y : ℕ) (s : State π) : Prop where
  ratios : s.ratios = s0.ratios
  line : s.line = k.linePosition y1 y
  dst32 : s.dst32 = s0.dst32+y*(4*(k.dpitch/4 : ℕ))
  writes : s.writes = s0.writes++(List.range y).flatMap (k.rowWrites s0 y1)
  lineT : s.lineT = k.vertical.low (k.linePosition y1 y)
  holds : k.Holds s
  cursor : s.cursor = k.cursor k.words

section Rows

variable {y1 : ℤ} {s0 s : State π} {y : ℕ}

theorem linePosition_succ (y : ℕ) :
    k.linePosition y1 (y+1) = k.linePosition y1 y+k.vertical.fraq := by
  unfold linePosition
  rw [Nat.cast_succ,← add_assoc,Axis.position_add,one_mul]

/-- Lines are filled from above to below, so that the one line that follows is in the lower buffer
until the buffers are swapped. -/
theorem Before.fill (hy1 : 0 ≤ y1) (h : Before k y1 s0 y s) :
    Filled k y1 s0 y (k.fill (k.vertical.low s.line) s) := by
  have hpos : 0 ≤ y1+(y : ℤ) := by omega
  have hlow : -1 ≤ k.vertical.low (k.linePosition y1 y) := Axis.neg_one_le_low hpos
  obtain ⟨hratios,hline,hdst,hwrites,hlineT⟩ := h
  rw [hline]
  unfold Kernel.fill
  split_ifs with hsame hdiff
  · rcases hlineT with ⟨-,hinit⟩ | ⟨z,-,-,hholds,hcursor⟩
    · omega
    · exact ⟨hratios,hline,hdst,hwrites,hsame.symm,hholds,hcursor⟩
  · dsimp only
    rw [upTo_fillBoth]
    refine ⟨hratios,hline,hdst,hwrites,rfl,fun x hx => ?_,rfl⟩
    simp only [Buffer.over,if_pos hx,and_self]
  · dsimp only
    rw [upTo_fillBottom _ {s with lbT := s.lbB, lbB := s.lbT}]
    refine ⟨hratios,hline,hdst,hwrites,rfl,fun x hx => ?_,rfl⟩
    rcases hlineT with ⟨-,hinit⟩ | ⟨z,rfl,hlast,hholds,-⟩
    · omega
    · have hmono : k.vertical.low (k.linePosition y1 z) ≤
          k.vertical.low (k.linePosition y1 (z+1 : ℕ)) :=
        Axis.low_mono (by push_cast; omega)
      have hnext : k.vertical.low (k.linePosition y1 (z+1 : ℕ)) = s.lineT+1 := by omega
      simp only [Buffer.over,if_pos hx,and_true]
      rw [hnext]
      exact (hholds x hx).2

theorem Filled.row (h : Filled k y1 s0 y s) :
    Before k y1 s0 (y+1) (k.nextRow (upTo k.combine k.words s)) := by
  obtain ⟨hratios,hline,hdst,hwrites,hlineT,hholds,hcursor⟩ := h
  rw [upTo_combine]
  refine ⟨hratios,?_,?_,?_,.inr ⟨y,rfl,hlineT,hholds,hcursor⟩⟩
  · rw [linePosition_succ,← hline]
    rfl
  · dsimp only [nextRow]
    rw [hdst]
    push_cast
    ring
  · rw [flatMap_range_succ,← List.append_assoc,← hwrites]
    dsimp only [nextRow]
    congr 1
    refine List.flatMap_congr fun x hx => ?_
    obtain ⟨htop,hbottom⟩ := hholds x (List.mem_range.mp hx)
    rw [htop,hbottom,hratios,hlineT,hline,hdst]

theorem Before.row (hy1 : 0 ≤ y1) (h : Before k y1 s0 y s) : Before k y1 s0 (y+1) (k.row y s) :=
  (h.fill hy1).row

theorem before_upTo (hy1 : 0 ≤ y1) (hline : s0.line = k.linePosition y1 0)
    (hlineT : s0.lineT = -2000) (y : ℕ) : Before k y1 s0 y (upTo k.row y s0) :=
  upTo_keeps (P := Before k y1 s0) ⟨rfl,hline,by simp,by simp,.inl ⟨rfl,hlineT⟩⟩
    fun _ _ _ h => h.row hy1

theorem filled_upTo (hy1 : 0 ≤ y1) (hline : s0.line = k.linePosition y1 0)
    (hlineT : s0.lineT = -2000) (y : ℕ) :
    Filled k y1 s0 y (k.fill (k.vertical.low (upTo k.row y s0).line) (upTo k.row y s0)) :=
  (before_upTo hy1 hline hlineT y).fill hy1

def rowReads (k : Kernel π) (y1 : ℤ) (x y : ℕ) : List Access :=
  k.reads (k.cursor x) (k.vertical.low (k.linePosition y1 y))++
    k.reads (k.cursor x) (k.vertical.low (k.linePosition y1 y)+1)

theorem mem_fill_accesses {nlT : ℤ} {a : Access} (ha : a ∈ (k.fill nlT s).accesses) :
    a ∈ s.accesses ∨ (∃ x < k.words, a ∈ k.reads (k.cursor x) nlT++k.reads (k.cursor x) (nlT+1)) ∨
      ∃ i < k.words+8, a = .word i := by
  have hT := s.lbT.first_lt
  have hB := s.lbB.first_lt
  unfold Kernel.fill at ha
  split_ifs at ha with hsame hdiff
  · exact .inl ha
  · dsimp only at ha
    rw [upTo_fillBoth] at ha
    dsimp only at ha
    rcases List.mem_append.mp ha with ha | ha
    · exact .inl ha
    · obtain ⟨x,hx,ha⟩ := List.mem_flatMap.mp ha
      have hx := List.mem_range.mp hx
      rcases List.mem_append.mp ha with ha | ha
      · exact .inr (.inl ⟨x,hx,ha⟩)
      · rcases List.mem_pair.mp ha with rfl | rfl
        · exact .inr (.inr ⟨_,by omega,rfl⟩)
        · exact .inr (.inr ⟨_,by omega,rfl⟩)
  · dsimp only at ha
    rw [upTo_fillBottom _ {s with lbT := s.lbB, lbB := s.lbT}] at ha
    dsimp only at ha
    rcases List.mem_append.mp ha with ha | ha
    · exact .inl ha
    · obtain ⟨x,hx,ha⟩ := List.mem_flatMap.mp ha
      have hx := List.mem_range.mp hx
      rcases List.mem_append.mp ha with ha | ha
      · exact .inr (.inl ⟨x,hx,List.mem_append_right _ ha⟩)
      · obtain rfl := List.mem_singleton.mp ha
        exact .inr (.inr ⟨_,by omega,rfl⟩)

theorem mem_combine_accesses {a : Access} (ha : a ∈ (upTo k.combine k.words s).accesses) :
    a ∈ s.accesses ∨ ∃ i < k.words+8, a = .word i := by
  have hT := s.lbT.first_lt
  have hB := s.lbB.first_lt
  rw [upTo_combine] at ha
  dsimp only at ha
  rcases List.mem_append.mp ha with ha | ha
  · exact .inl ha
  · obtain ⟨x,hx,ha⟩ := List.mem_flatMap.mp ha
    have hx := List.mem_range.mp hx
    rcases List.mem_pair.mp ha with rfl | rfl
    · exact .inr ⟨_,by omega,rfl⟩
    · exact .inr ⟨_,by omega,rfl⟩

/-- Nothing is accessed but the four pixels of each word and what the line buffers have room for. -/
theorem mem_lines_accesses (hy1 : 0 ≤ y1) (hline : s0.line = k.linePosition y1 0)
    (hlineT : s0.lineT = -2000) {a : Access} (ha : a ∈ (k.lines s0).accesses) :
    a ∈ s0.accesses ∨ (∃ x < k.words, ∃ y < k.rows, a ∈ k.rowReads y1 x y) ∨
      ∃ i < k.words+8, a = .word i := by
  have hkeeps : Before k y1 s0 k.rows (k.lines s0) ∧ ∀ a ∈ (k.lines s0).accesses,
      a ∈ s0.accesses ∨ (∃ x < k.words, ∃ y < k.rows, a ∈ k.rowReads y1 x y) ∨
        ∃ i < k.words+8, a = .word i := by
    refine upTo_keeps (P := fun y s => Before k y1 s0 y s ∧ ∀ a ∈ s.accesses, a ∈ s0.accesses ∨
      (∃ x < k.words, ∃ y < k.rows, a ∈ k.rowReads y1 x y) ∨ ∃ i < k.words+8, a = .word i)
      ⟨before_upTo hy1 hline hlineT 0,fun a ha => .inl ha⟩ ?_
    rintro y hy s ⟨hbefore,hall⟩
    refine ⟨hbefore.row hy1,fun a ha => ?_⟩
    rcases mem_combine_accesses (k := k) ha with ha | hword
    · rcases mem_fill_accesses ha with ha | ⟨x,hx,ha⟩ | hword
      · exact hall a ha
      · rw [hbefore.line] at ha
        exact .inr (.inl ⟨x,hx,y,hy,ha⟩)
      · exact .inr (.inr hword)
    · exact .inr (.inr hword)
  exact hkeeps.2 a ha

theorem subset_row_accesses (y : ℕ) : s.accesses ⊆ (k.row y s).accesses := by
  intro a ha
  have hfill : a ∈ (k.fill (k.vertical.low s.line) s).accesses := by
    unfold Kernel.fill
    split_ifs
    · exact ha
    · dsimp only
      rw [upTo_fillBoth]
      exact List.mem_append_left _ ha
    · dsimp only
      rw [upTo_fillBottom _ {s with lbT := s.lbB, lbB := s.lbT}]
      exact List.mem_append_left _ ha
  unfold Kernel.row
  rw [upTo_combine]
  exact List.mem_append_left _ hfill

theorem subset_lines_accesses : s0.accesses ⊆ (k.lines s0).accesses :=
  upTo_keeps (P := fun _ (s : State π) => s0.accesses ⊆ s.accesses) (fun _ h => h)
    fun y _ _ h _ ha => subset_row_accesses y (h ha)

/-- For the first row both line buffers are filled. -/
theorem rowReads_subset (hrows : 0 < k.rows) (hy1 : 0 ≤ y1)
    (hline : s0.line = k.linePosition y1 0) (hlineT : s0.lineT = -2000) {x : ℕ} (hx : x < k.words) :
    k.rowReads y1 x 0 ⊆ (k.lines s0).accesses := by
  intro a ha
  have hlow : -1 ≤ k.vertical.low (k.linePosition y1 0) := Axis.neg_one_le_low (by simpa using hy1)
  have hfirst : a ∈ (k.row 0 s0).accesses := by
    unfold Kernel.row
    rw [upTo_combine]
    refine List.mem_append_left _ ?_
    unfold Kernel.fill
    rw [if_neg (by rw [hline,hlineT]; omega)]
    dsimp only
    rw [if_pos (by rw [hline,hlineT]; omega),upTo_fillBoth,hline]
    refine List.mem_append_right _ (List.mem_flatMap.mpr ⟨x,List.mem_range.mpr hx,?_⟩)
    exact List.mem_append_left _ ha
  obtain ⟨n,hn⟩ := Nat.exists_eq_succ_of_ne_zero hrows.ne'
  unfold lines
  rw [hn]
  clear hn
  induction n with
  | zero => exact hfirst
  | succ n ih => exact subset_row_accesses (n+1) ih

end Rows

end Kernel

end DirectFB.SmoothScale
