import DirectFB.GenefxXop

/-! The row cursors of the software renderer on all planes of a surface, of which the chroma planes
may have fewer lines. -/
namespace DirectFB.XopPlanes

/-- Packed formats by the bits of a pixel in a line, and the planar formats. -/
inductive Format
  | packed (bits : ℕ) | yv12 | i420 | yv16 | nv12 | nv21 | nv16 | yuv444p
deriving DecidableEq

def Format.bits : Format → ℕ
  | .packed bits => bits
  | _ => 8

def Format.planes : Format → ℕ
  | .packed _ => 1
  | .nv12 | .nv21 | .nv16 => 2
  | _ => 3

def Format.halved : Format → Bool
  | .yv12 | .i420 | .nv12 | .nv21 => true
  | _ => false

def Format.narrow : Format → Bool
  | .yv12 | .i420 | .yv16 => true
  | _ => false

/-- What the renderer knows of the surface of an operand. With a separated surface each plane has
the even lines in its first half and the odd lines in the second. In `spare` is what was in the
origins of planes which the format does not have. -/
structure Surface where
  format : Format
  separated : Bool
  org : ℤ
  spare : ℤ
  pitch : ℤ
  width : ℤ
  height : ℤ
  pitch_pos : 0 < pitch
  fits : format.bits*width ≤ 8*pitch
  even : format.narrow → pitch%2 = 0
  rows : height%((if separated then 2 else 1)*(if format.halved then 2 else 1)) = 0

/-- `dst_field_offset`, `src_field_offset` or `mask_field_offset`. -/
def Surface.fieldOffset (s : Surface) : ℤ := s.height/2*s.pitch

/-- `dst_org[1]` and `dst_org[2]`, or those of the source or the mask. -/
def Surface.orgs (s : Surface) : ℤ × ℤ :=
  let next := s.org+s.height*s.pitch
  match s.format with
  | .i420 => (next,next+s.height/2*s.pitch/2)
  | .yv12 => (next+s.height/2*s.pitch/2,next)
  | .yv16 => (next+s.height*s.pitch/2,next)
  | .nv12 | .nv21 | .nv16 => (next,s.spare)
  | .yuv444p => (next,next+s.height*s.pitch)
  | .packed _ => (s.spare,s.spare)

/-- `Aop`, `AopY` and `Aop_field`, or those of the operands B and M. -/
structure Xop where
  first : ℤ
  second : ℤ
  third : ℤ
  Y : ℤ
  field : ℕ

/-- The address of a line and a column in a plane, where `y` is the row of the surface. -/
def Surface.address (s : Surface) (org offset pitch line x y : ℤ) : ℤ :=
  org+(if s.separated ∧ y%2 = 1 then offset else 0)+(line*pitch+x)

def Surface.chroma (s : Surface) (x line : ℤ) : ℤ × ℤ × ℤ × ℤ :=
  match s.format with
  | .yv12 | .i420 => (s.fieldOffset/4,s.pitch/2,line/2,x/2)
  | .yv16 => (s.fieldOffset/2,s.pitch/2,line,x/2)
  | .nv12 | .nv21 => (s.fieldOffset/2,s.pitch,line/2,x-x%2)
  | .nv16 => (s.fieldOffset,s.pitch,line,x-x%2)
  | .yuv444p | .packed _ => (s.fieldOffset,s.pitch,line,x)

def Surface.line (s : Surface) (y : ℤ) : ℤ := if s.separated then y/2 else y

def Surface.chromaAt (s : Surface) (org x y : ℤ) : ℤ :=
  let (offset,pitch,line,x) := s.chroma x (s.line y)
  s.address org offset pitch line x y

/-- `Genefx_Aop_xy`, `Genefx_Bop_xy` and `Genefx_Mop_xy`. -/
def xopXY (s : Surface) (p : Xop) (x y : ℤ) : Xop :=
  let first := s.address s.org s.fieldOffset s.pitch (s.line y) ((s.format.bits*x+7)/8) y
  let field := if s.separated then (y%2).toNat else p.field
  match s.format with
  | .packed _ => ⟨first,p.second,p.third,y,field⟩
  | _ => ⟨first,s.chromaAt s.orgs.1 x y,s.chromaAt s.orgs.2 x y,y,field⟩

def Surface.down (s : Surface) (bit : Bool) (pitch offset : ℤ) : ℤ :=
  if s.separated then (if bit then offset else pitch-offset) else pitch

def Surface.up (s : Surface) (bit : Bool) (pitch offset : ℤ) : ℤ :=
  if s.separated then (if bit then offset-pitch else -offset) else -pitch

/-- What is added to the pointers to the chroma planes, after `Aop_field` was increased. -/
def Surface.turn (s : Surface) (add : Bool → ℤ → ℤ → ℤ) (Y : ℤ) (field : ℕ) : ℤ × ℤ :=
  let once : Bool := field%2 = 1
  let twice : Bool := field/2%2 = 1
  match s.format with
  | .packed _ => (0,0)
  | .yv12 | .i420 =>
    if Y%2 = 1 then
      let d := add twice (s.pitch/2) (s.fieldOffset/4)
      (d,d)
    else (0,0)
  | .yv16 =>
    let d := add twice (s.pitch/2) (s.fieldOffset/2)
    (d,d)
  | .nv12 | .nv21 => if Y%2 = 1 then (add twice s.pitch (s.fieldOffset/2),0) else (0,0)
  | .yuv444p =>
    let d := add once s.pitch s.fieldOffset
    (d,d)
  | .nv16 => (add once s.pitch s.fieldOffset,0)

def Surface.advance (s : Surface) (add : Bool → ℤ → ℤ → ℤ) (delta : ℤ) (p : Xop) : Xop :=
  let field := if s.separated then p.field+1 else p.field
  let (second,third) := s.turn add p.Y field
  ⟨p.first+add (field%2 = 1) s.pitch s.fieldOffset,p.second+second,p.third+third,p.Y+delta,field⟩

/-- `Genefx_Aop_next`, `Genefx_Bop_next` and `Genefx_Mop_next`. -/
def xopNext (s : Surface) (p : Xop) : Xop := s.advance s.down 1 p

/-- `Genefx_Aop_prev`, `Genefx_Bop_prev` and `Genefx_Mop_prev`. -/
def xopPrev (s : Surface) (p : Xop) : Xop := s.advance s.up (-1) p

inductive Move
  | next | prev
deriving DecidableEq

def Move.delta : Move → ℤ
  | .next => 1
  | .prev => -1

def step (s : Surface) (p : Xop) : Move → Xop
  | .next => xopNext s p
  | .prev => xopPrev s p

def row (y : ℤ) (moves : List Move) : ℤ := y+(moves.map Move.delta).sum

/-- The cursors point to the same place in each plane of the format, and to the same row. -/
structure Same (s : Surface) (p q : Xop) : Prop where
  first : p.first = q.first
  second : 1 < s.format.planes → p.second = q.second
  third : 2 < s.format.planes → p.third = q.third
  row : p.Y = q.Y

def Surface.plane (s : Surface) : ℤ × ℤ :=
  (if s.format.narrow then s.pitch/2 else s.pitch,if s.format.halved then s.height/2 else s.height)

def Within (org : ℤ) (size : ℤ × ℤ) (address : ℤ) : Prop :=
  org ≤ address ∧ address < org+size.2*size.1

structure Inside (s : Surface) (p : Xop) : Prop where
  first : Within s.org (s.pitch,s.height) p.first
  second : 1 < s.format.planes → Within s.orgs.1 s.plane p.second
  third : 2 < s.format.planes → Within s.orgs.2 s.plane p.third

def Surface.regular (s : Surface) : Bool :=
  !s.format.halved && !(s.separated && s.format = .yv16)

def Steady (s : Surface) (move : Move) : Prop := s.regular ∨ s.separated = false ∧ move = .next

instance (s : Surface) : DecidablePred (Steady s) := fun move =>
  inferInstanceAs (Decidable (s.regular ∨ s.separated = false ∧ move = .next))

def Column (s : Surface) (x : ℤ) : Prop := 0 ≤ x ∧ x < s.width ∧ s.format.bits*x%8 = 0

def Tracks (s : Surface) (p : Xop) (x y : ℤ) (moves : List Move) : Prop :=
  ∀ n ≤ moves.length,
    let q := (moves.take n).foldl (step s) (xopXY s p x y)
    Same s q (xopXY s p x (row y (moves.take n))) ∧ (Column s x → Inside s q)

def InRange (s : Surface) (y : ℤ) (moves : List Move) : Prop :=
  ∀ n ≤ moves.length, 0 ≤ row y (moves.take n) ∧ row y (moves.take n) < s.height

section
variable {s : Surface} {p q : Xop} {x y : ℤ} {m : Move} {org offset pitch : ℤ} {bit : Bool}

theorem down_congr {bit bit' : Bool} (h : s.separated → bit = bit') :
    s.down bit pitch offset = s.down bit' pitch offset := by
  cases hsep : s.separated with
  | false => simp [Surface.down,hsep]
  | true => rw [h hsep]

theorem up_congr {bit bit' : Bool} (h : s.separated → bit = bit') :
    s.up bit pitch offset = s.up bit' pitch offset := by
  cases hsep : s.separated with
  | false => simp [Surface.up,hsep]
  | true => rw [h hsep]

/-- The next line of a plane that has all lines. -/
theorem address_next (s : Surface) (org offset pitch x y : ℤ) :
    s.address org offset pitch (s.line (y+1)) x (y+1) =
      s.address org offset pitch (s.line y) x y+s.down ((y+1)%2 = 1) pitch offset := by
  unfold Surface.address Surface.line Surface.down
  cases s.separated with
  | false =>
    simp only [Bool.false_eq_true,false_and,if_false]
    ring
  | true =>
    simp only [true_and,if_true]
    rcases Int.emod_two_eq_zero_or_one y with h | h
    · have hodd : (y+1)%2 = 1 := by omega
      have hline : (y+1)/2 = y/2 := by omega
      simp only [h,hodd,hline,zero_ne_one,if_true,if_false,decide_true]
      ring
    · have heven : (y+1)%2 = 0 := by omega
      have hline : (y+1)/2 = y/2+1 := by omega
      simp only [h,heven,hline,zero_ne_one,if_true,if_false,decide_false,Bool.false_eq_true]
      ring

/-- The previous line of a plane that has all lines. -/
theorem address_prev (s : Surface) (org offset pitch x y : ℤ) :
    s.address org offset pitch (s.line (y-1)) x (y-1) =
      s.address org offset pitch (s.line y) x y+s.up ((y-1)%2 = 1) pitch offset := by
  have h := address_next s org offset pitch x (y-1)
  rw [sub_add_cancel] at h
  rw [h]
  unfold Surface.down Surface.up
  cases s.separated with
  | false => simp
  | true =>
    rcases Int.emod_two_eq_zero_or_one y with h | h
    · have hodd : (y-1)%2 = 1 := by omega
      simp only [h,hodd,zero_ne_one,if_true,if_false,decide_true,decide_false,Bool.false_eq_true]
      ring
    · have heven : (y-1)%2 = 0 := by omega
      simp only [h,heven,zero_ne_one,if_true,if_false,decide_true,decide_false,Bool.false_eq_true]
      ring

theorem address_next_halved (hsep : s.separated = false) (org offset pitch x y : ℤ) :
    s.address org offset pitch (s.line (y+1)/2) x (y+1) =
      s.address org offset pitch (s.line y/2) x y+(if y%2 = 1 then pitch else 0) := by
  unfold Surface.address Surface.line
  simp only [hsep,Bool.false_eq_true,false_and,if_false]
  rcases Int.emod_two_eq_zero_or_one y with h | h
  · have hline : (y+1)/2 = y/2 := by omega
    simp [h,hline]
  · have hline : (y+1)/2 = y/2+1 := by omega
    simp only [h,hline,if_true]
    ring

structure On (s : Surface) (p : Xop) (x y : ℤ) (q : Xop) : Prop extends
    Same s q (xopXY s p x y) where
  field : s.separated → (q.field : ℤ)%2 = y%2

@[simp] theorem xopXY_first : (xopXY s p x y).first =
    s.address s.org s.fieldOffset s.pitch (s.line y) ((s.format.bits*x+7)/8) y := by
  unfold xopXY
  cases s.format <;> rfl

@[simp] theorem xopXY_Y : (xopXY s p x y).Y = y := by
  unfold xopXY
  cases s.format <;> rfl

theorem xopXY_field : (xopXY s p x y).field =
    if s.separated then (y%2).toNat else p.field := by
  unfold xopXY
  cases s.format <;> rfl

theorem xopXY_on : On s p x y (xopXY s p x y) := by
  refine ⟨⟨rfl,fun _ => rfl,fun _ => rfl,rfl⟩,fun hsep => ?_⟩
  rw [xopXY_field,if_pos hsep]
  omega

theorem xopXY_second (hp : 1 < s.format.planes) :
    (xopXY s p x y).second = s.chromaAt s.orgs.1 x y := by
  unfold xopXY
  cases h : s.format with
  | packed bits => simp [h,Format.planes] at hp
  | _ => rfl

theorem xopXY_third (hp : 2 < s.format.planes) :
    (xopXY s p x y).third = s.chromaAt s.orgs.2 x y := by
  unfold xopXY
  cases h : s.format with
  | packed bits => simp [h,Format.planes] at hp
  | _ => rfl

theorem turn_third {add : Bool → ℤ → ℤ → ℤ} {Y : ℤ} {field : ℕ} (hp : 2 < s.format.planes) :
    (s.turn add Y field).2 = (s.turn add Y field).1 := by
  unfold Surface.turn
  cases h : s.format with
  | packed bits => simp [h,Format.planes] at hp
  | nv12 => simp [h,Format.planes] at hp
  | nv21 => simp [h,Format.planes] at hp
  | nv16 => simp [h,Format.planes] at hp
  | yv12 => split_ifs <;> rfl
  | i420 => split_ifs <;> rfl
  | yv16 => rfl
  | yuv444p => rfl

/-- A regular format moves the chroma planes line by line. -/
theorem turn_regular (hr : s.regular) (hp : 1 < s.format.planes) (x Y : ℤ) (field : ℕ)
    (add : Bool → ℤ → ℤ → ℤ) (hadd : ∀ bit bit' pitch offset, (s.separated → bit = bit') →
      add bit pitch offset = add bit' pitch offset) :
    ∃ offset pitch column, (∀ line, s.chroma x line = (offset,pitch,line,column)) ∧
      (s.turn add Y field).1 = add (field%2 = 1) pitch offset := by
  unfold Surface.regular at hr
  unfold Surface.chroma Surface.turn
  cases h : s.format with
  | packed bits => simp [h,Format.planes] at hp
  | yv12 => simp [h,Format.halved] at hr
  | i420 => simp [h,Format.halved] at hr
  | nv12 => simp [h,Format.halved] at hr
  | nv21 => simp [h,Format.halved] at hr
  | nv16 => exact ⟨_,_,_,fun _ => rfl,rfl⟩
  | yuv444p => exact ⟨_,_,_,fun _ => rfl,rfl⟩
  | yv16 =>
    refine ⟨_,_,_,fun _ => rfl,hadd _ _ _ _ fun hsep => ?_⟩
    simp [h,Format.halved,hsep] at hr

theorem On.once (h : On s p x y q) (hsep : s.separated) :
    decide ((if s.separated then q.field+1 else q.field)%2 = 1) = decide ((y+1)%2 = 1) := by
  have hf := h.field hsep
  rw [if_pos hsep,decide_eq_decide]
  omega

theorem chroma_next_regular (hr : s.regular) (hp : 1 < s.format.planes) {field : ℕ}
    (hbit : s.separated → decide (field%2 = 1) = decide ((y+1)%2 = 1)) (org Y : ℤ) :
    s.chromaAt org x (y+1) = s.chromaAt org x y+(s.turn s.down Y field).1 := by
  obtain ⟨offset,pitch,column,hchroma,hturn⟩ := turn_regular hr hp x Y field s.down
    fun _ _ _ _ => down_congr
  unfold Surface.chromaAt
  rw [hchroma,hchroma,hturn,down_congr hbit]
  exact address_next s org offset pitch column y

theorem chroma_prev_regular (hr : s.regular) (hp : 1 < s.format.planes) {field : ℕ}
    (hbit : s.separated → decide (field%2 = 1) = decide ((y-1)%2 = 1)) (org Y : ℤ) :
    s.chromaAt org x (y-1) = s.chromaAt org x y+(s.turn s.up Y field).1 := by
  obtain ⟨offset,pitch,column,hchroma,hturn⟩ := turn_regular hr hp x Y field s.up
    fun _ _ _ _ => up_congr
  unfold Surface.chromaAt
  rw [hchroma,hchroma,hturn,up_congr hbit]
  exact address_prev s org offset pitch column y

/-- A format with half the lines in the chroma planes goes to the next one after an odd row. -/
theorem turn_halved (hh : s.format.halved) (x Y : ℤ) (field : ℕ) (add : Bool → ℤ → ℤ → ℤ) :
    ∃ offset pitch column, (∀ line, s.chroma x line = (offset,pitch,line/2,column)) ∧ 0 < pitch ∧
      (s.separated → ∃ k, s.height = 4*k ∧ offset = k*pitch) ∧
      (s.turn add Y field).1 = if Y%2 = 1 then add (field/2%2 = 1) pitch offset else 0 := by
  have hpitch := s.pitch_pos
  have hlines : s.separated → ∃ k, s.height = 4*k ∧ s.fieldOffset = 2*(k*s.pitch) := fun hsep => by
    have hrows := s.rows
    simp only [hsep,hh,if_true] at hrows
    refine ⟨s.height/4,by omega,?_⟩
    rw [Surface.fieldOffset,show s.height/2 = 2*(s.height/4) by omega,mul_assoc]
  have hwide : s.separated → ∃ k, s.height = 4*k ∧ s.fieldOffset/2 = k*s.pitch := fun hsep => by
    obtain ⟨k,hk,ho⟩ := hlines hsep
    exact ⟨k,hk,by rw [ho]; omega⟩
  have hnarrow : s.format.narrow → 0 < s.pitch/2 ∧
      (s.separated → ∃ k, s.height = 4*k ∧ s.fieldOffset/4 = k*(s.pitch/2)) := fun hn => by
    have heven := s.even hn
    refine ⟨by omega,fun hsep => ?_⟩
    obtain ⟨k,hk,ho⟩ := hlines hsep
    refine ⟨k,hk,?_⟩
    have hmul : k*s.pitch = 2*(k*(s.pitch/2)) := by
      rw [mul_left_comm,show 2*(s.pitch/2) = s.pitch by omega]
    rw [ho,hmul]
    omega
  unfold Surface.chroma Surface.turn
  cases h : s.format with
  | packed bits => simp [h,Format.halved] at hh
  | yv16 => simp [h,Format.halved] at hh
  | nv16 => simp [h,Format.halved] at hh
  | yuv444p => simp [h,Format.halved] at hh
  | nv12 => exact ⟨_,_,_,fun _ => rfl,hpitch,hwide,by split_ifs <;> rfl⟩
  | nv21 => exact ⟨_,_,_,fun _ => rfl,hpitch,hwide,by split_ifs <;> rfl⟩
  | yv12 =>
    obtain ⟨hpos,hk⟩ := hnarrow (by simp [h,Format.narrow])
    exact ⟨_,_,_,fun _ => rfl,hpos,hk,by split_ifs <;> rfl⟩
  | i420 =>
    obtain ⟨hpos,hk⟩ := hnarrow (by simp [h,Format.narrow])
    exact ⟨_,_,_,fun _ => rfl,hpos,hk,by split_ifs <;> rfl⟩

theorem chroma_next (hm : Steady s .next) (hp : 1 < s.format.planes) {field : ℕ}
    (hbit : s.separated → decide (field%2 = 1) = decide ((y+1)%2 = 1)) (org : ℤ) :
    s.chromaAt org x (y+1) = s.chromaAt org x y+(s.turn s.down y field).1 := by
  rcases hm with hr | ⟨hsep,-⟩
  · exact chroma_next_regular hr hp hbit org y
  cases hh : s.format.halved with
  | false => exact chroma_next_regular (by simp [Surface.regular,hh,hsep]) hp hbit org y
  | true =>
    obtain ⟨offset,pitch,column,hchroma,-,-,hturn⟩ := turn_halved hh x y field s.down
    unfold Surface.chromaAt
    rw [hchroma,hchroma,hturn,show s.down _ pitch offset = pitch by simp [Surface.down,hsep]]
    exact address_next_halved hsep org offset pitch column y

theorem On.next (h : On s p x y q) (hm : Steady s .next) : On s p x (y+1) (xopNext s q) := by
  have hY : q.Y = y := h.row.trans xopXY_Y
  have hbit := fun hsep => h.once hsep
  refine ⟨⟨?_,fun hp => ?_,fun hp => ?_,?_⟩,fun hsep => ?_⟩
  · rw [xopXY_first,address_next,← xopXY_first (p := p),← h.first]
    exact congrArg (q.first+·) (down_congr hbit)
  · rw [xopXY_second hp,chroma_next hm hp hbit,← xopXY_second (p := p) hp,← h.second hp,← hY]
    rfl
  · rw [xopXY_third hp,chroma_next hm (by omega) hbit,← xopXY_third (p := p) hp,← h.third hp,← hY,
      ← turn_third hp]
    rfl
  · rw [xopXY_Y,← hY]
    rfl
  · have hf := h.field hsep
    have hfield : (xopNext s q).field = q.field+1 := if_pos hsep
    rw [hfield]
    omega

theorem On.prev (h : On s p x y q) (hm : Steady s .prev) : On s p x (y-1) (xopPrev s q) := by
  have hY : q.Y = y := h.row.trans xopXY_Y
  have hr : s.regular := hm.resolve_right fun h => by cases h.2
  have hbit : s.separated →
      decide ((if s.separated then q.field+1 else q.field)%2 = 1) = decide ((y-1)%2 = 1) :=
    fun hsep => (h.once hsep).trans (decide_eq_decide.mpr (by omega))
  refine ⟨⟨?_,fun hp => ?_,fun hp => ?_,?_⟩,fun hsep => ?_⟩
  · rw [xopXY_first,address_prev,← xopXY_first (p := p),← h.first]
    exact congrArg (q.first+·) (up_congr hbit)
  · rw [xopXY_second hp,chroma_prev_regular hr hp hbit _ q.Y,← xopXY_second (p := p) hp,
      ← h.second hp]
    rfl
  · rw [xopXY_third hp,chroma_prev_regular hr (by omega) hbit _ q.Y,← xopXY_third (p := p) hp,
      ← h.third hp,← turn_third hp]
    rfl
  · rw [xopXY_Y,← hY]
    rfl
  · have hf := h.field hsep
    have hfield : (xopPrev s q).field = q.field+1 := if_pos hsep
    rw [hfield]
    omega

theorem On.step (h : On s p x y q) (hm : Steady s m) : On s p x (y+m.delta) (step s q m) := by
  cases m with
  | next => exact h.next hm
  | prev => exact h.prev hm

theorem row_append (y : ℤ) (moves : List Move) (m : Move) :
    row y (moves++[m]) = row y moves+m.delta := by
  simp [row,add_assoc]

theorem On.run (h : On s p x y q) {moves : List Move} (hm : ∀ m ∈ moves, Steady s m) :
    On s p x (row y moves) (moves.foldl (XopPlanes.step s) q) := by
  induction moves using List.reverseRecOn with
  | nil => simpa [row] using h
  | append_singleton moves m ih =>
    rw [List.foldl_append,row_append]
    exact (ih fun n hn => hm n (List.mem_append_left _ hn)).step (hm m (by simp))

theorem xopNext_second : (xopNext s q).second =
    q.second+(s.turn s.down q.Y (if s.separated then q.field+1 else q.field)).1 := rfl

theorem xopPrev_second : (xopPrev s q).second =
    q.second+(s.turn s.up q.Y (if s.separated then q.field+1 else q.field)).1 := rfl

theorem On.prev_misses (h : On s p x y q) (hh : s.format.halved) (hsep : s.separated = false)
    (hp : 1 < s.format.planes) : ¬ Same s (xopPrev s q) (xopXY s p x (y-1)) := by
  intro hsame
  have hY : q.Y = y := h.row.trans xopXY_Y
  obtain ⟨offset,pitch,column,hchroma,hpos,-,hturn⟩ := turn_halved hh x y
    (if s.separated then q.field+1 else q.field) s.up
  have hsecond := hsame.second hp
  rw [xopPrev_second,hY,hturn,h.second hp,xopXY_second hp,xopXY_second hp] at hsecond
  unfold Surface.chromaAt at hsecond
  rw [hchroma,hchroma,show s.up _ pitch offset = -pitch by simp [Surface.up,hsep]] at hsecond
  have hnext := address_next_halved hsep s.orgs.1 offset pitch column (y-1)
  rw [sub_add_cancel] at hnext
  dsimp only at hsecond
  rw [hnext] at hsecond
  split_ifs at hsecond <;> omega

theorem first_twice (hsep : s.separated) : decide ((if s.separated then (xopXY s p x y).field+1 else
    (xopXY s p x y).field)/2%2 = 1) = decide (y%2 = 1) := by
  rw [if_pos hsep,xopXY_field,if_pos hsep,decide_eq_decide]
  omega

/-- On a separated surface the field of a chroma plane with half the lines is taken by the wrong
bit, and not at each row. -/
theorem separated_halved_misses (hh : s.format.halved) (hsep : s.separated)
    (hp : 1 < s.format.planes) (hy : 0 ≤ y ∧ y < s.height)
    (hz : 0 ≤ y+m.delta ∧ y+m.delta < s.height) :
    ¬ Same s (step s (xopXY s p x y) m) (xopXY s p x (y+m.delta)) := by
  intro hsame
  have hsecond := hsame.second hp
  rw [xopXY_second hp] at hsecond
  have htwice := first_twice (p := p) (x := x) (y := y) hsep
  cases m with
  | next =>
    obtain ⟨offset,pitch,column,hchroma,hpos,hk,hturn⟩ := turn_halved hh x y
      (if s.separated then (xopXY s p x y).field+1 else (xopXY s p x y).field) s.down
    obtain ⟨k,hk,rfl⟩ := hk hsep
    replace hsecond : (xopNext s (xopXY s p x y)).second = s.chromaAt s.orgs.1 x (y+1) := hsecond
    rw [xopNext_second,xopXY_Y,hturn,htwice,xopXY_second hp] at hsecond
    unfold Surface.chromaAt at hsecond
    rw [hchroma,hchroma] at hsecond
    simp only [Surface.address,Surface.line,Surface.down,hsep,true_and,if_true,
      decide_eq_true_eq] at hsecond
    have hmul := mul_le_mul_of_nonneg_right (show 1 ≤ k by omega) hpos.le
    have hline : (y+1)/2/2*pitch = y/2/2*pitch+if y%4 = 3 then pitch else 0 := by
      split_ifs
      · rw [show (y+1)/2/2 = y/2/2+1 by omega,add_mul,one_mul]
      · rw [show (y+1)/2/2 = y/2/2 by omega,add_zero]
    rw [hline] at hsecond
    generalize k*pitch = offset at hsecond hmul
    split_ifs at hsecond <;> omega
  | prev =>
    obtain ⟨offset,pitch,column,hchroma,hpos,hk,hturn⟩ := turn_halved hh x y
      (if s.separated then (xopXY s p x y).field+1 else (xopXY s p x y).field) s.up
    obtain ⟨k,hk,rfl⟩ := hk hsep
    replace hsecond : (xopPrev s (xopXY s p x y)).second = s.chromaAt s.orgs.1 x (y-1) := hsecond
    replace hz : 0 ≤ y-1 ∧ y-1 < s.height := hz
    rw [xopPrev_second,xopXY_Y,hturn,htwice,xopXY_second hp] at hsecond
    unfold Surface.chromaAt at hsecond
    rw [hchroma,hchroma] at hsecond
    simp only [Surface.address,Surface.line,Surface.up,hsep,true_and,if_true,
      decide_eq_true_eq] at hsecond
    have hmul := mul_le_mul_of_nonneg_right (show 1 ≤ k by omega) hpos.le
    -- there is a second line in the field before a row that is a multiple of four
    have hmul' : y%4 = 0 → 2*pitch ≤ k*pitch := fun h =>
      mul_le_mul_of_nonneg_right (show 2 ≤ k by omega) hpos.le
    have hline : (y-1)/2/2*pitch = y/2/2*pitch-if y%4 = 0 then pitch else 0 := by
      split_ifs
      · rw [show (y-1)/2/2 = y/2/2-1 by omega,sub_mul,one_mul]
      · rw [show (y-1)/2/2 = y/2/2 by omega,sub_zero]
    rw [hline] at hsecond
    generalize k*pitch = offset at hsecond hmul hmul'
    split_ifs at hsecond <;> omega

/-- On a separated surface the field of a chroma plane with all lines is taken by the wrong bit. -/
theorem separated_yv16_misses (hf : s.format = .yv16) (hsep : s.separated)
    (hy : 0 ≤ y ∧ y < s.height) :
    ¬ Same s (step s (xopXY s p x y) m) (xopXY s p x (y+m.delta)) := by
  intro hsame
  have hp : 1 < s.format.planes := by simp [hf,Format.planes]
  have hsecond := hsame.second hp
  rw [xopXY_second hp] at hsecond
  have htwice := first_twice (p := p) (x := x) (y := y) hsep
  have hchroma : ∀ line, s.chroma x line = (s.fieldOffset/2,s.pitch/2,line,x/2) := fun line => by
    simp [Surface.chroma,hf]
  have hturn : ∀ add Y field, (s.turn add Y field).1 =
      add (field/2%2 = 1) (s.pitch/2) (s.fieldOffset/2) := fun add Y field => by
    simp [Surface.turn,hf]
  -- the field offset is a multiple of the pitch
  have heven := s.even (by simp [hf,Format.narrow])
  have hpitch := s.pitch_pos
  have hpos : 0 < s.pitch/2 := by omega
  have hrows := s.rows
  simp only [hsep,hf,Format.halved,if_true,Bool.false_eq_true,if_false,mul_one] at hrows
  have hoffset : s.fieldOffset/2 = s.height/2*(s.pitch/2) := by
    have hmul : s.height/2*s.pitch = 2*(s.height/2*(s.pitch/2)) := by
      rw [mul_left_comm,show 2*(s.pitch/2) = s.pitch by omega]
    rw [Surface.fieldOffset,hmul]
    omega
  have hmul := mul_le_mul_of_nonneg_right (show 1 ≤ s.height/2 by omega) hpos.le
  rw [← hoffset] at hmul
  cases m with
  | next =>
    replace hsecond : (xopNext s (xopXY s p x y)).second = s.chromaAt s.orgs.1 x (y+1) := hsecond
    rw [xopNext_second,hturn,htwice,xopXY_second hp] at hsecond
    unfold Surface.chromaAt at hsecond
    rw [hchroma,hchroma] at hsecond
    dsimp only at hsecond
    rw [address_next] at hsecond
    simp only [Surface.down,hsep,if_true,decide_eq_true_eq] at hsecond
    split_ifs at hsecond <;> omega
  | prev =>
    replace hsecond : (xopPrev s (xopXY s p x y)).second = s.chromaAt s.orgs.1 x (y-1) := hsecond
    rw [xopPrev_second,hturn,htwice,xopXY_second hp] at hsecond
    unfold Surface.chromaAt at hsecond
    rw [hchroma,hchroma] at hsecond
    dsimp only at hsecond
    rw [address_prev] at hsecond
    simp only [Surface.up,hsep,if_true,decide_eq_true_eq] at hsecond
    split_ifs at hsecond <;> omega

theorem misses (h : On s p x y q) (hm : ¬ Steady s m)
    (hstart : s.separated → q = xopXY s p x y) (hy : 0 ≤ y ∧ y < s.height)
    (hz : 0 ≤ y+m.delta ∧ y+m.delta < s.height) :
    ¬ Same s (step s q m) (xopXY s p x (y+m.delta)) := by
  have hplanes : s.format.halved → 1 < s.format.planes := fun hh => by
    cases hf : s.format <;> simp_all [Format.halved,Format.planes]
  rw [Steady,not_or] at hm
  obtain ⟨hr,hm⟩ := hm
  cases hsep : s.separated with
  | true =>
    rw [hstart hsep]
    cases hh : s.format.halved with
    | true => exact separated_halved_misses hh hsep (hplanes hh) hy hz
    | false =>
      refine separated_yv16_misses ?_ hsep hy
      simpa [Surface.regular,hh,hsep] using hr
  | false =>
    have hh : s.format.halved := by simpa [Surface.regular,hsep] using hr
    cases m with
    | next => exact absurd ⟨hsep,rfl⟩ hm
    | prev => exact h.prev_misses hh hsep (hplanes hh)

/-- An address is in its plane, of which a separated surface has two halves. -/
theorem address_within {lines line column : ℤ} (hcolumn : 0 ≤ column ∧ column < pitch)
    (hline : 0 ≤ line ∧ line < if s.separated then lines/2 else lines)
    (hfields : s.separated → lines%2 = 0 ∧ offset = lines/2*pitch) :
    Within org (pitch,lines) (s.address org offset pitch line column y) := by
  -- the line in the plane
  obtain ⟨n,hn,haddress⟩ : ∃ n, (0 ≤ n ∧ n+1 ≤ lines) ∧
      s.address org offset pitch line column y = org+(n*pitch+column) := by
    unfold Surface.address
    cases hsep : s.separated with
    | false =>
      rw [hsep] at hline
      refine ⟨line,⟨hline.1,hline.2⟩,?_⟩
      simp
    | true =>
      obtain ⟨heven,rfl⟩ := hfields hsep
      rw [hsep,if_pos rfl] at hline
      by_cases hodd : y%2 = 1
      · refine ⟨lines/2+line,by omega,?_⟩
        simp only [hodd,true_and,if_true]
        ring
      · exact ⟨line,by omega,by simp [hodd]⟩
  have hlow := mul_nonneg hn.1 (show 0 ≤ pitch by omega)
  have hhigh := mul_le_mul_of_nonneg_right hn.2 (show 0 ≤ pitch by omega)
  rw [add_mul,one_mul] at hhigh
  rw [haddress,Within]
  exact ⟨by omega,by dsimp only; omega⟩

theorem rows_even (hsep : s.separated) : s.height%2 = 0 ∧ (s.format.halved → s.height%4 = 0) := by
  have h := s.rows
  simp only [hsep,if_true] at h
  refine ⟨?_,fun hh => ?_⟩
  · split_ifs at h <;> omega
  · simpa [hh] using h

theorem chroma_spec (hp : 1 < s.format.planes) (hx : 0 ≤ x ∧ x < s.width) (line : ℤ) :
    ∃ offset column, s.chroma x line =
        (offset,s.plane.1,if s.format.halved then line/2 else line,column) ∧
      (0 ≤ column ∧ column < s.plane.1) ∧
      (s.separated → s.plane.2%2 = 0 ∧ offset = s.plane.2/2*s.plane.1) := by
  obtain ⟨hx,hw⟩ := hx
  have hpitch := s.pitch_pos
  have hfits : s.width ≤ s.pitch := by
    have h := s.fits
    cases hf : s.format with
    | packed bits => simp [hf,Format.planes] at hp
    | _ =>
      rw [hf] at h
      simp only [Format.bits] at h
      omega
  have hnarrow : s.format.narrow → s.pitch%2 = 0 ∧
      s.height/2*s.pitch = 2*(s.height/2*(s.pitch/2)) := fun hn => by
    have heven := s.even hn
    exact ⟨heven,by rw [mul_left_comm,show 2*(s.pitch/2) = s.pitch by omega]⟩
  have hlines : s.separated → s.format.halved →
      ∀ n, s.height/2*n = 2*(s.height/2/2*n) := fun hsep hh n => by
    have hrows := (rows_even hsep).2 hh
    rw [← mul_assoc,show 2*(s.height/2/2) = s.height/2 by omega]
  have heven := fun hsep => rows_even (s := s) hsep
  unfold Surface.chroma Surface.plane Surface.fieldOffset
  cases hf : s.format with
  | packed bits => simp [hf,Format.planes] at hp
  | yuv444p => exact ⟨_,_,rfl,⟨hx,hw.trans_le hfits⟩,fun hsep => ⟨(heven hsep).1,rfl⟩⟩
  | nv16 =>
    refine ⟨_,_,rfl,⟨by omega,show x-x%2 < s.pitch by omega⟩,fun hsep => ?_⟩
    exact ⟨(heven hsep).1,rfl⟩
  | yv16 =>
    obtain ⟨hpair,hmul⟩ := hnarrow (by simp [hf,Format.narrow])
    refine ⟨_,_,rfl,⟨by omega,show x/2 < s.pitch/2 by omega⟩,fun hsep => ⟨(heven hsep).1,?_⟩⟩
    show s.height/2*s.pitch/2 = s.height/2*(s.pitch/2)
    omega
  | nv12 =>
    refine ⟨_,_,rfl,⟨by omega,show x-x%2 < s.pitch by omega⟩,fun hsep => ?_⟩
    have hrows := (heven hsep).2 (by simp [hf,Format.halved])
    have hmul := hlines hsep (by simp [hf,Format.halved]) s.pitch
    exact ⟨show s.height/2%2 = 0 by omega,
      show s.height/2*s.pitch/2 = s.height/2/2*s.pitch by omega⟩
  | nv21 =>
    refine ⟨_,_,rfl,⟨by omega,show x-x%2 < s.pitch by omega⟩,fun hsep => ?_⟩
    have hrows := (heven hsep).2 (by simp [hf,Format.halved])
    have hmul := hlines hsep (by simp [hf,Format.halved]) s.pitch
    exact ⟨show s.height/2%2 = 0 by omega,
      show s.height/2*s.pitch/2 = s.height/2/2*s.pitch by omega⟩
  | yv12 =>
    obtain ⟨hpair,hmul⟩ := hnarrow (by simp [hf,Format.narrow])
    refine ⟨_,_,rfl,⟨by omega,show x/2 < s.pitch/2 by omega⟩,fun hsep => ?_⟩
    have hrows := (heven hsep).2 (by simp [hf,Format.halved])
    have hmul' := hlines hsep (by simp [hf,Format.halved]) (s.pitch/2)
    exact ⟨show s.height/2%2 = 0 by omega,
      show s.height/2*s.pitch/4 = s.height/2/2*(s.pitch/2) by omega⟩
  | i420 =>
    obtain ⟨hpair,hmul⟩ := hnarrow (by simp [hf,Format.narrow])
    refine ⟨_,_,rfl,⟨by omega,show x/2 < s.pitch/2 by omega⟩,fun hsep => ?_⟩
    have hrows := (heven hsep).2 (by simp [hf,Format.halved])
    have hmul' := hlines hsep (by simp [hf,Format.halved]) (s.pitch/2)
    exact ⟨show s.height/2%2 = 0 by omega,
      show s.height/2*s.pitch/4 = s.height/2/2*(s.pitch/2) by omega⟩

theorem chroma_within (hp : 1 < s.format.planes) (hx : 0 ≤ x ∧ x < s.width)
    (hy : 0 ≤ y ∧ y < s.height) (org : ℤ) : Within org s.plane (s.chromaAt org x y) := by
  obtain ⟨offset,column,hchroma,hcolumn,hfields⟩ := chroma_spec hp hx (s.line y)
  unfold Surface.chromaAt
  rw [hchroma]
  refine address_within hcolumn ?_ hfields
  have hrows := s.rows
  unfold Surface.line
  cases hh : s.format.halved with
  | false =>
    cases hsep : s.separated with
    | false => simpa using hy
    | true =>
      have := (rows_even hsep).1
      simp only [if_true,Bool.false_eq_true,if_false]
      omega
  | true =>
    cases hsep : s.separated with
    | false =>
      simp only [hh,hsep,if_true,Bool.false_eq_true,if_false] at hrows ⊢
      omega
    | true =>
      have := (rows_even hsep).2 hh
      simp only [if_true]
      omega

theorem xopXY_inside (hx : Column s x) (hy : 0 ≤ y ∧ y < s.height) : Inside s (xopXY s p x y) := by
  obtain ⟨hx,hw,hwhole⟩ := hx
  refine ⟨?_,fun hp => ?_,fun hp => ?_⟩
  · rw [xopXY_first]
    have hfits := s.fits
    have hlow := mul_nonneg (Int.natCast_nonneg s.format.bits) hx
    have hhigh := mul_le_mul_of_nonneg_left (show x+1 ≤ s.width by omega)
      (Int.natCast_nonneg s.format.bits)
    rw [mul_add,mul_one] at hhigh
    have hpitch := s.pitch_pos
    have hcolumn : 0 ≤ (s.format.bits*x+7)/8 ∧ (s.format.bits*x+7)/8 < s.pitch := by
      rcases Nat.eq_zero_or_pos s.format.bits with hbits | hbits
      · rw [hbits,Nat.cast_zero,zero_mul]
        omega
      · omega
    refine address_within hcolumn ?_ fun hsep => ⟨(rows_even hsep).1,rfl⟩
    unfold Surface.line
    cases hsep : s.separated with
    | false => simpa using hy
    | true =>
      have := (rows_even hsep).1
      simp only [if_true]
      omega
  · rw [xopXY_second hp]
    exact chroma_within hp ⟨hx,hw⟩ hy _
  · rw [xopXY_third hp]
    exact chroma_within (by omega) ⟨hx,hw⟩ hy _

theorem Same.inside {r : Xop} (h : Same s q r) (hr : Inside s r) : Inside s q :=
  ⟨h.first ▸ hr.first,fun hp => h.second hp ▸ hr.second hp,fun hp => h.third hp ▸ hr.third hp⟩

theorem take_step {moves : List Move} {n : ℕ} (hn : n < moves.length) :
    moves.take (n+1) = moves.take n++[moves[n]] := (List.take_concat_get' moves n hn).symm

end

/-- The surface is one with packed pixels of whole bytes, of which the first plane is all there is. -/
structure Packed (g : Genefx.Surface) (s : Surface) : Prop where
  org : s.org = g.org
  pitch : s.pitch = g.pitch
  height : s.height = g.height
  separated : s.separated = g.separated
  bits : (s.format.bits : ℤ) = 8*g.unit

/-- The cursor of an operand is after each of the moves where it would have been put, and in its
planes, if and only if each move is steady: any move of a regular format, and the next line of
another one unless the surface is separated. -/
theorem cursor_tracks_iff (s : Surface) (p : Xop) (x y : ℤ) (moves : List Move)
    (hrows : InRange s y moves) : Tracks s p x y moves ↔ ∀ m ∈ moves, Steady s m := by
  refine ⟨fun h => ?_,fun h n hn => ?_⟩
  · -- the first moves are steady, by induction on how many
    have hfirst : ∀ n ≤ moves.length, ∀ m ∈ moves.take n, Steady s m := by
      intro n hn
      induction n with
      | zero => simp
      | succ n ih =>
        have hsteady := ih (by omega)
        have hon := (xopXY_on (s := s) (p := p) (x := x) (y := y)).run hsteady
        have hlt : n < moves.length := hn
        rw [take_step hlt]
        intro m hm
        rcases List.mem_append.mp hm with hm | hm
        · exact hsteady m hm
        obtain rfl : m = moves[n] := List.mem_singleton.mp hm
        by_contra hnot
        have hy := hrows n (by omega)
        have hz := hrows (n+1) hn
        rw [take_step hlt,row_append] at hz
        have hsame := (h (n+1) hn).1
        rw [take_step hlt,row_append,List.foldl_append] at hsame
        refine misses hon hnot (fun hsep => ?_) hy hz hsame
        -- on a separated surface no move is steady unless all are
        cases n with
        | zero => simp [row]
        | succ k =>
          have hm := hsteady moves[0] (List.mem_take_iff_getElem.mpr ⟨0,by omega,rfl⟩)
          rw [Steady,hsep] at hm
          exact absurd (.inl (hm.resolve_right fun h => by cases h.1)) hnot
    simpa using hfirst moves.length le_rfl
  · have hsteady : ∀ m ∈ moves.take n, Steady s m := fun m hm => h m (List.mem_of_mem_take hm)
    have hon := (xopXY_on (s := s) (p := p) (x := x) (y := y)).run hsteady
    exact ⟨hon.toSame,fun hx => hon.toSame.inside (xopXY_inside hx (hrows n hn))⟩

def small : Surface where
  format := .i420
  separated := false
  org := 0
  spare := 0
  pitch := 4
  width := 4
  height := 4
  pitch_pos := zero_lt_four
  fits := by decide
  even := by decide
  rows := by decide

theorem cursor_tracks_iff_small :
    InRange small 1 [.next,.next] ∧ Tracks small ⟨0,0,0,0,0⟩ 2 1 [.next,.next] := by
  have h : InRange small 1 [.next,.next] := by unfold InRange; decide
  exact ⟨h,(cursor_tracks_iff small _ 2 1 _ h).mpr (by decide)⟩

/-- From the second line to the first one the chroma pointers go to the line before. -/
theorem prev_leaves_plane : ¬ ∀ (s : Surface) (p : Xop) (x y : ℤ) (moves : List Move),
    InRange s y moves → Tracks s p x y moves := by
  intro h
  have hrows : InRange small 1 [.prev] := by unfold InRange; decide
  have hsecond := (h small ⟨0,0,0,0,0⟩ 2 1 [.prev] hrows 1 (by decide)).1.second (by decide)
  revert hsecond
  decide

end DirectFB.XopPlanes
