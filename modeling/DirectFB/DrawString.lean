import DirectFB.FontBreak
import DirectFB.Region
import Mathlib.Data.Int.Sqrt

/-! The glyphs of a text, as they are blitted in batches for all layers of a font. -/
namespace DirectFB.DrawString
open FontBreak (measure)

inductive BlittingFlag
  | blendAlphachannel | blendColoralpha | colorize | dstColorkey | xor | srcPremultiply
  | srcPremultcolor | indexTranslation
  | other (bit : ℕ)
  deriving DecidableEq

inductive BlendFunction
  | one | srcAlpha | invSrcAlpha
  | other (function : ℕ)

structure Blending where
  blittingflags : Finset BlittingFlag
  srcBlend : BlendFunction
  dstBlend : BlendFunction

/-- What is read of a `CoreGlyphData`, for a layer. -/
structure Image (σ : Type*) where
  left : ℤ
  top : ℤ
  width : ℤ
  height : ℤ
  start : ℤ
  surface : σ

/-- Each lookup gives an image, by the layer and the position in the text. All layers advance alike. -/
structure CoreFont (σ : Type*) extends FontBreak.Font where
  image : ℕ → ℕ → Image σ
  blittingflags : Finset BlittingFlag
  premultiplied : Bool
  height : ℤ
  rotated : Bool
  root256_eq : root256 = fun z => Int.sqrt z/256

/-- What is read of a `CardState`, where `alpha` is that of its color, and of the destination. -/
structure State (σ γ : Type*) where
  blending : Blending
  blend : Bool
  dstColorkey : Bool
  xor : Bool
  color : γ
  alpha : ℕ
  colors : ℕ → γ
  source : Option σ
  clip : Region
  matrix : Bool
  hasAlpha : Bool
  premultiplied : Bool

structure Blit (σ γ : Type*) where
  source : Option σ
  color : γ
  rect : ℤ × ℤ × ℤ × ℤ
  point : ℤ × ℤ

variable {σ γ : Type*}

/-- What the drawing flags add to the blitting flags of a font. -/
def State.extra (s : State σ γ) : Finset BlittingFlag :=
  (if s.blend ∧ s.alpha ≠ 255 then {.blendColoralpha} else ∅) ∪
    ((if s.dstColorkey then {.dstColorkey} else ∅) ∪ if s.xor then {.xor} else ∅)

/-- `font_state_prepare` -/
def fontStatePrepare (font : CoreFont σ) (s : State σ γ) : Blending :=
  if s.blending.blittingflags = {.indexTranslation} then s.blending
  else
    let flags := font.blittingflags ∪ s.extra
    if .blendAlphachannel ∈ flags ∨ .blendColoralpha ∈ flags then
      if s.hasAlpha ∧ s.premultiplied ∨ font.premultiplied then
        if font.premultiplied then
          ⟨if .blendColoralpha ∈ flags then flags ∪ {.srcPremultcolor} else flags,.one,.invSrcAlpha⟩
        else ⟨flags ∪ {.srcPremultiply},.one,.invSrcAlpha⟩
      else ⟨flags,.srcAlpha,.invSrcAlpha⟩
    else {s.blending with blittingflags := flags}

/-- `font_state_restore` -/
def fontStateRestore (b backup : Blending) : Blending :=
  if b.blittingflags = {.indexTranslation} then b else backup

/-- The arguments of `dfb_gfxcard_drawstring`, with the text decoded. -/
structure Call (σ γ : Type*) where
  font : CoreFont σ
  state : State σ γ
  indices : List ℕ
  x : ℤ
  y : ℤ
  layers : ℕ

/-- The variables of the loops. -/
structure Draw (σ γ : Type*) where
  x : ℤ
  y : ℤ
  prev : ℕ
  source : Option σ
  batch : List ((ℤ × ℤ × ℤ × ℤ) × (ℤ × ℤ))
  blits : List (Blit σ γ)

def Draw.pen (d : Draw σ γ) : ℤ × ℤ × ℕ := (d.x,d.y,d.prev)

def Draw.flush (color : γ) (d : Draw σ γ) : Draw σ γ :=
  {d with batch := [], blits := d.blits++d.batch.map fun b => ⟨d.source,color,b.1,b.2⟩}

namespace Call
variable (c : Call σ γ)

/-- The simple prechecks. -/
def outside : Prop :=
  ¬c.font.rotated ∧ ¬c.state.matrix ∧
    (c.x > c.state.clip.x2 ∨ c.y > c.state.clip.y2 ∨ c.y+c.font.height ≤ c.state.clip.y1)

instance : Decidable c.outside := inferInstanceAs (Decidable (_ ∧ _ ∧ _))

/-- The color of the state, while a layer is drawn. -/
def color (layer : ℕ) : γ := if c.layers > 1 then c.state.colors layer else c.state.color

/-- Where the image of a glyph is taken from and put. -/
def put (layer i : ℕ) (x y : ℤ) : (ℤ × ℤ × ℤ × ℤ) × (ℤ × ℤ) :=
  let image := c.font.image layer i
  ((image.start,0,image.width,image.height),(x/256+image.left,y/256+image.top))

variable [DecidableEq σ]

/-- A glyph, with its position in the text. -/
def glyph (layer : ℕ) (d : Draw σ γ) (g : ℕ × ℕ) : Draw σ γ :=
  match c.font.glyph g.1 with
  | none => {d with prev := g.1}
  | some advance =>
    let kern := (c.font.kerning d.prev g.1).getD (0,0)
    let d := {d with x := d.x+kern.1*256, y := d.y+kern.2*256}
    let image := c.font.image layer g.2
    let d :=
      if image.width = 0 then d
      else
        let d := if some image.surface ≠ d.source ∨ d.batch.length = 50 then
            {d.flush (c.color layer) with source := some image.surface}
          else d
        {d with batch := d.batch++[c.put layer g.2 d.x d.y]}
    {d with x := d.x+advance.1, y := d.y+advance.2, prev := g.1}

def glyphs (layer : ℕ) (l : List (ℕ × ℕ)) (d : Draw σ γ) : Draw σ γ :=
  l.foldl (c.glyph layer) {d with x := c.x*256, y := c.y*256}

/-- The first `n` layers, of which the highest comes first. -/
def drawn : ℕ → Draw σ γ
  | 0 => ⟨c.x,c.y,0,c.state.source,[],[]⟩
  | n+1 => (c.glyphs (c.layers-1-n) c.indices.zipIdx (drawn n)).flush (c.color (c.layers-1-n))

/-- `dfb_gfxcard_drawstring` -/
def drawstring : Blending × List (Blit σ γ) :=
  if c.outside then (c.state.blending,[])
  else (fontStateRestore (fontStatePrepare c.font c.state) c.state.blending,(c.drawn c.layers).blits)

/-- The pen in a layer after the first glyphs. -/
def penAfter (n j : ℕ) : ℤ × ℤ × ℕ :=
  (c.glyphs (c.layers-1-n) (c.indices.zipIdx.take j) (c.drawn n)).pen

end Call

/-- What the glyphs of a text advance, after a previous one. -/
def advance (font : FontBreak.Font) : ℕ → List ℕ → ℤ × ℤ
  | _, [] => (0,0)
  | prev, current::l =>
    let rest := advance font current l
    match font.glyph current with
    | none => rest
    | some a =>
      let kern := (font.kerning prev current).getD (0,0)
      (a.1+kern.1*256+rest.1,a.2+kern.2*256+rest.2)

/-- What `IDirectFBFont_GetStringWidth` makes of the decoded text. -/
def width (font : FontBreak.Font) (indices : List ℕ) : ℤ :=
  let size := indices.foldl (measure font) (0,0,0)
  if size.2.1 = 0 then size.1/256
  else if size.1 = 0 then size.2.1/256
  else font.root256 (size.1*(size.1/256)+size.2.1*(size.2.1/256))

theorem getStringWidth_eq (font : FontBreak.Font) (text : ℕ → UInt8) (bytes : ℕ) :
    FontBreak.getStringWidth font text bytes =
      (FontDecode.decodeText text bytes (font.getCharacterIndex.map fun answer _ => answer)).map
        fun r => width font r.indices := rfl

/-- A pen that moved along one direction did so by the width, else the width is the distance. -/
def Reaches (moved : ℤ × ℤ) (w : ℤ) : Prop :=
  if moved.2 = 0 then moved.1/256 = w
  else if moved.1 = 0 then moved.2/256 = w
  else Int.sqrt (moved.1^2+moved.2^2)/256 = w

namespace Call
variable (c : Call σ γ)

/-- The blit of a glyph, with the pen at what is before it. -/
def expected (layer : ℕ) (pen : ℤ × ℤ × ℕ) (g : ℕ × ℕ) : List (Blit σ γ) :=
  let kern := (c.font.kerning pen.2.2 g.1).getD (0,0)
  let image := c.font.image layer g.2
  let p := c.put layer g.2 (pen.1+kern.1*256) (pen.2.1+kern.2*256)
  if c.font.glyph g.1 = none ∨ image.width = 0 then []
  else [⟨some image.surface,c.color layer,p.1,p.2⟩]

def expectedAll (layer : ℕ) : ℤ × ℤ × ℕ → List (ℕ × ℕ) → List (Blit σ γ)
  | _, [] => []
  | pen, g::l => c.expected layer pen g++expectedAll layer (measure c.font.toFont pen g.1) l

/-- The layers are laid out alike, as measured, and the state is restored. -/
structure LaidOut [DecidableEq σ] : Prop where
  blits : c.drawstring.2 = (List.range c.layers).flatMap fun n =>
    c.expectedAll (c.layers-1-n) (c.x*256,c.y*256,0) c.indices.zipIdx
  pens : ¬c.outside → ∀ n < c.layers, ∀ j ≤ c.indices.length,
    let moved := advance c.font.toFont 0 (c.indices.take j)
    (c.penAfter n j).1 = c.x*256+moved.1 ∧ (c.penAfter n j).2.1 = c.y*256+moved.2
  reaches : ¬c.outside → ∀ n < c.layers,
    let pen := c.penAfter n c.indices.length
    Reaches (pen.1-c.x*256,pen.2.1-c.y*256) (width c.font.toFont c.indices)
  restored : c.drawstring.1 = c.state.blending

/-- The last glyph of a layer is not kerned with the first of the next. -/
def Unkerned : Prop :=
  ∀ first ∈ c.indices.head?, ∀ last ∈ c.indices.getLast?,
    c.font.glyph first = none ∨ (c.font.kerning last first).getD (0,0) = (0,0)

/-- The text moves the pen in one direction, or by less than a pixel. -/
def Straight : Prop :=
  let moved := advance c.font.toFont 0 c.indices
  moved.1 = 0 ∨ moved.2 = 0 ∨ moved.1^2+moved.2^2 < 65536

/-- The condition for a text to be laid out alike in all its layers. -/
def Fine : Prop :=
  if c.outside then ∀ n < c.layers, ∀ g ∈ c.indices.zipIdx,
    c.font.glyph g.1 = none ∨ (c.font.image (c.layers-1-n) g.2).width = 0
  else (c.state.blending.blittingflags = {.indexTranslation} ∨
      ¬(c.font.blittingflags = {.indexTranslation} ∧ c.state.extra = ∅)) ∧
    (c.layers ≤ 1 ∨ c.Unkerned) ∧ (c.layers = 0 ∨ c.Straight)

theorem expectedAll_eq_nil {layer : ℕ} {l : List (ℕ × ℕ)} {pen : ℤ × ℤ × ℕ} :
    c.expectedAll layer pen l = [] ↔
      ∀ g ∈ l, c.font.glyph g.1 = none ∨ (c.font.image layer g.2).width = 0 := by
  induction l generalizing pen with
  | nil => simp [expectedAll]
  | cons g l ih =>
    rw [expectedAll,List.append_eq_nil_iff,ih,List.forall_mem_cons]
    simp [expected,or_iff_not_imp_left]

end Call

theorem kerning_zero (font : FontBreak.Font) (current : ℕ) : font.kerning 0 current = none := rfl

theorem foldl_measure (font : FontBreak.Font) (l : List ℕ) (x y : ℤ) (prev : ℕ) :
    l.foldl (measure font) (x,y,prev) =
      (x+(advance font prev l).1,y+(advance font prev l).2,l.getLast?.getD prev) := by
  induction l generalizing x y prev with
  | nil => simp [advance]
  | cons a l ih =>
    have hlast : (a::l).getLast?.getD prev = l.getLast?.getD a := by
      rw [List.getLast?_cons]
      rfl
    rw [List.foldl_cons,hlast]
    cases hg : font.glyph a with
    | none => simp [FontBreak.measure,advance,hg,ih]
    | some p =>
      simp only [FontBreak.measure,advance,hg,ih,Prod.mk.injEq,and_true]
      omega

/-- Only the kerning of the first glyph depends on what is before. -/
theorem measure_unkerned {font : FontBreak.Font} {prev current : ℕ}
    (h : font.glyph current = none ∨ (font.kerning prev current).getD (0,0) = (0,0)) (x y : ℤ) :
    measure font (x,y,prev) current = measure font (x,y,0) current := by
  unfold FontBreak.measure
  rcases h with h | h
  · simp [h]
  · simp [h,kerning_zero]

theorem prepare_translates (font : CoreFont σ) (s : State σ γ)
    (hs : s.blending.blittingflags ≠ {.indexTranslation}) :
    (fontStatePrepare font s).blittingflags = {.indexTranslation} ↔
      font.blittingflags = {.indexTranslation} ∧ s.extra = ∅ := by
  have hextra : .indexTranslation ∉ s.extra := by
    unfold State.extra
    split_ifs <;> simp
  have hor : font.blittingflags∪s.extra = {.indexTranslation} ↔
      font.blittingflags = {.indexTranslation} ∧ s.extra = ∅ := by
    refine ⟨fun h => ?_,fun ⟨hf,he⟩ => by simp [hf,he]⟩
    have he : s.extra = ∅ := by
      refine Finset.eq_empty_of_forall_notMem fun f hf => ?_
      have := Finset.mem_singleton.mp (h ▸ Finset.mem_union_right _ hf)
      exact hextra (this ▸ hf)
    exact ⟨by simpa [he] using h,he⟩
  unfold fontStatePrepare
  rw [if_neg hs]
  dsimp only
  split_ifs with hblend
  all_goals try exact hor
  all_goals
    refine ⟨fun h => ?_,fun h => ?_⟩
    · rcases hblend with hb | hb
      all_goals
        have hmem := h.subset (Finset.mem_union_left _ hb)
        simp at hmem
    · simp [hor.mpr h] at hblend

theorem sqrt_div_lt (z : ℤ) (k : ℕ) : Int.sqrt z/256 < (k : ℤ)+1 ↔ z < (256*((k : ℤ)+1))^2 := by
  rw [Int.ediv_lt_iff_lt_mul (by norm_num),Int.sqrt]
  have h := Nat.sqrt_lt' (m := z.toNat) (n := 256*(k+1))
  rw [show ((k : ℤ)+1)*256 = ((256*(k+1) : ℕ) : ℤ) by push_cast; ring,Nat.cast_lt,h]
  zify
  have hpos : (0 : ℤ) < (256*((k : ℤ)+1))^2 := by positivity
  omega

/-- What is measured of a direction is a pixel for 256 of the square. -/
theorem mul_div_le {z : ℤ} {k : ℕ} (hz : z^2 < (256*((k : ℤ)+1))^2) :
    z*(z/256) ≤ 256*((k : ℤ)+1)^2 := by
  have habs := abs_lt_of_sq_lt_sq hz (by positivity)
  have hdiv : |z/256| ≤ (k : ℤ)+1 := by
    rw [abs_lt] at habs
    rw [abs_le]
    omega
  calc z*(z/256) ≤ |z*(z/256)| := le_abs_self _
    _ = |z| * |z/256| := abs_mul z _
    _ ≤ 256*((k : ℤ)+1)*((k : ℤ)+1) := mul_le_mul habs.le hdiv (abs_nonneg _) (by positivity)
    _ = 256*((k : ℤ)+1)^2 := by ring

/-- The root is divided by 256 instead of 16. -/
theorem distance_iff (x y : ℤ) :
    Int.sqrt (x^2+y^2)/256 = Int.sqrt (x*(x/256)+y*(y/256))/256 ↔ x^2+y^2 < 65536 := by
  have hbound (k : ℕ) (h : x^2+y^2 < (256*((k : ℤ)+1))^2) :
      x*(x/256)+y*(y/256) ≤ 512*((k : ℤ)+1)^2 := by
    have hx := mul_div_le (z := x) (k := k) (by nlinarith [sq_nonneg y])
    have hy := mul_div_le (z := y) (k := k) (by nlinarith [sq_nonneg x])
    linarith
  have hnonneg (z : ℤ) : 0 ≤ Int.sqrt z/256 := Int.ediv_nonneg (Int.sqrt_nonneg z) (by norm_num)
  have hzero := sqrt_div_lt (x^2+y^2) 0
  have hzero' := sqrt_div_lt (x*(x/256)+y*(y/256)) 0
  have hD := hnonneg (x^2+y^2)
  have hS := hnonneg (x*(x/256)+y*(y/256))
  norm_num at hzero hzero'
  constructor
  · intro heq
    by_contra hge
    obtain ⟨n,hn⟩ := Int.eq_ofNat_of_zero_le hD
    obtain ⟨m,rfl⟩ := Nat.exists_eq_add_of_le' (show 1 ≤ n by omega)
    have hle := hbound (m+1) ((sqrt_div_lt _ _).mp (by omega))
    have hm := Int.natCast_nonneg m
    push_cast at hle hn
    have hlt := (sqrt_div_lt (x*(x/256)+y*(y/256)) m).mpr (by nlinarith)
    omega
  · intro h
    have hle := hbound 0 (by norm_num; omega)
    norm_num at hle
    omega

theorem reaches_iff (font : CoreFont σ) (l : List ℕ) :
    let moved := advance font.toFont 0 l
    Reaches moved (width font.toFont l) ↔
      moved.1 = 0 ∨ moved.2 = 0 ∨ moved.1^2+moved.2^2 < 65536 := by
  intro moved
  simp only [Reaches,width,foldl_measure,zero_add,font.root256_eq]
  split_ifs with hy hx
  · simp [moved,hy]
  · simp [moved,hx]
  · rw [distance_iff]
    simp [moved,hx,hy]

namespace Call
variable (c : Call σ γ) [DecidableEq σ]

theorem pen_glyph (layer : ℕ) (d : Draw σ γ) (g : ℕ × ℕ) :
    (c.glyph layer d g).pen = measure c.font.toFont d.pen g.1 := by
  unfold glyph FontBreak.measure Draw.pen
  cases c.font.glyph g.1 with
  | none => rfl
  | some a =>
    dsimp only
    split_ifs <;> simp [Draw.flush] <;> omega

theorem pen_foldl (layer : ℕ) (l : List (ℕ × ℕ)) (d : Draw σ γ) :
    (l.foldl (c.glyph layer) d).pen = (l.map Prod.fst).foldl (measure c.font.toFont) d.pen := by
  induction l generalizing d with
  | nil => rfl
  | cons g l ih => rw [List.foldl_cons,ih,pen_glyph,List.map_cons,List.foldl_cons]

/-- What is blitted and batched grows by the glyph, whether the batch is flushed before or not. -/
theorem flush_glyph (layer : ℕ) (d : Draw σ γ) (g : ℕ × ℕ) :
    ((c.glyph layer d g).flush (c.color layer)).blits =
      (d.flush (c.color layer)).blits++c.expected layer d.pen g := by
  unfold glyph expected
  cases c.font.glyph g.1 with
  | none => simp [Draw.flush]
  | some a =>
    dsimp only
    by_cases hw : (c.font.image layer g.2).width = 0
    · simp [hw,Draw.flush]
    · rw [if_neg hw]
      split_ifs with hs <;> simp_all [Draw.flush,Draw.pen]

theorem flush_foldl (layer : ℕ) (l : List (ℕ × ℕ)) (d : Draw σ γ) :
    ((l.foldl (c.glyph layer) d).flush (c.color layer)).blits =
      (d.flush (c.color layer)).blits++c.expectedAll layer d.pen l := by
  induction l generalizing d with
  | nil => simp [expectedAll]
  | cons g l ih =>
    rw [List.foldl_cons,ih,flush_glyph,pen_glyph,expectedAll,List.append_assoc]

theorem drawn_batch (n : ℕ) : (c.drawn n).batch = [] := by
  cases n <;> rfl

theorem drawn_blits (n : ℕ) : (c.drawn (n+1)).blits = (c.drawn n).blits++
    c.expectedAll (c.layers-1-n) (c.x*256,c.y*256,(c.drawn n).prev) c.indices.zipIdx := by
  rw [drawn,glyphs,flush_foldl]
  simp [Draw.flush,drawn_batch,Draw.pen]

theorem penAfter_eq (n j : ℕ) : c.penAfter n j =
    (c.indices.take j).foldl (measure c.font.toFont) (c.x*256,c.y*256,(c.drawn n).prev) := by
  rw [penAfter,glyphs,pen_foldl,List.map_take,List.zipIdx_map_fst]
  rfl

theorem drawn_prev (n : ℕ) : (c.drawn n).prev = if n = 0 then 0 else c.indices.getLast?.getD 0 := by
  have hstep (n : ℕ) : (c.drawn (n+1)).prev = c.indices.getLast?.getD (c.drawn n).prev := by
    have h := c.penAfter_eq n c.indices.length
    rw [penAfter,List.take_of_length_le (by simp),List.take_length,foldl_measure] at h
    exact congrArg (fun pen => pen.2.2) h
  induction n with
  | zero => rfl
  | succ n ih =>
    rw [hstep,ih]
    cases c.indices.getLast? <;> simp

theorem drawn_all (n : ℕ) : (c.drawn n).blits = (List.range n).flatMap fun m =>
    c.expectedAll (c.layers-1-m) (c.x*256,c.y*256,(c.drawn m).prev) c.indices.zipIdx := by
  induction n with
  | zero => rfl
  | succ n ih => rw [drawn_blits,ih,List.range_succ,List.flatMap_append,List.flatMap_singleton]

/-- In no layer the first glyph is kerned. -/
theorem measure_first (h : c.layers ≤ 1 ∨ c.Unkerned) {n : ℕ} (hn : n < c.layers) {first : ℕ}
    (hfirst : first ∈ c.indices.head?) :
    c.font.glyph first = none ∨ (c.font.kerning (c.drawn n).prev first).getD (0,0) = (0,0) := by
  rw [drawn_prev]
  split_ifs with h0
  · exact .inr rfl
  · cases hlast : c.indices.getLast? with
    | none => exact .inr rfl
    | some last => exact h.resolve_left (by omega) first hfirst last hlast

theorem restored_iff (hout : ¬c.outside) : c.drawstring.1 = c.state.blending ↔
    c.state.blending.blittingflags = {.indexTranslation} ∨
      ¬(c.font.blittingflags = {.indexTranslation} ∧ c.state.extra = ∅) := by
  unfold drawstring fontStateRestore
  rw [if_neg hout]
  by_cases hs : c.state.blending.blittingflags = {.indexTranslation}
  · simp [fontStatePrepare,hs]
  · rw [← prepare_translates _ _ hs]
    dsimp only
    split_ifs with hp
    · refine ⟨fun h => absurd (h ▸ hp) hs,fun h => absurd hp (h.resolve_left hs)⟩
    · simp [hp]

theorem penAfter_unkerned (h : c.layers ≤ 1 ∨ c.Unkerned) {n : ℕ} (hn : n < c.layers) (j : ℕ) :
    let moved := advance c.font.toFont 0 (c.indices.take j)
    (c.penAfter n j).1 = c.x*256+moved.1 ∧ (c.penAfter n j).2.1 = c.y*256+moved.2 := by
  rw [penAfter_eq]
  cases j with
  | zero => simp [advance]
  | succ j =>
    cases hi : c.indices with
    | nil => simp [advance]
    | cons first l =>
      rw [List.take_succ_cons,List.foldl_cons,
        measure_unkerned (c.measure_first h hn (by simp [hi])),← List.foldl_cons,foldl_measure]
      exact ⟨rfl,rfl⟩

theorem expectedAll_unkerned (h : c.layers ≤ 1 ∨ c.Unkerned) {n : ℕ} (hn : n < c.layers)
    (layer : ℕ) (x y : ℤ) : c.expectedAll layer (x,y,(c.drawn n).prev) c.indices.zipIdx =
      c.expectedAll layer (x,y,0) c.indices.zipIdx := by
  cases hi : c.indices with
  | nil => rfl
  | cons first l =>
    have hfirst := c.measure_first h hn (show first ∈ c.indices.head? by simp [hi])
    simp only [List.zipIdx_cons,expectedAll,expected,measure_unkerned hfirst,kerning_zero]
    rcases hfirst with hf | hf <;> simp [hf]

/-- The layers are laid out alike just in these cases. -/
theorem laidOut_iff : c.LaidOut ↔ c.Fine := by
  unfold Fine
  split_ifs with hout
  · have hblits : c.drawstring.2 = [] := by simp [drawstring,hout]
    have hstate : c.drawstring.1 = c.state.blending := by simp [drawstring,hout]
    refine ⟨fun h n hn => ?_,fun h => ⟨?_,absurd hout,absurd hout,hstate⟩⟩
    · have := h.blits.symm.trans hblits
      exact c.expectedAll_eq_nil.mp (List.flatMap_eq_nil_iff.mp this n (List.mem_range.mpr hn))
    · rw [hblits,eq_comm,List.flatMap_eq_nil_iff]
      exact fun n hn => c.expectedAll_eq_nil.mpr (h n (List.mem_range.mp hn))
  · have hpens (h : c.layers ≤ 1 ∨ c.Unkerned) {n : ℕ} (hn : n < c.layers) :
        let pen := c.penAfter n c.indices.length
        Reaches (pen.1-c.x*256,pen.2.1-c.y*256) (width c.font.toFont c.indices) ↔ c.Straight := by
      have hpen := c.penAfter_unkerned h hn c.indices.length
      rw [List.take_length] at hpen
      dsimp only
      rw [hpen.1,hpen.2,add_sub_cancel_left,add_sub_cancel_left]
      exact reaches_iff c.font c.indices
    constructor
    · intro h
      have hkern : c.layers ≤ 1 ∨ c.Unkerned := by
        refine or_iff_not_imp_left.mpr fun hl first hfirst last hlast => ?_
        have hne : c.indices ≠ [] := by
          rintro hnil
          simp [hnil] at hfirst
        obtain ⟨l,hi⟩ := List.head?_eq_some_iff.mp hfirst
        have hpen := h.pens hout 1 (by omega) 1 (List.length_pos_iff.mpr hne)
        rw [penAfter_eq,drawn_prev,if_neg one_ne_zero,hlast,hi] at hpen
        cases hg : c.font.glyph first with
        | none => exact .inl rfl
        | some a =>
          simp [FontBreak.measure,advance,hg,kerning_zero] at hpen
          exact .inr (Prod.ext hpen.1 hpen.2)
      refine ⟨(c.restored_iff hout).mp h.restored,hkern,?_⟩
      exact (Nat.eq_zero_or_pos c.layers).imp_right fun hpos =>
        (hpens hkern hpos).mp (h.reaches hout 0 hpos)
    · rintro ⟨hflags,hkern,hstraight⟩
      refine ⟨?_,fun _ n hn j _ => c.penAfter_unkerned hkern hn j,fun _ n hn => ?_,
        (c.restored_iff hout).mpr hflags⟩
      · simp only [drawstring,if_neg hout,drawn_all]
        exact List.flatMap_congr fun n hn =>
          c.expectedAll_unkerned hkern (List.mem_range.mp hn) _ _ _
      · exact (hpens hkern hn).mpr (hstraight.resolve_left (by omega))

/-- The call made by `IDirectFBSurface_DrawString` for a point, with `DSTF_RIGHT`. -/
def right : Call σ γ :=
  let size := c.indices.foldl (measure c.font.toFont) (0,0,0)
  {c with x := c.x-size.1/256, y := c.y-size.2.1/256}

/-- The text ends at the point in all its layers just if they are laid out alike. -/
theorem ends_right_iff : (∀ n < c.layers, let pen := c.right.penAfter n c.indices.length
    pen.1/256 = c.x ∧ pen.2.1/256 = c.y) ↔ c.layers ≤ 1 ∨ c.Unkerned := by
  constructor
  · intro h
    refine or_iff_not_imp_left.mpr fun hl first hfirst last hlast => ?_
    obtain ⟨l,hi⟩ := List.head?_eq_some_iff.mp hfirst
    have hpen := h 1 (by omega)
    simp only [penAfter_eq,drawn_prev,if_neg one_ne_zero,right,foldl_measure] at hpen
    cases hg : c.font.glyph first with
    | none => exact .inl rfl
    | some a =>
      rw [Option.mem_def,hi] at hlast
      simp [hlast,hi,advance,hg,kerning_zero] at hpen
      exact .inr (Prod.ext (by simp; omega) (by simp; omega))
  · intro h n hn
    have hpen := c.right.penAfter_unkerned h hn c.indices.length
    simp only [right,foldl_measure,List.take_length] at hpen ⊢
    omega

/-- Two glyphs of one pixel that are kerned with each other, in some layers. -/
def pair (layers : ℕ) : Call Bool Unit where
  font := {
    getCharacterIndex := none
    glyph := fun _ => some (256,0)
    getKerning := some fun _ _ => some (-1,0)
    root := id
    root256 := fun z => Int.sqrt z/256
    image := fun _ _ => ⟨0,0,1,1,0,true⟩
    blittingflags := {.blendAlphachannel,.colorize}
    premultiplied := false
    height := 8
    rotated := false
    root256_eq := rfl }
  state := ⟨⟨∅,.one,.one⟩,false,false,false,(),255,fun _ => (),none,⟨0,0,9,9⟩,false,true,false⟩
  indices := [1,2]
  x := 0
  y := 0
  layers

theorem outline_shifted : ¬(pair 2).LaidOut := fun h =>
  absurd (h.pens (by decide) 1 (by decide) 1 (by decide)).1 (by decide)

end Call

end DirectFB.DrawString
