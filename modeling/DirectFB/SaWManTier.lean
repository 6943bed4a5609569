import DirectFB.SaWMan

/-! The windows of a tier, and what is seen of them by either eye. -/
namespace DirectFB.SaWMan

inductive Eye
  | left | right
  deriving DecidableEq

/-- What is read of a `SaWManTier`. -/
structure Tier where
  classes : StackingClass → Bool
  width : ℤ
  height : ℤ
  width_nonneg : 0 ≤ width
  height_nonneg : 0 ≤ height

def Tier.region (tier : Tier) : Region := ⟨0,0,tier.width-1,tier.height-1⟩

namespace Window
variable {ω : Type*}

/-- `stereo_offset` -/
def offset (eye : Eye) (w : Window ω) : ℤ :=
  match eye with
  | .left => w.config.z
  | .right => -w.config.z

def boundsArea (eye : Eye) (w : Window ω) : Region :=
  (Region.fromRectangle w.bounds).translated (w.offset eye) 0

def dstArea (eye : Eye) (w : Window ω) : Region :=
  (Region.fromRectangle w.dst).translated (w.offset eye) 0

def opaqueArea (eye : Eye) (w : Window ω) : Region :=
  w.config.opaqueRegion.translated (w.bounds.x+w.offset eye) w.bounds.y

/-- `DWOP_ALPHACHANNEL | DWOP_OPAQUE_REGION` -/
def partlyOpaque (w : Window ω) : Bool := w.options.alphaChannel && w.options.opaqueRegion

def unblended (w : Window ω) : Bool := decide (w.opacity = 0xff) && !w.options.colorKeying

theorem dstArea_within (eye : Eye) (w : Window ω) : (w.dstArea eye).Within (w.boundsArea eye) := by
  obtain ⟨h1,h2,h3,h4⟩ := w.placement.inside
  constructor <;> simp only [dstArea,boundsArea,Region.translated] <;>
    simp only [Window.dst,Window.bounds] at * <;> omega

theorem translated_regular {r : Region} (h : r.Regular) (x y : ℤ) : (r.translated x y).Regular := by
  have := h.x
  have := h.y
  constructor <;> simp only [Region.translated] <;> omega

theorem dstArea_regular (eye : Eye) (w : Window ω) : (w.dstArea eye).Regular :=
  translated_regular (Region.fromRectangle_regular _) _ _

theorem boundsArea_regular (eye : Eye) (w : Window ω) : (w.boundsArea eye).Regular :=
  translated_regular (Region.fromRectangle_regular _) _ _

end Window

variable {ω : Type*}

def Shown (borders : Borders) (tier : Tier) (s : Windows ω) (w : ω) : Prop :=
  visible borders s w ∧ tier.classes (s w).config.stacking

instance (borders : Borders) (tier : Tier) (s : Windows ω) (w : ω) :
    Decidable (Shown borders tier s w) := inferInstanceAs (Decidable (_ ∧ _))

def Covers (borders : Borders) (tier : Tier) (s : Windows ω) (eye : Eye) (w : ω)
    (p : ℤ × ℤ) : Prop :=
  Shown borders tier s w ∧ (s w).input = false ∧ ((s w).dstArea eye).Contains p

def Hides (borders : Borders) (tier : Tier) (s : Windows ω) (eye : Eye) (w : ω)
    (p : ℤ × ℤ) : Prop :=
  Covers borders tier s eye w p ∧ (s w).unblended ∧ ((s w).options.alphaChannel →
      (s w).options.opaqueRegion ∧ ((s w).opaqueArea eye).Contains p)

instance (borders : Borders) (tier : Tier) (s : Windows ω) (eye : Eye) (w : ω) (p : ℤ × ℤ) :
    Decidable (Covers borders tier s eye w p) := inferInstanceAs (Decidable (_ ∧ _ ∧ _))

instance (borders : Borders) (tier : Tier) (s : Windows ω) (eye : Eye) (w : ω) (p : ℤ × ℤ) :
    Decidable (Hides borders tier s eye w p) := inferInstanceAs (Decidable (_ ∧ _ ∧ _))

/-- What is drawn: the background, or a window with or without its alpha channel. -/
inductive Layer (ω : Type*)
  | background
  | window (w : ω) (alphaChannel : Bool)
  deriving DecidableEq

def painter (borders : Borders) (tier : Tier) (s : Windows ω) (eye : Eye) :
    List ω → ℤ × ℤ → List (Layer ω)
  | [], _ => [.background]
  | w::below, p =>
    if Covers borders tier s eye w p then painter borders tier s eye below p++[.window w true]
    else painter borders tier s eye below p

def covering (borders : Borders) (tier : Tier) (s : Windows ω) (eye : Eye) (l : List ω)
    (p : ℤ × ℤ) : List (Layer ω) :=
  l.filterMap fun w => if Covers borders tier s eye w p then some (.window w true) else none

theorem covering_cons (borders : Borders) (tier : Tier) (s : Windows ω) (eye : Eye) (w : ω)
    (above : List ω) (p : ℤ × ℤ) : covering borders tier s eye (w::above) p =
      if Covers borders tier s eye w p then .window w true::covering borders tier s eye above p
      else covering borders tier s eye above p := by
  rw [covering,List.filterMap_cons]
  split_ifs <;> rfl

theorem covering_append (borders : Borders) (tier : Tier) (s : Windows ω) (eye : Eye)
    (l m : List ω) (p : ℤ × ℤ) : covering borders tier s eye (l++m) p =
      covering borders tier s eye l p++covering borders tier s eye m p :=
  List.filterMap_append

theorem painter_reverse (borders : Borders) (tier : Tier) (s : Windows ω) (eye : Eye)
    (layout : List ω) (p : ℤ × ℤ) : painter borders tier s eye layout.reverse p =
      .background::covering borders tier s eye layout p := by
  induction layout using List.reverseRecOn with
  | nil => rfl
  | append_singleton below w ih =>
    rw [List.reverse_append,List.reverse_singleton,List.singleton_append,painter,ih,
      covering_append,covering_cons]
    split_ifs
    · rfl
    · exact congrArg _ (List.append_nil _).symm

theorem hides_of_not_translucent {borders : Borders} {tier : Tier} {s : Windows ω} {eye : Eye}
    {w : ω} {p : ℤ × ℤ} (hc : Covers borders tier s eye w p) (h : (s w).translucent = false) :
    Hides borders tier s eye w p := by
  simp only [Window.translucent,Bool.or_eq_false_iff,decide_eq_false_iff_not] at h
  obtain ⟨⟨⟨hop,⟨-,ha⟩,hk⟩,-⟩,-⟩ := h
  refine ⟨hc,?_,fun h => by rw [ha] at h; cases h⟩
  have hfull : (s w).opacity = 0xff := Fin.eq_last_of_not_lt hop
  simp [Window.unblended,hfull,hk]

def Found (borders : Borders) (tier : Tier) (s : Windows ω) (eye : Eye) (p : ℤ × ℤ) (w : ω) :
    Prop :=
  Shown borders tier s w ∧ ((s w).boundsArea eye).Contains p

instance (borders : Borders) (tier : Tier) (s : Windows ω) (eye : Eye) (p : ℤ × ℤ) :
    DecidablePred (Found borders tier s eye p) := fun _ => inferInstanceAs (Decidable (_ ∧ _))

def Cuts (borders : Borders) (tier : Tier) (s : Windows ω) (eye : Eye) (w : ω) (p : ℤ × ℤ) :
    Prop :=
  Covers borders tier s eye w p ∧
    if (s w).partlyOpaque then (s w).unblended ∧ ((s w).opaqueArea eye).Contains p
    else (s w).translucent = false

instance (borders : Borders) (tier : Tier) (s : Windows ω) (eye : Eye) (w : ω) (p : ℤ × ℤ) :
    Decidable (Cuts borders tier s eye w p) := inferInstanceAs (Decidable (_ ∧ ite ..))

theorem Cuts.hides {borders : Borders} {tier : Tier} {s : Windows ω} {eye : Eye} {w : ω}
    {p : ℤ × ℤ} (h : Cuts borders tier s eye w p) : Hides borders tier s eye w p := by
  obtain ⟨hc,hcut⟩ := h
  split_ifs at hcut with hpart
  · simp only [Window.partlyOpaque,Bool.and_eq_true] at hpart
    exact ⟨hc,hcut.1,fun _ => ⟨hpart.2,hcut.2⟩⟩
  · exact hides_of_not_translucent hc hcut

section Painting
variable {π : Type*}

/-- What drawing over a pixel does to it: nothing is left of it below a window that is not
blended, and without an alpha channel, or where that is opaque, it makes no difference. -/
structure Meaning (s : Windows ω) (eye : Eye) (p : ℤ × ℤ) (paint : Layer ω → π → π) :
    Prop where
  unblended : ∀ w, (s w).unblended → ∀ x y, paint (.window w false) x = paint (.window w false) y
  alpha : ∀ w, ((s w).options.alphaChannel →
      (s w).options.opaqueRegion ∧ ((s w).opaqueArea eye).Contains p) →
    paint (.window w true) = paint (.window w false)

def painted (paint : Layer ω → π → π) (x : π) (l : List (Layer ω)) : π :=
  l.foldl (fun x a => paint a x) x

@[simp] theorem painted_append (paint : Layer ω → π → π) (x : π) (l m : List (Layer ω)) :
    painted paint x (l++m) = painted paint (painted paint x l) m :=
  List.foldl_append

theorem Meaning.paint_of_hides {borders : Borders} {tier : Tier} {s : Windows ω} {eye : Eye}
    {p : ℤ × ℤ} {paint : Layer ω → π → π} (hm : Meaning s eye p paint) {w : ω}
    (h : Hides borders tier s eye w p) (a b : Bool) (x y : π) :
    paint (.window w a) x = paint (.window w b) y := by
  have hfalse : ∀ a, paint (.window w a) = paint (.window w false) := by
    intro a
    cases a with
    | true => exact hm.alpha w h.2.2
    | false => rfl
  rw [hfalse a,hfalse b]
  exact hm.unblended w h.2.1 x y

/-- Where a window hides the pixel, it makes no difference what was drawn before. -/
theorem painted_covering {borders : Borders} {tier : Tier} {s : Windows ω} {eye : Eye}
    {p : ℤ × ℤ} {paint : Layer ω → π → π} (hm : Meaning s eye p paint) {l : List ω}
    (h : ∃ w ∈ l, Hides borders tier s eye w p) (x y : π) :
    painted paint x (covering borders tier s eye l p) =
      painted paint y (covering borders tier s eye l p) := by
  induction l generalizing x y with
  | nil =>
    obtain ⟨w,hw,-⟩ := h
    cases hw
  | cons w above ih =>
    rw [covering_cons]
    by_cases hw : Hides borders tier s eye w p
    · rw [if_pos hw.1]
      exact congrArg (painted paint · (covering borders tier s eye above p))
        (hm.paint_of_hides hw true true x y)
    · have habove : ∃ v ∈ above, Hides borders tier s eye v p := by
        obtain ⟨v,hv,hh⟩ := h
        obtain rfl | hv := List.mem_cons.mp hv
        · exact absurd hh hw
        · exact ⟨v,hv,hh⟩
      split_ifs
      · exact ih habove _ _
      · exact ih habove _ _

end Painting

/-- `DFBDisplayLayerBackgroundMode` -/
inductive BackgroundMode
  | dontCare | color | image | tile
  deriving DecidableEq

/-- The background of a `CoreWindowStack`. -/
structure Background where
  mode : BackgroundMode
  a : Fin 256
  r : Fin 256
  g : Fin 256
  b : Fin 256

def Background.zero (bg : Background) : Bool :=
  bg.mode == .color && bg.a == 0 && bg.r == 0 && bg.g == 0 && bg.b == 0

def Window.premultiplied (w : Window ω) : Bool := w.surface.any (·.premultiplied)

/-- What drawing does to a pixel, if premultiplied contents blended over zero stay the same. -/
structure Blending (bg : Background) (s : Windows ω) (eye : Eye) (p : ℤ × ℤ) {π : Type*}
    (paint : Layer ω → π → π) : Prop extends Meaning s eye p paint where
  premultiplied : bg.zero → ∀ w, (s w).premultiplied → (s w).unblended →
    ∀ x y, paint (.window w false) x = paint (.window w true) (paint .background y)

def optimized (bg : Background) (w : Window ω) : Bool :=
  decide (w.opacity = 0xff) && w.premultiplied && w.options.alphaChannel &&
    !w.options.colorKeying && w.config.dstGeometry.mode == .default && bg.zero

section Mark
variable {bg : Background} {s : Windows ω} {eye : Eye} {p : ℤ × ℤ}

theorem optimized_spec {w : Window ω} (h : optimized bg w) :
    bg.zero ∧ w.premultiplied ∧ w.unblended := by
  simp only [optimized,Bool.and_eq_true,decide_eq_true_eq] at h
  obtain ⟨⟨⟨⟨⟨hop,hpre⟩,-⟩,hk⟩,-⟩,hz⟩ := h
  exact ⟨hz,hpre,by simp only [Window.unblended,hop,decide_true,hk,Bool.and_self]⟩

def mark (s : Windows ω) (eye : Eye) (p : ℤ × ℤ) : Layer ω → Bool → Bool
  | .background, _ => true
  | .window w alphaChannel, x =>
    x || (s w).unblended && (!alphaChannel || !(s w).options.alphaChannel ||
      (s w).options.opaqueRegion && decide (((s w).opaqueArea eye).Contains p))

theorem mark_blending (bg : Background) (s : Windows ω) (eye : Eye) (p : ℤ × ℤ) :
    Blending bg s eye p (mark s eye p) where
  unblended w hu x y := by simp [mark,hu]
  alpha w ha := by
    funext x
    by_cases hopt : (s w).options.alphaChannel
    · obtain ⟨ho,hp⟩ := ha hopt
      simp [mark,ho,hp]
    · simp [mark,hopt]
  premultiplied _ w _ hu x y := by simp [mark,hu]

theorem painted_mark_true (l : List (Layer ω)) : painted (mark s eye p) true l = true := by
  induction l with
  | nil => rfl
  | cons a l ih =>
    rw [← List.singleton_append,painted_append]
    cases a <;> exact ih

theorem mark_of_not_hides {borders : Borders} {tier : Tier} {w : ω} (hc : Covers borders tier s eye w p)
    (h : ¬ Hides borders tier s eye w p) (x : Bool) : mark s eye p (.window w true) x = x := by
  have hn : ((s w).unblended && (!true || !(s w).options.alphaChannel ||
      (s w).options.opaqueRegion && decide (((s w).opaqueArea eye).Contains p))) = false := by
    by_contra ht
    simp only [Bool.not_true,Bool.false_or,Bool.not_eq_false,Bool.and_eq_true,Bool.or_eq_true,
      Bool.not_eq_true',decide_eq_true_eq] at ht
    refine h ⟨hc,ht.1,fun ha => ?_⟩
    rcases ht.2 with hf | hopt
    · rw [hf] at ha
      cases ha
    · exact hopt
  rw [mark,hn,Bool.or_false]

theorem painted_mark_covering {borders : Borders} {tier : Tier} {l : List ω} (hn : ¬ ∃ w ∈ l, Hides borders tier s eye w p) :
    painted (mark s eye p) false (covering borders tier s eye l p) = false := by
  induction l with
  | nil => rfl
  | cons w above ih =>
    have ih := ih fun ⟨v,hv,hh⟩ => hn ⟨v,List.mem_cons_of_mem w hv,hh⟩
    rw [covering_cons]
    split_ifs with hc
    · have hw : ¬ Hides borders tier s eye w p := fun hh => hn ⟨w,List.mem_cons_self,hh⟩
      rw [← List.singleton_append,painted_append]
      exact (congrArg (painted (mark s eye p) · _) (mark_of_not_hides hc hw false)).trans ih
    · exact ih

end Mark

section Seen
variable (covers hides : ω → Prop) [DecidablePred covers] [DecidablePred hides]
  (drawn : ω → Layer ω)

def painterFrom : List ω → List (Layer ω)
  | [] => [.background]
  | w::below =>
    if hides w then [drawn w]
    else if covers w then painterFrom below++[drawn w] else painterFrom below

def Layer.window? : Layer ω → Option ω
  | .background => none
  | .window w _ => some w

def timesDrawn [DecidableEq ω] (w : ω) (l : List (Layer ω)) : ℕ :=
  l.countP fun a => a.window? = some w

variable {covers hides drawn}

theorem mem_painterFrom (hcovers : ∀ w, hides w → covers w) {l : List ω} {a : Layer ω}
    (h : a ∈ painterFrom covers hides drawn l) :
    a = .background ∨ ∃ w ∈ l, covers w ∧ a = drawn w := by
  induction l with
  | nil => exact .inl (List.mem_singleton.mp h)
  | cons w below ih =>
    have htop : covers w → a = drawn w → a = .background ∨ ∃ v ∈ w::below, covers v ∧ a = drawn v :=
      fun hc ha => .inr ⟨w,List.mem_cons_self,hc,ha⟩
    have hlow : a ∈ painterFrom covers hides drawn below → a = .background ∨
        ∃ v ∈ w::below, covers v ∧ a = drawn v := by
      intro ha
      rcases ih ha with rfl | ⟨v,hv,hc,rfl⟩
      · exact .inl rfl
      · exact .inr ⟨v,List.mem_cons_of_mem w hv,hc,rfl⟩
    rw [painterFrom] at h
    split_ifs at h with hh hc
    · exact htop (hcovers w hh) (List.mem_singleton.mp h)
    · rcases List.mem_append.mp h with h | h
      · exact hlow h
      · exact htop hc (List.mem_singleton.mp h)
    · exact hlow h

section
variable [DecidableEq ω]

theorem timesDrawn_append (w : ω) (l m : List (Layer ω)) :
    timesDrawn w (l++m) = timesDrawn w l+timesDrawn w m := List.countP_append

theorem timesDrawn_single (hdrawn : ∀ w, (drawn w).window? = some w) (w v : ω) :
    timesDrawn w [drawn v] = if v = w then 1 else 0 := by
  simp [timesDrawn,List.countP_singleton,hdrawn]

theorem timesDrawn_of_not_mem (hcovers : ∀ w, hides w → covers w)
    (hdrawn : ∀ w, (drawn w).window? = some w) {l : List ω} {w : ω} (hw : w ∉ l) :
    timesDrawn w (painterFrom covers hides drawn l) = 0 := by
  rw [timesDrawn,List.countP_eq_zero]
  intro a ha
  rcases mem_painterFrom hcovers ha with rfl | ⟨v,hv,-,rfl⟩
  · simp [Layer.window?]
  · have hne : v ≠ w := fun h => hw (h ▸ hv)
    simpa [hdrawn] using hne

/-- A window is drawn once where it covers the pixel and none above hides it, and else not. -/
theorem timesDrawn_painterFrom (hcovers : ∀ w, hides w → covers w)
    (hdrawn : ∀ w, (drawn w).window? = some w) {above below : List ω} {w : ω}
    (hnodup : (above++w::below).Nodup) :
    timesDrawn w (painterFrom covers hides drawn (above++w::below)) =
      if covers w ∧ ∀ v ∈ above, ¬ hides v then 1 else 0 := by
  induction above with
  | nil =>
    have hw : w ∉ below := (List.nodup_cons.mp hnodup).1
    have hzero := timesDrawn_of_not_mem hcovers hdrawn hw
    have hnone : (covers w ∧ ∀ v ∈ ([] : List ω), ¬ hides v) ↔ covers w := by simp
    rw [List.nil_append,painterFrom,if_congr hnone rfl rfl]
    by_cases hh : hides w
    · rw [if_pos hh,if_pos (hcovers w hh),timesDrawn_single hdrawn,if_pos rfl]
    · rw [if_neg hh]
      split_ifs
      · rw [timesDrawn_append,timesDrawn_single hdrawn,hzero,if_pos rfl]
      · exact hzero
  | cons v above ih =>
    have hne : v ≠ w := by
      rintro rfl
      exact (List.nodup_cons.mp hnodup).1 (by simp)
    have hrest := ih (List.nodup_cons.mp hnodup).2
    rw [List.cons_append,painterFrom]
    by_cases hh : hides v
    · rw [if_pos hh,timesDrawn_single hdrawn,if_neg hne,if_neg]
      exact fun h => h.2 v List.mem_cons_self hh
    · have hiff : (covers w ∧ ∀ u ∈ v::above, ¬ hides u) ↔ (covers w ∧ ∀ u ∈ above, ¬ hides u) := by
        rw [List.forall_mem_cons]
        tauto
      rw [if_neg hh,if_congr hiff rfl rfl,← hrest]
      split_ifs
      · rw [timesDrawn_append,timesDrawn_single hdrawn,if_neg hne,add_zero]
      · rfl

end

/-- What is hidden makes no difference. -/
theorem painted_painterFrom {π : Type*} {borders : Borders} {tier : Tier} {s : Windows ω}
    {eye : Eye} {p : ℤ × ℤ} {paint : Layer ω → π → π} (hm : Meaning s eye p paint)
    (hcovers : ∀ w, covers w ↔ Covers borders tier s eye w p)
    (hhides : ∀ w, hides w → Hides borders tier s eye w p)
    (hdrawn : ∀ w, paint (drawn w) = paint (.window w true)) (l : List ω) (x : π) :
    painted paint x (painterFrom covers hides drawn l) =
      painted paint x (painter borders tier s eye l p) := by
  induction l with
  | nil => rfl
  | cons w below ih =>
    have htop : ∀ y, painted paint y [drawn w] = painted paint y [.window w true] :=
      fun y => congrFun (hdrawn w) y
    rw [painterFrom,painter]
    by_cases hh : hides w
    · rw [if_pos hh,if_pos (hhides w hh).1,painted_append,htop]
      exact hm.paint_of_hides (hhides w hh) _ _ _ _
    · rw [if_neg hh]
      by_cases hc : covers w
      · rw [if_pos hc,if_pos ((hcovers w).mp hc),painted_append,painted_append,htop,ih]
      · rw [if_neg hc,if_neg ((hcovers w).not.mp hc),ih]

end Seen

section Drawing
variable (borders : Borders) (s : Windows ω) (eye : Eye)

def insideBorder (w : ω) : Region :=
  let border := (s w).border borders
  let area := (s w).boundsArea eye
  ⟨area.x1+border,area.y1+border,area.x2-border,area.y2-border⟩

/-- Where `sawman_draw_window` draws the window itself, of the region it is given, and
`sawman_draw_background` the background. -/
def Reaches : Layer ω → ℤ × ℤ → Prop
  | .background, _ => True
  | .window w _, p => (s w).input = false ∧ (insideBorder borders s eye w).Contains p ∧
      ((s w).dstArea eye).Contains p

instance (a : Layer ω) (p : ℤ × ℤ) : Decidable (Reaches borders s eye a p) :=
  match a with
  | .background => inferInstanceAs (Decidable True)
  | .window _ _ => inferInstanceAs (Decidable (_ ∧ _ ∧ _))

theorem reaches_background (p : ℤ × ℤ) : Reaches borders s eye (.background : Layer ω) p ↔ True :=
  Iff.rfl

/-- A call of `sawman_draw_background` or `sawman_draw_window`. -/
structure Draw (ω : Type*) where
  layer : Layer ω
  region : Region
  deriving DecidableEq

def layers (p : ℤ × ℤ) (draws : List (Draw ω)) : List (Layer ω) :=
  draws.filterMap fun d =>
    if d.region.Contains p ∧ Reaches borders s eye d.layer p then some d.layer else none

variable {borders s eye}

@[simp] theorem layers_append (p : ℤ × ℤ) (a b : List (Draw ω)) :
    layers borders s eye p (a++b) = layers borders s eye p a++layers borders s eye p b := by
  simp [layers]

theorem layers_single (p : ℤ × ℤ) (d : Draw ω) : layers borders s eye p [d] =
    if d.region.Contains p ∧ Reaches borders s eye d.layer p then [d.layer] else [] := by
  by_cases h : d.region.Contains p ∧ Reaches borders s eye d.layer p <;> simp [layers,h]

theorem layers_flatMap {α : Type*} (p : ℤ × ℤ) (l : List α) (f : α → List (Draw ω)) :
    layers borders s eye p (l.flatMap f) = l.flatMap fun r => layers borders s eye p (f r) :=
  List.filterMap_flatMap

structure Plain (borders : Borders) (s : Windows ω) (l : List ω) : Prop where
  border : ∀ w ∈ l, (s w).border borders = 0
  mono : ∀ w ∈ l, (s w).config.z = 0

theorem input_of_visible {w : ω} (hb : (s w).border borders = 0) (h : visible borders s w) :
    (s w).input = false := by
  simp only [visible,hb,Bool.and_eq_true] at h
  simpa using h.1.1.1

theorem reaches_window {w : ω} (hb : (s w).border borders = 0) (hi : (s w).input = false)
    (a : Bool) (p : ℤ × ℤ) :
    Reaches borders s eye (.window w a) p ↔ ((s w).dstArea eye).Contains p := by
  refine ⟨fun h => h.2.2,fun h => ⟨hi,?_,h⟩⟩
  have harea := (Window.dstArea_within eye (s w)).contains h
  simp only [insideBorder,hb,Region.Contains] at *
  omega

theorem covers_iff {tier : Tier} {w : ω} (hb : (s w).border borders = 0) {p : ℤ × ℤ} :
    Covers borders tier s eye w p ↔ Shown borders tier s w ∧ ((s w).dstArea eye).Contains p :=
  ⟨fun h => ⟨h.1,h.2.2⟩,fun h => ⟨h.1,input_of_visible hb h.1.1,h.2⟩⟩

end Drawing

def drawnAt (s : Windows ω) (eye : Eye) (p : ℤ × ℤ) (w : ω) : Layer ω :=
  .window w (!decide ((s w).partlyOpaque ∧ ((s w).opaqueArea eye).Contains p))

theorem Meaning.drawnAt {π : Type*} {s : Windows ω} {eye : Eye} {p : ℤ × ℤ}
    {paint : Layer ω → π → π} (hm : Meaning s eye p paint) (w : ω) :
    paint (drawnAt s eye p w) = paint (.window w true) := by
  rw [SaWMan.drawnAt]
  by_cases h : (s w).partlyOpaque ∧ ((s w).opaqueArea eye).Contains p
  · have hopt : (s w).options.opaqueRegion := by
      have := h.1
      simp only [Window.partlyOpaque,Bool.and_eq_true] at this
      exact this.2
    rw [hm.alpha w fun _ => ⟨hopt,h.2⟩,decide_eq_true h,Bool.not_true]
  · rw [decide_eq_false h,Bool.not_false]

end DirectFB.SaWMan
