import DirectFB.Region

/-! The windows of a stack, and how a region of it is composed of them: from the top down,
without what a fully opaque part hides. -/
namespace DirectFB

/-- `DFBRectangle`, with what `DFB_RECTANGLE_ASSERT` demands. -/
structure Rectangle where
  x : ℤ
  y : ℤ
  w : ℤ
  h : ℤ
  w_nonneg : 0 ≤ w
  h_nonneg : 0 ≤ h
  deriving DecidableEq

theorem zero_nonneg : (0 : ℤ) ≤ 0 := le_rfl

theorem ten_pos : (0 : ℤ) < 10 := by decide

theorem ten_nonneg : (0 : ℤ) ≤ 10 := ten_pos.le

theorem twenty_nonneg : (0 : ℤ) ≤ 20 := by decide

/-- The rotation of a window, in degrees. -/
inductive Rotation
  | r0 | r90 | r180 | r270
  deriving DecidableEq

structure WindowOptions where
  alphaChannel : Bool := false
  colorKeying : Bool := false
  opaqueRegion : Bool := false
  deriving DecidableEq

/-- The opaque region of a window, relative to it, as `DFB_REGION_ASSERT` demands. -/
structure OpaqueRegion extends Region where
  valid : toRegion.Valid

/-- The capability and the configuration of a `CoreWindow`, and whether it is destroyed. -/
structure Window where
  inputOnly : Bool
  destroyed : Bool
  bounds : Rectangle
  opacity : Fin 256
  options : WindowOptions
  opaqueRegion : OpaqueRegion
  rotation : Rotation

/-- `DFB_REGION_VALS_FROM_RECTANGLE`. -/
def Region.fromRectangle (r : Rectangle) : Region := ⟨r.x,r.y,r.x+r.w-1,r.y+r.h-1⟩

theorem Region.fromRectangle_regular (r : Rectangle) : (fromRectangle r).Regular := by
  have := r.w_nonneg
  have := r.h_nonneg
  constructor <;> simp only [fromRectangle] <;> omega

namespace Window

/-- `TRANSLUCENT_WINDOW`. -/
def translucent (w : Window) : Bool :=
  decide (w.opacity < 0xff) || w.options.alphaChannel || w.options.colorKeying

/-- `VISIBLE_WINDOW`. -/
def visible (w : Window) : Bool := !w.inputOnly && decide (0 < w.opacity) && !w.destroyed

/-- `transform_window_to_stack`, of the bounds. -/
def transformWindowToStack (w : Window) : Rectangle :=
  match w.rotation with
  | .r0 | .r180 => w.bounds
  | .r90 | .r270 =>
    ⟨w.bounds.x,w.bounds.y,w.bounds.h,w.bounds.w,w.bounds.h_nonneg,w.bounds.w_nonneg⟩

def area (w : Window) : Region := Region.fromRectangle w.transformWindowToStack

def opaqueArea (w : Window) : Region := w.opaqueRegion.translated w.bounds.x w.bounds.y

/-- `DWOP_ALPHACHANNEL | DWOP_OPAQUE_REGION`. -/
def partlyOpaque (w : Window) : Bool := w.options.alphaChannel && w.options.opaqueRegion

end Window

namespace UpdateRegion

/-- What is drawn: the background, or the window at an index. -/
inductive Layer
  | background
  | window (index : ℕ) (alphaChannel : Bool)
  deriving DecidableEq

def Layer.index? : Layer → Option ℕ
  | .background => none
  | .window index _ => some index

/-- A call of `draw_background` or `draw_window`. -/
structure Draw where
  layer : Layer
  region : Region
  deriving DecidableEq

/-- `update_region`, on the windows from the one at `start` down to the lowest. -/
def updateRegion : List Window → Region → List Draw
  | [], region => [⟨.background,region⟩]
  | window::below, outer =>
    if window.visible then
      match outer.intersect window.area with
      | none => updateRegion below outer
      | some region =>
        if window.partlyOpaque then
          match window.opaqueArea.intersect region with
          | none => updateRegion below outer++[⟨.window below.length true,region⟩]
          | some inner =>
            (if decide (window.opacity < 0xff) || window.options.colorKeying then
              updateRegion below outer
            else (Region.strips inner outer).flatMap (updateRegion below))++
            (Region.strips inner region).map (fun r => ⟨.window below.length true,r⟩)++
            [⟨.window below.length false,inner⟩]
        else
          (if window.translucent then updateRegion below outer
          else (Region.strips region outer).flatMap (updateRegion below))++
          [⟨.window below.length true,region⟩]
    else updateRegion below outer

def layers (p : ℤ × ℤ) (draws : List Draw) : List Layer :=
  draws.filterMap fun d => if d.region.Contains p then some d.layer else none

def Covers (w : Window) (p : ℤ × ℤ) : Prop := w.visible ∧ w.area.Contains p

def InOpaqueRegion (w : Window) (p : ℤ × ℤ) : Prop := w.partlyOpaque ∧ w.opaqueArea.Contains p

def Overwrites (w : Window) (alphaChannel : Bool) : Prop :=
  w.opacity = 0xff ∧ !w.options.colorKeying ∧ !(alphaChannel && w.options.alphaChannel)

def Hides (w : Window) (p : ℤ × ℤ) : Prop :=
  Covers w p ∧ w.opacity = 0xff ∧ !w.options.colorKeying ∧
    (w.options.alphaChannel → InOpaqueRegion w p)

instance (w : Window) (p : ℤ × ℤ) : Decidable (Covers w p) := inferInstanceAs (Decidable (_ ∧ _))
instance (w : Window) (p : ℤ × ℤ) : Decidable (InOpaqueRegion w p) :=
  inferInstanceAs (Decidable (_ ∧ _))
instance (w : Window) (a : Bool) : Decidable (Overwrites w a) :=
  inferInstanceAs (Decidable (_ ∧ _ ∧ _))
instance (w : Window) (p : ℤ × ℤ) : Decidable (Hides w p) :=
  inferInstanceAs (Decidable (_ ∧ _ ∧ _ ∧ _))

/-- The window at `index` as it is drawn at a pixel: without its alpha channel where its
opaque region is. -/
def drawn (w : Window) (index : ℕ) (p : ℤ × ℤ) : Layer :=
  .window index (!decide (InOpaqueRegion w p))

def painter : List Window → ℤ × ℤ → List Layer
  | [], _ => [.background]
  | w::below, p =>
    if Covers w p then painter below p++[drawn w below.length p] else painter below p

def painterFrom : List Window → ℤ × ℤ → List Layer
  | [], _ => [.background]
  | w::below, p =>
    if Hides w p then [drawn w below.length p]
    else if Covers w p then painterFrom below p++[drawn w below.length p]
    else painterFrom below p

@[simp] theorem layers_append (p : ℤ × ℤ) (a b : List Draw) :
    layers p (a++b) = layers p a++layers p b := by
  simp [layers]

@[simp] theorem layers_single (p : ℤ × ℤ) (d : Draw) :
    layers p [d] = if d.region.Contains p then [d.layer] else [] := by
  by_cases h : d.region.Contains p <;> simp [layers,h]

theorem layers_flatMap (p : ℤ × ℤ) (l : List Region) (f : Region → List Draw) :
    layers p (l.flatMap f) = l.flatMap fun r => layers p (f r) := by
  induction l with
  | nil => rfl
  | cons r l ih => rw [List.flatMap_cons,List.flatMap_cons,layers_append,ih]

variable {inner outer region : Region} {below l : List Window} {p : ℤ × ℤ} {w : Window} {i : ℕ}

theorem layers_strips (hi : inner.Regular) (hw : inner.Within outer)
    (p : ℤ × ℤ) (layer : Layer) :
    layers p ((Region.strips inner outer).map fun r => ⟨layer,r⟩) =
      if outer.Contains p ∧ ¬ inner.Contains p then [layer] else [] := by
  rw [List.map_eq_flatMap,layers_flatMap]
  exact Region.flatMap_strips hi hw fun r _ => layers_single p ⟨layer,r⟩

theorem opacity_lt_iff (opacity : Fin 256) : opacity < 0xff ↔ opacity ≠ 0xff :=
  Fin.lt_last_iff_ne_last

/-- Below a window with an opaque region `inner`, only what is around that is drawn, unless
the window is blended as a whole. -/
theorem layers_below (blended : Bool)
    (ih : ∀ r : Region, r.Regular → layers p (updateRegion below r) =
      if r.Contains p then painterFrom below p else [])
    (ho : outer.Regular) (hi : inner.Regular) (hw : inner.Within outer) :
    layers p (if blended then updateRegion below outer
      else (Region.strips inner outer).flatMap (updateRegion below)) =
      if outer.Contains p ∧ (blended ∨ ¬ inner.Contains p) then painterFrom below p else [] := by
  cases blended with
  | true => simp [ih outer ho]
  | false =>
    have hstrips := Region.flatMap_strips hi hw (p := p) ih
    simpa [layers_flatMap] using hstrips

theorem layers_updateRegion_translucent (hlow : layers p (updateRegion below outer) =
      if outer.Contains p then painterFrom below p else [])
    (hcovers : Covers w p ↔ w.area.Contains p)
    (hmem : region.Contains p ↔ outer.Contains p ∧ w.area.Contains p)
    (hin : region.Contains p → ¬ InOpaqueRegion w p) (hhides : region.Contains p → ¬ Hides w p) :
    layers p (updateRegion below outer++[⟨.window below.length true,region⟩]) =
      if outer.Contains p then painterFrom (w::below) p else [] := by
  rw [layers_append,layers_single,hlow]
  by_cases hp : outer.Contains p
  · by_cases ha : w.area.Contains p
    · have hr : region.Contains p := hmem.mpr ⟨hp,ha⟩
      simp [painterFrom,hp,hr,hhides hr,hcovers.mpr ha,drawn,hin hr]
    · have hr : ¬ region.Contains p := fun hr => ha (hmem.mp hr).2
      have hc : ¬ Covers w p := hcovers.not.mpr ha
      have hh : ¬ Hides w p := fun h => hc h.1
      simp [painterFrom,hp,hr,hc,hh]
  · have hr : ¬ region.Contains p := fun hr => hp (hmem.mp hr).1
    simp [hp,hr]

theorem layers_updateRegion_opaque
    (ih : ∀ r : Region, r.Regular → layers p (updateRegion below r) =
      if r.Contains p then painterFrom below p else [])
    (ho : outer.Regular) (hi : inner.Regular) (hrw : region.Within outer)
    (hiw : inner.Within region) (hpart : w.partlyOpaque)
    (hcovers : Covers w p ↔ w.area.Contains p)
    (hmem : region.Contains p ↔ outer.Contains p ∧ w.area.Contains p)
    (hinner : inner.Contains p ↔ w.opaqueArea.Contains p ∧ region.Contains p) :
    layers p ((if decide (w.opacity < 0xff) || w.options.colorKeying then updateRegion below outer
      else (Region.strips inner outer).flatMap (updateRegion below))++
      (Region.strips inner region).map (fun r => ⟨.window below.length true,r⟩)++
      [⟨.window below.length false,inner⟩]) =
      if outer.Contains p then painterFrom (w::below) p else [] := by
  have hin : InOpaqueRegion w p ↔ w.opaqueArea.Contains p := by simp [InOpaqueRegion,hpart]
  have halpha : w.options.alphaChannel := by
    simp only [Window.partlyOpaque,Bool.and_eq_true] at hpart
    exact hpart.1
  have hhides : Hides w p ↔ w.area.Contains p ∧ w.opaqueArea.Contains p ∧
      ¬ (decide (w.opacity < 0xff) || w.options.colorKeying) := by
    simp only [Hides,hcovers,halpha,hin,opacity_lt_iff]
    simp only [Bool.not_eq_true',true_imp_iff,Bool.or_eq_true,decide_eq_true_eq,not_or,not_not,
      Bool.not_eq_true]
    tauto
  rw [layers_append,layers_append,layers_single,layers_strips hi hiw,
    layers_below _ ih ho hi (hiw.trans hrw)]
  by_cases hp : outer.Contains p
  · by_cases ha : w.area.Contains p
    · have hr : region.Contains p := hmem.mpr ⟨hp,ha⟩
      by_cases hop : w.opaqueArea.Contains p
      · have hinn : inner.Contains p := hinner.mpr ⟨hop,hr⟩
        by_cases hb : decide (w.opacity < 0xff) || w.options.colorKeying
        · have hh : ¬ Hides w p := fun h => (hhides.mp h).2.2 hb
          simp [painterFrom,hp,hr,hinn,hb,hh,hcovers.mpr ha,drawn,hin.mpr hop]
        · have hh : Hides w p := hhides.mpr ⟨ha,hop,hb⟩
          simp [painterFrom,hp,hr,hinn,hb,hh,drawn,hin.mpr hop]
      · have hinn : ¬ inner.Contains p := fun h => hop (hinner.mp h).1
        have hh : ¬ Hides w p := fun h => hop (hhides.mp h).2.1
        simp [painterFrom,hp,hr,hinn,hh,hcovers.mpr ha,drawn,hin.not.mpr hop]
    · have hr : ¬ region.Contains p := fun hr => ha (hmem.mp hr).2
      have hinn : ¬ inner.Contains p := fun h => hr (hinner.mp h).2
      have hc : ¬ Covers w p := hcovers.not.mpr ha
      have hh : ¬ Hides w p := fun h => hc h.1
      simp [painterFrom,hp,hr,hinn,hc,hh]
  · have hr : ¬ region.Contains p := fun hr => hp (hmem.mp hr).1
    have hinn : ¬ inner.Contains p := fun h => hr (hinner.mp h).2
    simp [hp,hr,hinn]

theorem layers_updateRegion_whole
    (ih : ∀ r : Region, r.Regular → layers p (updateRegion below r) =
      if r.Contains p then painterFrom below p else [])
    (ho : outer.Regular) (hr : region.Regular) (hrw : region.Within outer)
    (hpart : ¬ w.partlyOpaque) (hcovers : Covers w p ↔ w.area.Contains p)
    (hmem : region.Contains p ↔ outer.Contains p ∧ w.area.Contains p) :
    layers p ((if w.translucent then updateRegion below outer
      else (Region.strips region outer).flatMap (updateRegion below))++
      [⟨.window below.length true,region⟩]) =
      if outer.Contains p then painterFrom (w::below) p else [] := by
  have hin : ¬ InOpaqueRegion w p := fun h => hpart h.1
  have hhides : Hides w p ↔ w.area.Contains p ∧ ¬ w.translucent := by
    simp only [Hides,hcovers,hin,Window.translucent,Bool.or_eq_true,decide_eq_true_eq,
      opacity_lt_iff]
    cases w.options.alphaChannel <;> cases w.options.colorKeying <;> simp
  rw [layers_append,layers_single,layers_below _ ih ho hr hrw]
  by_cases hp : outer.Contains p
  · by_cases ha : w.area.Contains p
    · have hreg : region.Contains p := hmem.mpr ⟨hp,ha⟩
      by_cases ht : w.translucent
      · have hh : ¬ Hides w p := fun h => (hhides.mp h).2 ht
        simp [painterFrom,hp,hreg,ht,hh,hcovers.mpr ha,drawn,hin]
      · have hh : Hides w p := hhides.mpr ⟨ha,ht⟩
        simp [painterFrom,hp,hreg,ht,hh,drawn,hin]
    · have hreg : ¬ region.Contains p := fun h => ha (hmem.mp h).2
      have hc : ¬ Covers w p := hcovers.not.mpr ha
      have hh : ¬ Hides w p := fun h => hc h.1
      simp [painterFrom,hp,hreg,hc,hh]
  · have hreg : ¬ region.Contains p := fun h => hp (hmem.mp h).1
    simp [hp,hreg]

/-- What `update_region` draws over a pixel. -/
theorem layers_updateRegion (l : List Window) (p : ℤ × ℤ)
    (ho : outer.Regular) : layers p (updateRegion l outer) =
      if outer.Contains p then painterFrom l p else [] := by
  induction l generalizing outer with
  | nil => rw [updateRegion,layers_single,painterFrom]
  | cons w below ih =>
    by_cases hvis : w.visible
    · have hcovers : Covers w p ↔ w.area.Contains p := by simp [Covers,hvis]
      rw [updateRegion,if_pos hvis]
      split
      next hnone =>
        by_cases hp : outer.Contains p
        · have hn : ¬ Covers w p := hcovers.not.mpr (Region.not_contains_of_intersect hnone hp)
          have hh : ¬ Hides w p := fun h => hn h.1
          rw [ih ho,painterFrom,if_neg hh,if_neg hn]
        · rw [ih ho,if_neg hp,if_neg hp]
      next region hregion =>
        have hr : region.Regular := ho.intersect (Region.fromRectangle_regular _) hregion
        have hrw : region.Within outer := (Region.intersect_within hregion).1
        have hmem := Region.intersect_contains hregion p
        split
        next hpart =>
          split
          next hnone =>
            have hin : region.Contains p → ¬ InOpaqueRegion w p := fun hp hop =>
              Region.not_contains_of_intersect hnone hop.2 hp
            have halpha : w.options.alphaChannel := by
              simp only [Window.partlyOpaque,Bool.and_eq_true] at hpart
              exact hpart.1
            exact layers_updateRegion_translucent (ih ho) hcovers hmem hin
              fun hp hh => hin hp (hh.2.2.2 halpha)
          next inner hinner =>
            have hi : inner.Regular :=
              (w.opaqueRegion.valid.translated _ _).regular.intersect hr hinner
            exact layers_updateRegion_opaque (fun r hr => ih hr) ho hi hrw
              (Region.intersect_within hinner).2 hpart hcovers hmem
              (Region.intersect_contains hinner p)
        next hpart =>
          exact layers_updateRegion_whole (fun r hr => ih hr) ho hr hrw hpart hcovers hmem
    · have hn : ¬ Covers w p := fun h => hvis h.1
      have hh : ¬ Hides w p := fun h => hn h.1
      rw [updateRegion,if_neg hvis,ih ho,painterFrom,if_neg hh,if_neg hn]

theorem getElem?_reverse_cons (w : Window) (below : List Window) (i : ℕ) :
    (w::below).reverse[i]? = if i = below.length then some w else below.reverse[i]? := by
  rw [List.reverse_cons,List.getElem?_append,List.length_reverse]
  by_cases hlt : i < below.length
  · rw [if_pos hlt,if_neg hlt.ne]
  · by_cases heq : i = below.length
    · simp [heq]
    · rw [if_neg hlt,if_neg heq,List.getElem?_singleton,if_neg (by omega),
        List.getElem?_eq_none (by simp; omega)]

/-- A window above the one at index `i` has a fully opaque part at the pixel. -/
def Hidden (l : List Window) (i : ℕ) (p : ℤ × ℤ) : Prop :=
  ∃ j v, i < j ∧ l.reverse[j]? = some v ∧ Hides v p

theorem hidden_cons
    (hi : i < below.length) : Hidden (w::below) i p ↔ Hides w p ∨ Hidden below i p := by
  constructor
  · rintro ⟨j,v,hij,hv,hh⟩
    rw [getElem?_reverse_cons] at hv
    split_ifs at hv with hj
    · obtain rfl := Option.some.inj hv
      exact .inl hh
    · exact .inr ⟨j,v,hij,hv,hh⟩
  · rintro (hh | ⟨j,v,hij,hv,hh⟩)
    · exact ⟨below.length,w,hi,by simp,hh⟩
    · have hj : j < below.length := by simpa using (List.getElem?_eq_some_iff.mp hv).1
      refine ⟨j,v,hij,?_,hh⟩
      rw [getElem?_reverse_cons,if_neg hj.ne]
      exact hv

/-- Each layer is the background, or a window over the pixel. -/
theorem mem_painterFrom {a : Layer} (h : a ∈ painterFrom l p) :
    a = .background ∨ ∃ i w, l.reverse[i]? = some w ∧ Covers w p ∧ a = drawn w i p := by
  induction l with
  | nil => exact .inl (by simpa [painterFrom] using h)
  | cons w below ih =>
    have htop : Covers w p → a = drawn w below.length p → a = .background ∨
        ∃ i v, (w::below).reverse[i]? = some v ∧ Covers v p ∧ a = drawn v i p :=
      fun hc ha => .inr ⟨below.length,w,by simp,hc,ha⟩
    have hlow : a ∈ painterFrom below p → a = .background ∨
        ∃ i v, (w::below).reverse[i]? = some v ∧ Covers v p ∧ a = drawn v i p := by
      intro ha
      rcases ih ha with rfl | ⟨i,v,hv,hc,rfl⟩
      · exact .inl rfl
      · have hi : i < below.length := by simpa using (List.getElem?_eq_some_iff.mp hv).1
        refine .inr ⟨i,v,?_,hc,rfl⟩
        rw [getElem?_reverse_cons,if_neg hi.ne]
        exact hv
    rw [painterFrom] at h
    split_ifs at h with hh hc
    · exact htop hh.1 (List.mem_singleton.mp h)
    · rcases List.mem_append.mp h with h | h
      · exact hlow h
      · exact htop hc (List.mem_singleton.mp h)
    · exact hlow h

@[simp] theorem index?_background : Layer.background.index? = none := rfl

@[simp] theorem index?_drawn (w : Window) (i : ℕ) (p : ℤ × ℤ) : (drawn w i p).index? = some i :=
  rfl

/-- How often the window at index `i` is drawn. -/
def timesDrawn (i : ℕ) (l : List Layer) : ℕ := l.countP fun a => a.index? = some i

theorem timesDrawn_of_length_le (hi : l.length ≤ i) (p : ℤ × ℤ) :
    timesDrawn i (painterFrom l p) = 0 := by
  rw [timesDrawn,List.countP_eq_zero]
  intro a ha
  rcases mem_painterFrom ha with rfl | ⟨j,u,hu,-,rfl⟩
  · simp
  · have hj := (List.getElem?_eq_some_iff.mp hu).1
    simp only [List.length_reverse] at hj
    simp only [index?_drawn,Option.some.injEq,decide_eq_true_eq]
    omega

theorem timesDrawn_append (i : ℕ) (l m : List Layer) :
    timesDrawn i (l++m) = timesDrawn i l+timesDrawn i m := List.countP_append

theorem timesDrawn_drawn (i j : ℕ) (w : Window) (p : ℤ × ℤ) :
    timesDrawn i [drawn w j p] = if i = j then 1 else 0 := by
  simp [timesDrawn,List.countP_singleton,eq_comm]

/-- How often the window at an index is drawn over a pixel. -/
theorem timesDrawn_painterFrom
    (hw : l.reverse[i]? = some w) (p : ℤ × ℤ) :
    (Covers w p → ¬ Hidden l i p → timesDrawn i (painterFrom l p) = 1) ∧
    (¬ Covers w p ∨ Hidden l i p → timesDrawn i (painterFrom l p) = 0) := by
  induction l with
  | nil => simp at hw
  | cons v below ih =>
    rw [getElem?_reverse_cons] at hw
    by_cases hi : i = below.length
    · subst hi
      obtain rfl : v = w := by simpa using hw
      have hvis : ¬ Hidden (v::below) below.length p := by
        rintro ⟨j,u,hij,hu,-⟩
        have hj := (List.getElem?_eq_some_iff.mp hu).1
        simp only [List.length_reverse,List.length_cons] at hj
        omega
      have hzero := timesDrawn_of_length_le (le_refl below.length) p
      by_cases hc : Covers v p
      · by_cases hh : Hides v p
        · simp [painterFrom,hh,hc,hvis,timesDrawn_drawn]
        · simp [painterFrom,hh,hc,hvis,timesDrawn_append,timesDrawn_drawn,hzero]
      · have hh : ¬ Hides v p := fun h => hc h.1
        simp [painterFrom,hh,hc,hzero]
    · rw [if_neg hi] at hw
      have hlen : i < below.length := by simpa using (List.getElem?_eq_some_iff.mp hw).1
      have hhid := hidden_cons (w := v) (p := p) hlen
      by_cases hh : Hides v p
      · simp [painterFrom,hh,hhid,timesDrawn_drawn,hi]
      · by_cases hc : Covers v p
        · simpa [painterFrom,hh,hc,hhid,timesDrawn_append,timesDrawn_drawn,hi] using ih hw
        · simpa [painterFrom,hh,hc,hhid] using ih hw

section Painting
variable {π : Type*}

def Meaning (l : List Window) (paint : Layer → π → π) : Prop :=
  ∀ i w alphaChannel, l.reverse[i]? = some w → Overwrites w alphaChannel →
    ∀ s s', paint (.window i alphaChannel) s = paint (.window i alphaChannel) s'

def painted (paint : Layer → π → π) (s : π) (l : List Layer) : π :=
  l.foldl (fun s a => paint a s) s

@[simp] theorem painted_append (paint : Layer → π → π) (s : π) (l m : List Layer) :
    painted paint s (l++m) = painted paint (painted paint s l) m :=
  List.foldl_append

theorem overwrites_of_hides {w : Window} {p : ℤ × ℤ} (h : Hides w p) :
    Overwrites w (!decide (InOpaqueRegion w p)) := by
  obtain ⟨-,hop,hkey,halpha⟩ := h
  refine ⟨hop,hkey,?_⟩
  by_cases ha : w.options.alphaChannel
  · simp [halpha ha]
  · simp [ha]

/-- What is hidden makes no difference. -/
theorem painted_painterFrom {l : List Window} {paint : Layer → π → π} (hm : Meaning l paint)
    (s : π) (p : ℤ × ℤ) : painted paint s (painterFrom l p) = painted paint s (painter l p) := by
  induction l with
  | nil => rfl
  | cons w below ih =>
    have hbelow : Meaning below paint := by
      intro i v a hv ho
      have hi : i < below.length := by simpa using (List.getElem?_eq_some_iff.mp hv).1
      refine hm i v a ?_ ho
      rw [getElem?_reverse_cons,if_neg hi.ne]
      exact hv
    by_cases hh : Hides w p
    · have htop : (w::below).reverse[below.length]? = some w := by
        simp
      rw [painterFrom,if_pos hh,painter,if_pos hh.1,painted_append]
      exact hm _ w _ htop (overwrites_of_hides hh) _ _
    · by_cases hc : Covers w p
      · rw [painterFrom,if_neg hh,if_pos hc,painter,if_pos hc,painted_append,painted_append,
          ih hbelow]
      · rw [painterFrom,if_neg hh,if_neg hc,painter,if_neg hc,ih hbelow]

end Painting

/-- The draws are the painter's algorithm on a region, as far as it can be seen. -/
structure Composes (l : List Window) (outer : Region) (draws : List Draw) : Prop where
  painter : ∀ p, outer.Contains p → ∀ {π : Type} (paint : Layer → π → π), Meaning l paint →
    ∀ s, painted paint s (layers p draws) = painted paint s (painter l p)
  once : ∀ p, outer.Contains p → ∀ i w, l.reverse[i]? = some w → Covers w p → ¬ Hidden l i p →
    timesDrawn i (layers p draws) = 1
  inside : ∀ d ∈ draws, ∀ p, d.region.Contains p → outer.Contains p ∧
    ∀ i alphaChannel, d.layer = .window i alphaChannel → ∃ w, l.reverse[i]? = some w ∧ Covers w p

theorem mem_layers {draws : List Draw} {d : Draw} (hd : d ∈ draws)
    (hp : d.region.Contains p) : d.layer ∈ layers p draws :=
  List.mem_filterMap.mpr ⟨d,hd,if_pos hp⟩

/-- `update_region` composes any region of the windows from `start` down. -/
theorem update_region_composes (l : List Window) (outer : Region) (ho : outer.Valid) :
    Composes l outer (updateRegion l outer) where
  painter p hp π paint hm s := by
    rw [layers_updateRegion l p ho.regular,if_pos hp]
    exact painted_painterFrom hm s p
  once p hp i w hw hc hh := by
    rw [layers_updateRegion l p ho.regular,if_pos hp]
    exact (timesDrawn_painterFrom hw p).1 hc hh
  inside d hd p hdp := by
    have hmem := mem_layers hd hdp
    rw [layers_updateRegion l p ho.regular] at hmem
    split_ifs at hmem with hp
    · refine ⟨hp,fun i alphaChannel hlayer => ?_⟩
      rcases mem_painterFrom hmem with hbg | ⟨j,w,hw,hc,hdrawn⟩
      · rw [hlayer] at hbg
        cases hbg
      · rw [hlayer] at hdrawn
        obtain rfl : i = j := (Layer.window.inj hdrawn).1
        exact ⟨w,hw,hc⟩
    · simp at hmem

def dialog : Window where
  inputOnly := false
  destroyed := false
  bounds := ⟨2,2,6,6,by decide,by decide⟩
  opacity := 0xff
  options := {alphaChannel := true, opaqueRegion := true}
  opaqueRegion := ⟨⟨1,1,4,9⟩,⟨by decide,by decide⟩⟩
  rotation := .r0

def desktop : Window :=
  {dialog with bounds := ⟨0,0,9,5,by decide,by decide⟩, options := {}}

/-- Below the opaque region, which is cut at the edge of its window, nothing is drawn. -/
theorem dialog_composes : (⟨3,3,6,9⟩ : Region).Valid ∧
    Composes [dialog,desktop] ⟨3,3,6,9⟩ (updateRegion [dialog,desktop] ⟨3,3,6,9⟩) ∧
    updateRegion [dialog,desktop] ⟨3,3,6,9⟩ =
      [⟨.background,⟨3,8,6,9⟩⟩,⟨.window 1 false,⟨3,3,6,7⟩⟩] :=
  ⟨⟨by decide,by decide⟩,update_region_composes _ _ ⟨by decide,by decide⟩,by decide⟩

end UpdateRegion
end DirectFB
