import DirectFB.SaWManTier

/-! How a region of a tier is composed from the bottom up, with lists of what is visible of
each window and a region that is not drawn yet. -/
set_option linter.unusedSectionVars false
namespace DirectFB.SaWMan

/-- `DFBBox`, whose last column and row are outside of it. -/
structure Box where
  x1 : ℤ
  y1 : ℤ
  x2 : ℤ
  y2 : ℤ

def Box.region (b : Box) : Region := ⟨b.x1,b.y1,b.x2-1,b.y2-1⟩

/-- The operations on a `misc_region_t`, which are exact on sets of pixels, with boxes that
do not overlap. -/
structure MiscRegions (ρ : Type*) where
  contains : ρ → ℤ × ℤ → Bool
  initWithExtents : Box → ρ
  initUpdates : List Region → ρ
  intersect : ρ → ρ → ρ
  subtract : ρ → ρ → ρ
  boxes : ρ → List Box
  initWithExtents_contains : ∀ b p, contains (initWithExtents b) p ↔ b.region.Contains p
  initUpdates_contains : ∀ l p, contains (initUpdates l) p ↔ ∃ r ∈ l, r.Contains p
  intersect_contains : ∀ a b p, contains (intersect a b) p = (contains a p && contains b p)
  subtract_contains : ∀ a b p, contains (subtract a b) p = (contains a p && !contains b p)
  boxes_contains : ∀ a p, (∃ b ∈ boxes a, b.region.Contains p) ↔ contains a p
  boxes_disjoint : ∀ a, (boxes a).Pairwise fun b c => ∀ p, b.region.Contains p →
    ¬ c.region.Contains p

variable {ω : Type*}

namespace UpdateRegion2
variable {ρ : Type*} [DecidableEq ω] (regions : MiscRegions ρ) (borders : Borders) (tier : Tier)
  (bg : Background) (s : Windows ω)

def drawBoxes (layer : Layer ω) (region : ρ) : List (Draw ω) :=
  (regions.boxes region).map fun b => ⟨layer,b.region⟩

/-- The calls for one window, with `render` and `opt`. -/
def drawVisible (w : ω) (render opt : ρ) : List (Draw ω) :=
  if optimized bg (s w) then
    drawBoxes regions (.window w false) opt++
      drawBoxes regions (.window w true) (regions.subtract render opt)
  else drawBoxes regions .background opt++drawBoxes regions (.window w true) render

/-- The loop of `update_region2`, from a window up. -/
def composeFrom (visible : ω → List Region) (extents : Box) : List ω → ρ → List (Draw ω)
  | [], dirty => drawBoxes regions .background dirty
  | w::above, dirty =>
    if Shown borders tier s w then
      let render := regions.intersect (regions.initUpdates (visible w))
        (regions.initWithExtents extents)
      let opt := regions.intersect render dirty
      drawVisible regions bg s w render opt++
        composeFrom visible extents above (regions.subtract dirty render)
    else composeFrom visible extents above dirty

/-- `update_region2`, on a layout from the bottom to the top. -/
def updateRegion2 (visible : ω → List Region) (layout : List ω) (region : Region) : List (Draw ω) :=
  if region.x1 > region.x2 ∨ region.y1 > region.y2 then []
  else
    let extents : Box := ⟨region.x1,region.y1,region.x2+1,region.y2+1⟩
    composeFrom regions borders tier bg s visible extents layout (regions.initWithExtents extents)

def Listed (visible : ω → List Region) (p : ℤ × ℤ) (w : ω) : Prop :=
  ∃ r ∈ visible w, r.Contains p

instance (visible : ω → List Region) (p : ℤ × ℤ) : DecidablePred (Listed visible p) :=
  fun w => inferInstanceAs (Decidable (∃ r ∈ visible w, r.Contains p))

variable (eye : Eye)

def drawnOf (p : ℤ × ℤ) (w : ω) (dirty : Bool) : List (Layer ω) :=
  let shown := fun alphaChannel : Bool =>
    if ((s w).dstArea eye).Contains p then [Layer.window w alphaChannel] else []
  if optimized bg (s w) then shown !dirty
  else (if dirty then [.background] else [])++shown true

def drawnFrom (visible : ω → List Region) (p : ℤ × ℤ) : List ω → Bool → List (Layer ω)
  | [], dirty => if dirty then [.background] else []
  | w::above, dirty =>
    if Shown borders tier s w ∧ Listed visible p w then
      drawnOf bg s eye p w dirty++drawnFrom visible p above false
    else drawnFrom visible p above dirty

variable {regions borders tier bg s eye}

theorem layers_drawBoxes (p : ℤ × ℤ) (layer : Layer ω) (region : ρ) :
    layers borders s eye p (drawBoxes regions layer region) =
      if regions.contains region p ∧ Reaches borders s eye layer p then [layer] else [] := by
  have hboxes : ∀ l : List Box, l.Pairwise (fun b c => ∀ p, b.region.Contains p →
      ¬ c.region.Contains p) → layers borders s eye p (l.map fun b => ⟨layer,b.region⟩) =
        if (∃ b ∈ l, b.region.Contains p) ∧ Reaches borders s eye layer p then [layer] else [] := by
    intro l hl
    induction l with
    | nil => simp [layers]
    | cons b l ih =>
      obtain ⟨hb,hl⟩ := List.pairwise_cons.mp hl
      rw [List.map_cons,← List.singleton_append,layers_append,layers_single,ih hl]
      by_cases hp : b.region.Contains p
      · have hnot : ¬ ∃ c ∈ l, c.region.Contains p := fun h => h.elim fun c h => hb c h.1 p hp h.2
        simp [hp,hnot]
      · simp [hp]
  rw [drawBoxes,hboxes _ (regions.boxes_disjoint region)]
  exact if_congr (and_congr_left fun _ => regions.boxes_contains region p) rfl rfl

theorem layers_drawVisible {p : ℤ × ℤ} {w : ω} (hreach : ∀ a,
    Reaches borders s eye (.window w a) p ↔ ((s w).dstArea eye).Contains p) (render opt : ρ) :
    layers borders s eye p (drawVisible regions bg s w render opt) =
      if optimized bg (s w) then
        (if regions.contains opt p ∧ ((s w).dstArea eye).Contains p then
          [.window w false] else [])++
        (if (regions.contains render p && !regions.contains opt p) ∧
          ((s w).dstArea eye).Contains p then [.window w true] else [])
      else (if regions.contains opt p then [.background] else [])++
        (if regions.contains render p ∧ ((s w).dstArea eye).Contains p then
          [.window w true] else []) := by
  unfold drawVisible
  by_cases ho : optimized bg (s w)
  · rw [if_pos ho,if_pos ho,layers_append,layers_drawBoxes,layers_drawBoxes,
      regions.subtract_contains]
    simp only [hreach]
  · rw [if_neg ho,if_neg ho,layers_append,layers_drawBoxes,layers_drawBoxes]
    simp only [hreach,reaches_background,and_true]

theorem layers_composeFrom {visible : ω → List Region} {extents : Box} {l : List ω}
    (hb : ∀ w ∈ l, (s w).border borders = 0) {p : ℤ × ℤ} (hp : extents.region.Contains p)
    (dirty : ρ) : layers borders s eye p
      (composeFrom regions borders tier bg s visible extents l dirty) =
      drawnFrom borders tier bg s eye visible p l (regions.contains dirty p) := by
  induction l generalizing dirty with
  | nil =>
    rw [composeFrom,layers_drawBoxes,drawnFrom]
    exact if_congr ⟨And.left,fun h => ⟨h,trivial⟩⟩ rfl rfl
  | cons w above ih =>
    have ih := ih fun v hv => hb v (List.mem_cons_of_mem w hv)
    rw [composeFrom,drawnFrom]
    by_cases hs : Shown borders tier s w
    · have hborder := hb w List.mem_cons_self
      have hreach : ∀ a, Reaches borders s eye (.window w a) p ↔ ((s w).dstArea eye).Contains p :=
        fun a => reaches_window hborder (input_of_visible hborder hs.1) a p
      have hlist : regions.contains (regions.intersect (regions.initUpdates (visible w))
          (regions.initWithExtents extents)) p = decide (Listed visible p w) := by
        rw [Bool.eq_iff_iff,regions.intersect_contains,Bool.and_eq_true,
          regions.initUpdates_contains,regions.initWithExtents_contains,decide_eq_true_eq]
        exact ⟨And.left,fun h => ⟨h,hp⟩⟩
      rw [if_pos hs,layers_append,ih,regions.subtract_contains,hlist]
      rw [layers_drawVisible hreach,regions.intersect_contains,hlist]
      by_cases hl : Listed visible p w
      · cases regions.contains dirty p <;> simp [hs,hl,drawnOf]
      · simp [hl]
    · rw [if_neg hs,ih,if_neg fun h => hs h.1]

/-- The lists of visible regions have what is needed to compose a region, and no more than the
bounds of a window. -/
structure Complete (borders : Borders) (tier : Tier) (s : Windows ω) (eye : Eye)
    (layout : List ω) (region : Region) (visible : ω → List Region) : Prop where
  within : ∀ w ∈ layout, ∀ p, Listed visible p w → ((s w).boundsArea eye).Contains p
  complete : ∀ below w above, layout = below++w::above → Shown borders tier s w → ∀ p,
    region.Contains p → ((s w).boundsArea eye).Contains p →
    (∀ v ∈ above, Covers borders tier s eye v p → (s v).translucent) → Listed visible p w

def Begun (borders : Borders) (tier : Tier) (bg : Background) (s : Windows ω) (eye : Eye)
    (layout : List ω) (p : ℤ × ℤ) : Prop :=
  (∃ w ∈ layout, Hides borders tier s eye w p) ∨
    ∀ w, layout.find? (Found borders tier s eye p) = some w → optimized bg (s w) →
      ((s w).dstArea eye).Contains p

/-- Over what is drawn already, all windows are drawn that cover the pixel, if they are listed
there. -/
theorem drawnFrom_clean {visible : ω → List Region} {p : ℤ × ℤ} {l : List ω}
    (hb : ∀ w ∈ l, (s w).border borders = 0)
    (hl : ∀ w ∈ l, Covers borders tier s eye w p → Listed visible p w) :
    drawnFrom borders tier bg s eye visible p l false = covering borders tier s eye l p := by
  induction l with
  | nil => rfl
  | cons w above ih =>
    have hcov : Covers borders tier s eye w p ↔
        Shown borders tier s w ∧ ((s w).dstArea eye).Contains p :=
      covers_iff (hb w List.mem_cons_self)
    have hw := hl w List.mem_cons_self
    rw [drawnFrom,covering_cons,ih (fun v hv => hb v (List.mem_cons_of_mem w hv))
      (fun v hv => hl v (List.mem_cons_of_mem w hv))]
    by_cases hs : Shown borders tier s w ∧ Listed visible p w
    · by_cases hd : ((s w).dstArea eye).Contains p
      · simp [hs,hd,hcov,drawnOf]
      · simp [hs,hd,hcov,drawnOf]
    · have hc : ¬ Covers borders tier s eye w p := fun h => hs ⟨h.1,hw h⟩
      simp [hs,hc]

theorem drawnFrom_append (visible : ω → List Region) (p : ℤ × ℤ) (below rest : List ω)
    (dirty : Bool) : ∃ before dirty', drawnFrom borders tier bg s eye visible p (below++rest) dirty =
      before++drawnFrom borders tier bg s eye visible p rest dirty' := by
  induction below generalizing dirty with
  | nil => exact ⟨[],dirty,rfl⟩
  | cons w below ih =>
    rw [List.cons_append,drawnFrom]
    split_ifs
    · obtain ⟨before,dirty',h⟩ := ih false
      exact ⟨drawnOf bg s eye p w dirty++before,dirty',by rw [h,List.append_assoc]⟩
    · exact ih dirty

theorem exists_last {α : Type*} {P : α → Prop} {l : List α} (h : ∃ a ∈ l, P a) :
    ∃ below a above, l = below++a::above ∧ P a ∧ ∀ b ∈ above, ¬ P b := by
  induction l with
  | nil =>
    obtain ⟨a,ha,-⟩ := h
    cases ha
  | cons a l ih =>
    by_cases hl : ∃ b ∈ l, P b
    · obtain ⟨below,b,above,rfl,hb⟩ := ih hl
      exact ⟨a::below,b,above,rfl,hb⟩
    · obtain ⟨b,hb,hP⟩ := h
      obtain rfl | hb := List.mem_cons.mp hb
      · exact ⟨[],b,l,rfl,hP,fun c hc hPc => hl ⟨c,hc,hPc⟩⟩
      · exact absurd ⟨b,hb,hP⟩ hl

section Picture
variable {π : Type*} {visible : ω → List Region} {p : ℤ × ℤ} {l : List ω} {region : Region}

theorem painted_hidden {paint : Layer ω → π → π} (hm : Meaning s eye p paint)
    (hb : ∀ w ∈ l, (s w).border borders = 0)
    (hl : Complete borders tier s eye l region visible) (hp : region.Contains p)
    (h : ∃ w ∈ l, Hides borders tier s eye w p) (dirty : Bool) (x : π) :
    painted paint x (drawnFrom borders tier bg s eye visible p l dirty) =
      painted paint x (painter borders tier s eye l.reverse p) := by
  obtain ⟨below,w,above,rfl,hw,habove⟩ := exists_last h
  have htop : ∀ v ∈ above, Covers borders tier s eye v p → (s v).translucent := by
    intro v hv hc
    by_contra hn
    exact habove v hv (hides_of_not_translucent hc (by simpa using hn))
  have hbounds : ∀ v, Covers borders tier s eye v p → ((s v).boundsArea eye).Contains p :=
    fun v hc => (Window.dstArea_within eye (s v)).contains hc.2.2
  have hlisted := hl.complete below w above rfl hw.1.1 p hp (hbounds w hw.1) htop
  have hclean : drawnFrom borders tier bg s eye visible p above false =
      covering borders tier s eye above p := by
    refine drawnFrom_clean (fun v hv => hb v (by simp [hv])) fun v hv hc => ?_
    obtain ⟨low,high,rfl⟩ := List.mem_iff_append.mp hv
    exact hl.complete (below++w::low) v high (by simp) hc.1 p hp (hbounds v hc)
      fun u hu => htop u (by simp [hu])
  have hsplit : ∃ before dirty', drawnFrom borders tier bg s eye visible p (below++w::above) dirty =
      before++drawnFrom borders tier bg s eye visible p (w::above) dirty' :=
    drawnFrom_append visible p below (w::above) dirty
  obtain ⟨before,dirty',hbefore⟩ := hsplit
  obtain ⟨first,a,hfirst⟩ : ∃ first a, drawnOf bg s eye p w dirty' = first++[.window w a] := by
    simp only [drawnOf,if_pos hw.1.2.2]
    split_ifs
    · exact ⟨[],!dirty',rfl⟩
    · exact ⟨[.background],true,rfl⟩
    · exact ⟨[],true,rfl⟩
  rw [hbefore,drawnFrom,if_pos ⟨hw.1.1,hlisted⟩,hclean,hfirst,painter_reverse,
    covering_append,covering_cons,if_pos hw.1,← List.cons_append,
    painted_append,painted_append,painted_append,painted_append]
  exact congrArg (painted paint · (covering borders tier s eye above p))
    (hm.paint_of_hides hw _ _ _ _)

theorem listed_iff (hl : Complete borders tier s eye l region visible) (hp : region.Contains p)
    (h : ¬ ∃ w ∈ l, Hides borders tier s eye w p) :
    ∀ w ∈ l, Shown borders tier s w → (Listed visible p w ↔ Found borders tier s eye p w) := by
  intro w hw hs
  refine ⟨fun hlist => ⟨hs,hl.within w hw p hlist⟩,fun hf => ?_⟩
  obtain ⟨below,above,rfl⟩ := List.mem_iff_append.mp hw
  refine hl.complete below w above rfl hs p hp hf.2 fun v hv hc => ?_
  by_contra hn
  exact h ⟨v,by simp [hv],hides_of_not_translucent hc (by simpa using hn)⟩

/-- What is drawn at a pixel, from the lowest window found there up. -/
theorem drawnFrom_found (hb : ∀ w ∈ l, (s w).border borders = 0)
    (hl : ∀ w ∈ l, Shown borders tier s w → (Listed visible p w ↔ Found borders tier s eye p w)) :
    drawnFrom borders tier bg s eye visible p l true =
      match l.find? (Found borders tier s eye p) with
      | none => [.background]
      | some w =>
        if optimized bg (s w) then
          if ((s w).dstArea eye).Contains p then
            .window w false::(covering borders tier s eye l p).tail
          else covering borders tier s eye l p
        else .background::covering borders tier s eye l p := by
  induction l with
  | nil => rfl
  | cons w above ih =>
    have hlist := hl w List.mem_cons_self
    have hcov : Covers borders tier s eye w p ↔
        Shown borders tier s w ∧ ((s w).dstArea eye).Contains p :=
      covers_iff (hb w List.mem_cons_self)
    have hbabove := fun v hv => hb v (List.mem_cons_of_mem w hv)
    have hlabove := fun v hv => hl v (List.mem_cons_of_mem w hv)
    by_cases hf : Found borders tier s eye p w
    · have hclean : drawnFrom borders tier bg s eye visible p above false =
          covering borders tier s eye above p :=
        drawnFrom_clean hbabove fun v hv hc => (hlabove v hv hc.1).mpr
          ⟨hc.1,(Window.dstArea_within eye (s v)).contains hc.2.2⟩
      rw [drawnFrom,if_pos ⟨hf.1,(hlist hf.1).mpr hf⟩,hclean,List.find?_cons,
        decide_eq_true hf,covering_cons]
      by_cases hd : ((s w).dstArea eye).Contains p
      · by_cases ho : optimized bg (s w) <;> simp [drawnOf,hd,ho,hcov,hf.1]
      · by_cases ho : optimized bg (s w) <;> simp [drawnOf,hd,ho,hcov]
    · have hn : ¬ (Shown borders tier s w ∧ Listed visible p w) :=
        fun h => hf ((hlist h.1).mp h.2)
      have hc : ¬ Covers borders tier s eye w p :=
        fun h => hf ⟨h.1,(Window.dstArea_within eye (s w)).contains h.2.2⟩
      rw [drawnFrom,if_neg hn,ih hbabove hlabove,List.find?_cons,decide_eq_false hf,
        covering_cons,if_neg hc]

theorem covering_found (hb : ∀ w ∈ l, (s w).border borders = 0) {w : ω}
    (h : l.find? (Found borders tier s eye p) = some w) (hd : ((s w).dstArea eye).Contains p) :
    covering borders tier s eye l p = .window w true::(covering borders tier s eye l p).tail := by
  induction l with
  | nil => cases h
  | cons v above ih =>
    rw [List.find?_cons] at h
    by_cases hf : Found borders tier s eye p v
    · rw [decide_eq_true hf] at h
      obtain rfl := Option.some.inj h
      rw [covering_cons,if_pos ((covers_iff (hb v List.mem_cons_self)).mpr ⟨hf.1,hd⟩),
        List.tail_cons]
    · have hc : ¬ Covers borders tier s eye v p :=
        fun h => hf ⟨h.1,(Window.dstArea_within eye (s v)).contains h.2.2⟩
      rw [decide_eq_false hf] at h
      rw [covering_cons,if_neg hc]
      exact ih (fun u hu => hb u (List.mem_cons_of_mem v hu)) h

/-- Where a pixel is begun with the background, or without blending over a zero one, the
picture is the painter's. -/
theorem painted_begun {paint : Layer ω → π → π} (hm : Blending bg s eye p paint)
    (hb : ∀ w ∈ l, (s w).border borders = 0)
    (hl : Complete borders tier s eye l region visible) (hp : region.Contains p)
    (h : Begun borders tier bg s eye l p) (x : π) :
    painted paint x (drawnFrom borders tier bg s eye visible p l true) =
      painted paint x (painter borders tier s eye l.reverse p) := by
  by_cases hhid : ∃ w ∈ l, Hides borders tier s eye w p
  · exact painted_hidden hm.toMeaning hb hl hp hhid true x
  have hbegun := h.resolve_left hhid
  rw [painter_reverse,drawnFrom_found hb (listed_iff hl hp hhid)]
  split
  next hnone =>
    have hempty : covering borders tier s eye l p = [] := by
      refine List.filterMap_eq_nil_iff.mpr fun w hw => if_neg fun hc => ?_
      have := List.find?_eq_none.mp hnone w hw
      exact this (decide_eq_true ⟨hc.1,(Window.dstArea_within eye (s w)).contains hc.2.2⟩)
    rw [hempty]
  next w hfound =>
    by_cases ho : optimized bg (s w)
    · have hd := hbegun w hfound ho
      have hcover := covering_found hb hfound hd
      obtain ⟨hz,hpre,hun⟩ := optimized_spec ho
      rw [if_pos ho,if_pos hd,hcover,List.tail_cons]
      exact congrArg (painted paint · (covering borders tier s eye l p).tail)
        (hm.premultiplied hz w hpre hun x x)
    · rw [if_neg ho]

/-- A pixel at which the lowest window is not drawn, though it might be without blending, does
not get the painter's picture. -/
theorem begun_of_painted (hb : ∀ w ∈ l, (s w).border borders = 0)
    (hl : Complete borders tier s eye l region visible) (hp : region.Contains p)
    (h : painted (mark s eye p) false (drawnFrom borders tier bg s eye visible p l true) =
      painted (mark s eye p) false (painter borders tier s eye l.reverse p)) :
    Begun borders tier bg s eye l p := by
  by_contra hn
  simp only [Begun,not_or,not_forall] at hn
  obtain ⟨hhid,w,hfound,ho,hd⟩ := hn
  rw [drawnFrom_found hb (listed_iff hl hp hhid),hfound] at h
  dsimp only at h
  rw [if_pos ho,if_neg hd,painted_mark_covering hhid,painter_reverse] at h
  exact absurd (h.trans (painted_mark_true _)) Bool.false_ne_true

/-- A window is drawn without blending its alpha channel only where nothing was drawn, and the
background is all zero. -/
theorem drawnFrom_unblended {w : ω} {dirty : Bool}
    (h : .window w false ∈ drawnFrom borders tier bg s eye visible p l dirty) :
    dirty ∧ optimized bg (s w) ∧
      (drawnFrom borders tier bg s eye visible p l dirty).head? = some (.window w false) := by
  induction l generalizing dirty with
  | nil =>
    rw [drawnFrom] at h
    split_ifs at h
    · simp at h
    · cases h
  | cons v above ih =>
    rw [drawnFrom] at h ⊢
    split_ifs at h ⊢ with hs
    · rcases List.mem_append.mp h with h | h
      · by_cases ho : optimized bg (s v)
        · by_cases hd : ((s v).dstArea eye).Contains p
          · simp only [drawnOf,ho,hd,if_true,List.mem_singleton,Layer.window.injEq] at h ⊢
            obtain ⟨rfl,hdirty⟩ := h
            cases dirty with
            | true => exact ⟨rfl,ho,rfl⟩
            | false => cases hdirty
          · simp [drawnOf,ho,hd] at h
        · by_cases hd : ((s v).dstArea eye).Contains p <;> cases dirty <;>
            simp [drawnOf,ho,hd] at h
      · exact absurd (ih h).1 Bool.false_ne_true
    · exact ih h

theorem contains_of_mem_drawBoxes {layer : Layer ω} {a : ρ} {d : Draw ω}
    (hd : d ∈ drawBoxes regions layer a) (hp : d.region.Contains p) : regions.contains a p := by
  obtain ⟨b,hb,rfl⟩ := List.mem_map.mp hd
  exact (regions.boxes_contains a p).mp ⟨b,hb,hp⟩

theorem composeFrom_inside {extents : Box} {dirty : ρ} {d : Draw ω}
    (hdirty : regions.contains dirty p → extents.region.Contains p)
    (hd : d ∈ composeFrom regions borders tier bg s visible extents l dirty)
    (hp : d.region.Contains p) : extents.region.Contains p := by
  induction l generalizing dirty with
  | nil => exact hdirty (contains_of_mem_drawBoxes hd hp)
  | cons w above ih =>
    rw [composeFrom] at hd
    split_ifs at hd
    · have hrender : regions.contains (regions.intersect (regions.initUpdates (visible w))
          (regions.initWithExtents extents)) p → extents.region.Contains p := by
        intro h
        rw [regions.intersect_contains,Bool.and_eq_true,regions.initWithExtents_contains] at h
        exact h.2
      rcases List.mem_append.mp hd with hd | hd
      · unfold drawVisible at hd
        split_ifs at hd <;> rcases List.mem_append.mp hd with hd | hd <;>
          have h := contains_of_mem_drawBoxes hd hp
        · rw [regions.intersect_contains,Bool.and_eq_true] at h
          exact hrender h.1
        · rw [regions.subtract_contains,Bool.and_eq_true] at h
          exact hrender h.1
        · rw [regions.intersect_contains,Bool.and_eq_true] at h
          exact hrender h.1
        · exact hrender h
      · refine ih (fun h => hdirty ?_) hd
        rw [regions.subtract_contains,Bool.and_eq_true] at h
        exact h.1
    · exact ih hdirty hd

end Picture

/-- The draws are the painter's algorithm on a region. Each pixel is drawn, and without
blending the alpha channel of a premultiplied window only where nothing was drawn yet. -/
structure Composes (borders : Borders) (tier : Tier) (bg : Background) (s : Windows ω)
    (eye : Eye) (layout : List ω) (region : Region) (draws : List (Draw ω)) : Prop where
  inside : ∀ d ∈ draws, ∀ p, d.region.Contains p → region.Contains p
  painter : ∀ p, region.Contains p → ∀ {π : Type} (paint : Layer ω → π → π),
    Blending bg s eye p paint → ∀ x, painted paint x (layers borders s eye p draws) =
      painted paint x (painter borders tier s eye layout.reverse p)
  unblended : ∀ p, region.Contains p → ∀ w, .window w false ∈ layers borders s eye p draws →
    optimized bg (s w) ∧ (layers borders s eye p draws).head? = some (.window w false)
  covered : ∀ p, region.Contains p → layers borders s eye p draws ≠ []

theorem box_region (r : Region) : (⟨r.x1,r.y1,r.x2+1,r.y2+1⟩ : Box).region = r := by
  simp [Box.region]

theorem layers_updateRegion2 {layout : List ω} (hb : ∀ w ∈ layout, (s w).border borders = 0)
    {region : Region} (hv : region.Valid) (visible : ω → List Region) {p : ℤ × ℤ}
    (hp : region.Contains p) : layers borders s eye p
      (updateRegion2 regions borders tier bg s visible layout region) =
      drawnFrom borders tier bg s eye visible p layout true := by
  have hempty : ¬ (region.x1 > region.x2 ∨ region.y1 > region.y2) := by
    have := hv.x
    have := hv.y
    omega
  have hextents := box_region region
  have hdirty : regions.contains
      (regions.initWithExtents ⟨region.x1,region.y1,region.x2+1,region.y2+1⟩) p = true := by
    rw [regions.initWithExtents_contains,hextents]
    exact hp
  rw [updateRegion2,if_neg hempty,layers_composeFrom hb (hextents.symm ▸ hp),hdirty]

/-- `update_region2` composes a region exactly if each of its pixels is hidden by a window, or
is drawn by the lowest window found there, if that may be drawn without blending. -/
theorem visible_lists_compose (regions : MiscRegions ρ) {layout : List ω}
    (hb : ∀ w ∈ layout, (s w).border borders = 0) {region : Region} (hv : region.Valid)
    {visible : ω → List Region} (hl : Complete borders tier s eye layout region visible) :
    Composes borders tier bg s eye layout region
      (updateRegion2 regions borders tier bg s visible layout region) ↔
      ∀ p, region.Contains p → Begun borders tier bg s eye layout p := by
  constructor
  · intro h p hp
    have hpainter := h.painter p hp (mark s eye p) (mark_blending bg s eye p) false
    rw [layers_updateRegion2 hb hv visible hp] at hpainter
    exact begun_of_painted hb hl hp hpainter
  · intro h
    refine ⟨fun d hd p hp => ?_,fun p hp π paint hm x => ?_,fun p hp w hw => ?_,fun p hp => ?_⟩
    · rw [updateRegion2] at hd
      split_ifs at hd
      · cases hd
      · rw [← box_region region]
        exact composeFrom_inside (fun h => (regions.initWithExtents_contains _ p).mp h) hd hp
    · rw [layers_updateRegion2 hb hv visible hp]
      exact painted_begun hm hb hl hp (h p hp) x
    · rw [layers_updateRegion2 hb hv visible hp] at hw ⊢
      exact (drawnFrom_unblended hw).2
    · rw [layers_updateRegion2 hb hv visible hp]
      intro hnil
      have hpicture := painted_begun (mark_blending bg s eye p) hb hl hp (h p hp) false
      rw [hnil,painter_reverse] at hpicture
      exact absurd (hpicture.trans (painted_mark_true _)) Bool.false_ne_true

def span (a b : ℤ) : List ℤ := (List.range (b-a).toNat).map fun n : ℕ => a+n

theorem mem_span {a b x : ℤ} : x ∈ span a b ↔ a ≤ x ∧ x < b := by
  simp only [span,List.mem_map,List.mem_range]
  constructor
  · rintro ⟨n,hn,rfl⟩
    omega
  · exact fun h => ⟨(x-a).toNat,by omega,by omega⟩

theorem nodup_span (a b : ℤ) : (span a b).Nodup :=
  List.nodup_range.map fun m n h => by simpa using h

theorem mem_box {b : Box} {p : ℤ × ℤ} :
    p ∈ span b.x1 b.x2 ×ˢ span b.y1 b.y2 ↔ b.region.Contains p := by
  obtain ⟨x,y⟩ := p
  simp only [List.mem_product,mem_span,Region.Contains,Box.region]
  omega

theorem mem_updates {l : List Region} {p : ℤ × ℤ} : p ∈ (l.flatMap fun r =>
    span r.x1 (r.x2+1) ×ˢ span r.y1 (r.y2+1)).dedup ↔ ∃ r ∈ l, r.Contains p := by
  simp only [List.mem_dedup,List.mem_flatMap]
  refine exists_congr fun r => and_congr_right fun _ => ?_
  simpa [Box.region] using @mem_box ⟨r.x1,r.y1,r.x2+1,r.y2+1⟩ p

theorem pixel_contains {p q : ℤ × ℤ} :
    (⟨q.1,q.2,q.1+1,q.2+1⟩ : Box).region.Contains p ↔ p = q := by
  simp only [Region.Contains,Box.region,Prod.ext_iff]
  omega

/-- Regions that are lists of their pixels. -/
def pixelRegions : MiscRegions {l : List (ℤ × ℤ) // l.Nodup} where
  contains r p := decide (p ∈ r.1)
  initWithExtents b := ⟨span b.x1 b.x2 ×ˢ span b.y1 b.y2,(nodup_span _ _).product (nodup_span _ _)⟩
  initUpdates l := ⟨(l.flatMap fun r => span r.x1 (r.x2+1) ×ˢ span r.y1 (r.y2+1)).dedup,
    List.nodup_dedup _⟩
  intersect a b := ⟨a.1.filter (· ∈ b.1),a.2.filter _⟩
  subtract a b := ⟨a.1.filter (· ∉ b.1),a.2.filter _⟩
  boxes a := a.1.map fun p => ⟨p.1,p.2,p.1+1,p.2+1⟩
  initWithExtents_contains b p := decide_eq_true_iff.trans mem_box
  initUpdates_contains l p := decide_eq_true_iff.trans mem_updates
  intersect_contains a b p := by simp
  subtract_contains a b p := by simp
  boxes_contains a p := by
    simp only [List.mem_map,exists_exists_and_eq_and,pixel_contains,exists_eq_right',decide_eq_true_eq]
  boxes_disjoint a := List.pairwise_map.mpr (a.2.imp fun hne p hp hq =>
    hne ((pixel_contains.mp hp).symm.trans (pixel_contains.mp hq)))

theorem complete_bounds {layout : List ω} {region : Region} :
    Complete borders tier s eye layout region fun w => [(s w).boundsArea eye] where
  within w _ p h := by simpa [Listed] using h
  complete below w above _ _ p _ hp _ := by simpa [Listed] using hp

/-- A premultiplied window of ten columns, of which the upper rows are shown only. -/
def premultipliedWindow (height rows : ℤ) (h : rows ≤ height ∧ 0 ≤ rows)
    (toplevel : Option Bool) : Window Bool where
  config := {
    bounds := ⟨0,0,10,height,ten_nonneg,h.2.trans h.1⟩
    opacity := 0xff
    options := {alphaChannel := true} }
  surface := some ⟨10,height,ten_nonneg,h.2.trans h.1,true⟩
  toplevel := toplevel
  inserted := true
  placement := ⟨⟨0,0,10,height,ten_nonneg,h.2.trans h.1⟩,⟨0,0,10,rows,ten_nonneg,h.2⟩,
    ⟨0,0,10,rows,ten_nonneg,h.2⟩,⟨le_rfl,le_rfl,le_rfl,
      Int.sub_le_sub_right (Int.add_le_add_left h.1 0) 1⟩⟩

def premultipliedSub : Windows Bool
  | false => premultipliedWindow 4 4 (by decide) none
  | true => premultipliedWindow 10 4 (by decide) (some false)

def middleTier : Tier := ⟨fun c => c == .middle,20,20,twenty_nonneg,twenty_nonneg⟩

def zeroBackground : Background := ⟨.color,0,0,0,0⟩

/-- Where the lower window is shown, the sub window is blended over it. -/
theorem premultiplied_sub_composes :
    Composes noBorders middleTier zeroBackground premultipliedSub .left [false,true] ⟨2,1,7,3⟩
      (updateRegion2 pixelRegions noBorders middleTier zeroBackground premultipliedSub
        (fun w => [(premultipliedSub w).boundsArea .left]) [false,true] ⟨2,1,7,3⟩) := by
  refine (visible_lists_compose pixelRegions (by decide) ⟨by decide,by decide⟩
    complete_bounds).mpr fun p hp => .inr fun w hw _ => ?_
  simp only [Region.Contains] at hp
  have hfound : Found noBorders middleTier premultipliedSub .left p false := by
    refine ⟨by decide,?_⟩
    show 0+0 ≤ p.1 ∧ p.1 ≤ 0+10-1+0 ∧ 0+0 ≤ p.2 ∧ p.2 ≤ 0+4-1+0
    omega
  rw [List.find?_cons,decide_eq_true hfound] at hw
  obtain rfl := Option.some.inj hw
  exact hfound.2

/-- Below that, the sub window is found, but not drawn, and neither is the background. -/
theorem clipped_sub_unpainted :
    ¬ Composes noBorders middleTier zeroBackground premultipliedSub .left [false,true] ⟨2,6,7,8⟩
      (updateRegion2 pixelRegions noBorders middleTier zeroBackground premultipliedSub
        (fun w => [(premultipliedSub w).boundsArea .left]) [false,true] ⟨2,6,7,8⟩) := by
  rw [visible_lists_compose pixelRegions (by decide) ⟨by decide,by decide⟩ complete_bounds]
  intro h
  rcases h (2,6) (by decide) with hhid | hdrawn
  · exact absurd hhid (by decide)
  · exact absurd (hdrawn true (by decide) (by decide)) (by decide)

end UpdateRegion2
end DirectFB.SaWMan
