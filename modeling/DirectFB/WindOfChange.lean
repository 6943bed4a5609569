import DirectFB.WindowConfig

/-! Updates of a window, without what the windows above it hide. -/
namespace DirectFB.WindOfChange
open UpdateRegion WindowConfig Transition

def canSkip (w : Window) (update : Region) : Option Region :=
  (if w.opacity = 0xff && !(w.options.colorKeying || w.options.alphaChannel) then
    update.intersect w.area else none) <|>
  (if w.options.alphaChannel && w.options.opaqueRegion && w.opacity = 0xff &&
      !w.options.colorKeying then
    update.intersect w.opaqueArea else none)

/-- `wind_of_change`, on the windows from `current` down to the one above `changed`. -/
def windOfChange : List Window → Region → List Region
  | [], update => [update]
  | w::rest, update =>
    match canSkip w update with
    | some inner => (Region.strips inner update).flatMap (windOfChange rest)
    | none => windOfChange rest update

def above (windows : List Window) (changed : ℕ) : List Window :=
  (windows.drop (changed+1)).reverse

def Skips (w : Window) (p : ℤ × ℤ) : Prop :=
  Solid w.opacity w.options ∧ (if w.options.alphaChannel then w.opaqueArea else w.area).Contains p

instance (w : Window) (p : ℤ × ℤ) : Decidable (Skips w p) :=
  inferInstanceAs (Decidable (_ ∧ _))

variable (l : List Window) (p : ℤ × ℤ) (w : Window) {update : Region}

theorem hides_iff (p : ℤ × ℤ) : Hides w p ↔ Covers w p ∧ Skips w p := by
  simp only [Hides,Covers,Skips,Solid,InOpaqueRegion,Window.partlyOpaque]
  cases w.options.alphaChannel <;> simp <;> tauto

theorem canSkip_eq (update : Region) : canSkip w update =
    if Solid w.opacity w.options then
      update.intersect (if w.options.alphaChannel then w.opaqueArea else w.area) else none := by
  by_cases ha : w.options.alphaChannel = true <;> by_cases ho : w.opacity = 0xff <;>
    by_cases hk : w.options.colorKeying = true <;> by_cases hr : w.options.opaqueRegion = true <;>
    simp [canSkip,Solid,ha,ho,hk,hr]

def marks (p : ℤ × ℤ) (regions : List Region) : List Unit :=
  regions.filterMap fun r => if r.Contains p then some () else none

theorem marks_ne_nil {p : ℤ × ℤ} {regions : List Region} :
    marks p regions ≠ [] ↔ ∃ r ∈ regions, r.Contains p := by
  simp [marks]

theorem marks_flatMap (l : List Region) (f : Region → List Region) :
    marks p (l.flatMap f) = l.flatMap fun r => marks p (f r) :=
  List.filterMap_flatMap

theorem opaqueArea_regular : w.opaqueArea.Regular :=
  (w.opaqueRegion.valid.translated _ _).regular

theorem area_regular : w.area.Regular := Region.fromRectangle_regular _

theorem marks_windOfChange
    (hu : update.Regular) : marks p (windOfChange l update) =
      if update.Contains p ∧ ∀ w ∈ l, ¬ Skips w p then [()] else [] := by
  induction l generalizing update with
  | nil => by_cases h : update.Contains p <;> simp [windOfChange,marks,h]
  | cons w rest ih =>
    have hreg : (if w.options.alphaChannel then w.opaqueArea else w.area).Regular := by
      split
      · exact opaqueArea_regular w
      · exact area_regular w
    rw [windOfChange,canSkip_eq]
    by_cases hs : Solid w.opacity w.options
    · rw [if_pos hs]
      split
      next inner hinner =>
        have hmem := Region.intersect_contains hinner p
        have hskip : Skips w p ↔
            (if w.options.alphaChannel then w.opaqueArea else w.area).Contains p := by
          simp [Skips,hs]
        rw [marks_flatMap,Region.flatMap_strips (hu.intersect hreg hinner)
          (Region.intersect_within hinner).1 (p := p) fun r hr => (ih hr).trans (ite_and ..),
          ← ite_and]
        refine if_congr ?_ rfl rfl
        rw [List.forall_mem_cons,hskip,hmem]
        tauto
      next hnone =>
        rw [ih hu]
        refine if_congr ?_ rfl rfl
        rw [List.forall_mem_cons]
        have hskip : update.Contains p → ¬ Skips w p := fun hp h =>
          Region.not_contains_of_intersect hnone hp h.2
        tauto
    · have hskip : ¬ Skips w p := fun h => hs h.1
      rw [if_neg hs]
      simp [ih hu,hskip]

theorem mem_windOfChange (hu : update.Regular) : (∃ r ∈ windOfChange l update, r.Contains p) ↔
      update.Contains p ∧ ∀ w ∈ l, ¬ Skips w p := by
  rw [← marks_ne_nil,marks_windOfChange l p hu]
  simp

theorem mem_above {windows : List Window} {changed : ℕ} {w : Window} :
    w ∈ above windows changed ↔ ∃ j, changed < j ∧ windows[j]? = some w := by
  rw [above,List.mem_reverse,List.mem_drop_iff_getElem]
  constructor
  · rintro ⟨i,hi,rfl⟩
    exact ⟨changed+1+i,by omega,List.getElem?_eq_getElem _⟩
  · rintro ⟨j,hj,hw⟩
    obtain ⟨hlen,rfl⟩ := List.getElem?_eq_some_iff.mp hw
    exact ⟨j-(changed+1),by omega,by congr 1; omega⟩

theorem hidden_iff (windows : List Window) (changed : ℕ) (p : ℤ × ℤ) :
    Hidden windows.reverse changed p ↔ ∃ w ∈ above windows changed, Hides w p := by
  simp only [Hidden,List.reverse_reverse,mem_above]
  constructor
  · rintro ⟨j,v,hj,hv,hh⟩
    exact ⟨v,⟨j,hj,hv⟩,hh⟩
  · rintro ⟨v,⟨j,hj,hv⟩,hh⟩
    exact ⟨j,v,hj,hv,hh⟩

def Above (changed : ℕ) (a : Layer) : Prop := ∃ i, a.index? = some i ∧ changed < i

theorem above_drawn (changed : ℕ) (w : Window) (i : ℕ) (p : ℤ × ℤ) :
    Above changed (drawn w i p) ↔ changed < i := by
  simp [Above]

theorem exists_mem_painterFrom : ∃ a, a ∈ painterFrom l p := by
  induction l with
  | nil => exact ⟨.background,by simp [painterFrom]⟩
  | cons w below ih =>
    obtain ⟨a,ha⟩ := ih
    rw [painterFrom]
    split_ifs
    · exact ⟨_,List.mem_singleton_self _⟩
    · exact ⟨a,List.mem_append_left _ ha⟩
    · exact ⟨a,ha⟩

/-- Only windows above an index are drawn exactly where one of them hides the rest. -/
theorem painterFrom_above_iff (changed : ℕ) (p : ℤ × ℤ) :
    (∀ a ∈ painterFrom l p, Above changed a) ↔ Hidden l changed p := by
  induction l with
  | nil => simp [painterFrom,Above,Hidden]
  | cons w below ih =>
    by_cases hlt : changed < below.length
    · rw [hidden_cons hlt,← ih,painterFrom]
      by_cases hh : Hides w p
      · simp [hh,above_drawn,hlt]
      · by_cases hc : Covers w p
        · simp only [hh,hc,if_true,if_false,List.mem_append,List.mem_singleton,false_or]
          constructor
          · exact fun h a ha => h a (.inl ha)
          · rintro h a (ha | rfl)
            · exact h a ha
            · exact (above_drawn ..).mpr hlt
        · simp [hh,hc]
    · have hn : ¬ Hidden (w::below) changed p := by
        rintro ⟨j,v,hj,hv,-⟩
        have hlen := (List.getElem?_eq_some_iff.mp hv).1
        simp only [List.length_reverse,List.length_cons] at hlen
        omega
      refine iff_of_false (fun h => ?_) hn
      obtain ⟨a,ha⟩ := exists_mem_painterFrom (w::below) p
      have habove := h a ha
      rcases mem_painterFrom ha with rfl | ⟨i,v,hv,-,rfl⟩
      · simp [Above] at habove
      · have hi := (List.getElem?_eq_some_iff.mp hv).1
        rw [above_drawn] at habove
        simp only [List.length_reverse,List.length_cons] at hi
        omega

def UpdateHidden (windows : List Window) (changed : ℕ) (update : Region) : Prop :=
  ∀ p, update.Contains p → (¬ ∃ r ∈ windOfChange (above windows changed) update, r.Contains p) →
    ∀ region : Region, region.Valid → region.Contains p →
      ∀ a ∈ layers p (updateRegion windows.reverse region), Above changed a

def SkipsHidden (windows : List Window) (changed : ℕ) (update : Region) : Prop :=
  ∀ p, update.Contains p → (∃ w ∈ above windows changed, Skips w p) →
    ∃ w ∈ above windows changed, Hides w p

theorem updateHidden_iff (windows : List Window) (changed : ℕ)
    (hu : update.Regular) :
    UpdateHidden windows changed update ↔ SkipsHidden windows changed update := by
  have hnot : ∀ p, update.Contains p →
      ((¬ ∃ r ∈ windOfChange (above windows changed) update, r.Contains p) ↔
        ∃ w ∈ above windows changed, Skips w p) := by
    intro p hp
    rw [mem_windOfChange _ _ hu]
    simp [hp]
  have hlayers : ∀ p, (∀ region : Region, region.Valid → region.Contains p →
      ∀ a ∈ layers p (updateRegion windows.reverse region), Above changed a) ↔
      ∃ w ∈ above windows changed, Hides w p := by
    intro p
    rw [← hidden_iff,← painterFrom_above_iff]
    constructor
    · intro h a ha
      have hcontains : (⟨p.1,p.2,p.1,p.2⟩ : Region).Contains p := by simp [Region.Contains]
      refine h ⟨p.1,p.2,p.1,p.2⟩ ⟨le_rfl,le_rfl⟩ hcontains a ?_
      rw [layers_updateRegion _ _ (Region.Valid.regular ⟨le_rfl,le_rfl⟩),if_pos hcontains]
      exact ha
    · intro h region hv hc a ha
      rw [layers_updateRegion _ _ hv.regular,if_pos hc] at ha
      exact h a ha
  refine forall_congr' fun p => forall_congr' fun hp => ?_
  rw [hnot p hp,hlayers p]

section Processing
variable {κ : Type*}

def shown (windows : List Window) (contents : ℕ → κ) (p : ℤ × ℤ) :
    List (Option (Window × κ × Bool)) :=
  (painterFrom windows.reverse p).map fun
    | .background => none
    | .window i alphaChannel => windows[i]?.map fun w => (w,contents i,alphaChannel)

def processed (screen : ℤ × ℤ → List (Option (Window × κ × Bool))) (updates : List Region)
    (windows : List Window) (contents : ℕ → κ) (p : ℤ × ℤ) : List (Option (Window × κ × Bool)) :=
  if ∃ r ∈ updates, r.Contains p then shown windows contents p else screen p

theorem painterFrom_congr {l l' : List Window} {changed : ℕ} {p : ℤ × ℤ}
    (hlen : l.length = l'.length)
    (h : ∀ i, changed < i → l.reverse[i]? = l'.reverse[i]?) (hh : Hidden l changed p) :
    painterFrom l p = painterFrom l' p := by
  induction l generalizing l' with
  | nil =>
    obtain ⟨j,v,-,hv,-⟩ := hh
    simp at hv
  | cons w below ih =>
    obtain ⟨w',below',rfl⟩ := List.exists_cons_of_length_pos (l := l') (by
      rw [← hlen]
      exact Nat.succ_pos _)
    have hlen' : below.length = below'.length := by simpa using hlen
    have hlt : changed < below.length := by
      obtain ⟨j,v,hj,hv,-⟩ := hh
      have := (List.getElem?_eq_some_iff.mp hv).1
      simp only [List.length_reverse,List.length_cons] at this
      omega
    have htop := h below.length hlt
    rw [getElem?_reverse_cons,getElem?_reverse_cons,if_pos rfl,if_pos hlen'] at htop
    obtain rfl := Option.some.inj htop
    rw [painterFrom,painterFrom,hlen']
    by_cases hw : Hides w p
    · rw [if_pos hw,if_pos hw]
    · have hbelow : Hidden below changed p := ((hidden_cons hlt).mp hh).resolve_left hw
      have hagree : ∀ i, changed < i → below.reverse[i]? = below'.reverse[i]? := by
        intro i hi
        have := h i hi
        rw [getElem?_reverse_cons,getElem?_reverse_cons,← hlen'] at this
        by_cases hib : i = below.length
        · rw [List.getElem?_eq_none (by simp; omega),List.getElem?_eq_none (by simp; omega)]
        · simpa [hib] using this
      rw [ih hlen' hagree hbelow]

/-- Whatever was composed of the same windows above, processing an update of the window at
an index makes it a composition of the windows as they are. -/
def Recomposes (windows : List Window) (changed : ℕ) (update : Region) : Prop :=
  ∀ (κ : Type) (old : List Window) (contents contents' : ℕ → κ)
    (screen : ℤ × ℤ → List (Option (Window × κ × Bool))), old.length = windows.length →
    (∀ i, changed < i → old[i]? = windows[i]? ∧ contents i = contents' i) →
    (∀ p, update.Contains p → screen p = shown old contents p) →
    ∀ p, update.Contains p →
      processed screen (windOfChange (above windows changed) update) windows contents' p =
        shown windows contents' p

theorem UpdateHidden.recomposes {windows : List Window} {changed : ℕ} {update : Region}
    (h : UpdateHidden windows changed update) : Recomposes windows changed update := by
  intro κ old contents contents' screen hlen habove hscreen p hp
  rw [processed]
  split_ifs with hadded
  · rfl
  have hcontains : (⟨p.1,p.2,p.1,p.2⟩ : Region).Contains p := by simp [Region.Contains]
  have hall := h p hp hadded ⟨p.1,p.2,p.1,p.2⟩ ⟨le_rfl,le_rfl⟩ hcontains
  rw [layers_updateRegion _ _ (Region.Valid.regular ⟨le_rfl,le_rfl⟩),if_pos hcontains] at hall
  have hhidden := (painterFrom_above_iff _ _ _).mp hall
  have hsame : painterFrom windows.reverse p = painterFrom old.reverse p :=
    painterFrom_congr (by simp [hlen]) (fun i hi => by simpa using (habove i hi).1.symm) hhidden
  rw [hscreen p hp,shown,shown,← hsame]
  refine List.map_congr_left fun a ha => ?_
  obtain ⟨i,hi,hlt⟩ := hall a ha
  cases a with
  | background => rfl
  | window j alphaChannel =>
    obtain rfl : j = i := Option.some.inj hi
    simp only [(habove j hlt).1,(habove j hlt).2]

end Processing

theorem hides_of_skips {w : Window} (h : Fits w) {p : ℤ × ℤ} (hs : Skips w p) : Hides w p := by
  rw [hides_iff]
  refine ⟨⟨?_,?_⟩,hs⟩
  · have hin : w.inputOnly = false := by
      by_contra hn
      exact h.drawn (by simpa using hn) hs.1
    simp [Window.visible,hin,h.alive,hs.1.1]
  · obtain ⟨hsolid,hp⟩ := hs
    split_ifs at hp with ha
    · have hw := h.opaque_within
      have harea : w.area = Region.fromRectangle w.bounds := by
        rw [Window.area,Window.transformWindowToStack,h.rotation]
      rw [harea]
      simp only [Region.Contains,Window.opaqueArea,Region.translated,Region.fromRectangle] at *
      have h1 := hw.x1
      have h2 := hw.y1
      have h3 := hw.x2
      have h4 := hw.y2
      simp only [frame] at h1 h2 h3 h4
      omega
    · exact hp

/-- What is skipped of an update is hidden exactly where the windows skipped are hiding it,
and so it is in every run which keeps the opaque regions within their windows and makes
none solid that is never drawn. -/
theorem wind_of_change_exact (translucentWindows : Bool) :
    (∀ (windows : List Window) (changed : ℕ) (update : Region), update.Valid →
      (UpdateHidden windows changed update ↔ SkipsHidden windows changed update)) ∧
    ∀ windows, Reaches (step translucentWindows) (Kept translucentWindows) (· = []) windows →
      ∀ (changed : ℕ) (update : Region), update.Valid →
        UpdateHidden windows changed update ∧ Recomposes windows changed update := by
  have hiff : ∀ (windows : List Window) (changed : ℕ) (update : Region), update.Valid →
      (UpdateHidden windows changed update ↔ SkipsHidden windows changed update) :=
    fun windows changed update hu => updateHidden_iff windows changed hu.regular
  refine ⟨hiff,fun windows h changed update hu => ?_⟩
  have hhidden : UpdateHidden windows changed update := by
    rw [hiff windows changed update hu]
    rintro p - ⟨w,hw,hs⟩
    have hmem : w ∈ windows := by
      obtain ⟨j,-,hj⟩ := mem_above.mp hw
      exact List.mem_of_getElem? hj
    exact ⟨w,hw,hides_of_skips (reaches_fits h w hmem) hs⟩
  exact ⟨hhidden,hhidden.recomposes⟩

def tenByTen : Size := ⟨10,10,ten_pos,ten_pos⟩

def inputAbove : List Event :=
  [.add 0 false 0 0 tenByTen {},.config 0 {opacity := some 0xff},
    .add 1 true 0 0 tenByTen {},.config 1 {opacity := some 0xff}]

def resizedAbove : List Event :=
  [.add 0 false 0 0 tenByTen {},.config 0 {opacity := some 0xff},
    .add 1 false 0 0 tenByTen {alphaChannel := true, opaqueRegion := true},
    .config 1 {opacity := some 0xff, opaqueRegion := some ⟨⟨5,5,9,9⟩,⟨by decide,by decide⟩⟩},
    .config 1 {size := some ⟨4,4,by decide,by decide⟩}]

/-- In both runs an update of the lower window is not added where nothing hides it. -/
theorem lower_window_skipped : (∃ windows, exec (step true) [] inputAbove = some windows ∧
      ¬ UpdateHidden windows 0 ⟨0,0,9,9⟩) ∧
    ∃ windows, exec (step true) [] resizedAbove = some windows ∧
      ¬ UpdateHidden windows 0 ⟨0,0,9,9⟩ := by
  refine ⟨⟨_,rfl,fun h => ?_⟩,⟨_,rfl,fun h => ?_⟩⟩
  · rw [updateHidden_iff _ _ (Region.Valid.regular ⟨by decide,by decide⟩)] at h
    have hp := h (0,0) (by decide)
    exact absurd (hp (by decide)) (by decide)
  · rw [updateHidden_iff _ _ (Region.Valid.regular ⟨by decide,by decide⟩)] at h
    have hp := h (5,5) (by decide)
    exact absurd (hp (by decide)) (by decide)

end DirectFB.WindOfChange
