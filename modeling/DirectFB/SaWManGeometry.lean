import DirectFB.SaWMan
import Mathlib.Order.WellFounded

/-! Where SaWMan puts a window, and the windows that follow it. -/
set_option linter.unusedSectionVars false
namespace DirectFB.SaWMan

structure Rect where
  x : ℤ
  y : ℤ
  w : ℤ
  h : ℤ

/-- `dfb_rectangle_intersect_by_region`. -/
def intersectByRegion (r : Rect) (region : Region) : Option Rect :=
  let x := if region.x1 > r.x then region.x1 else r.x
  let w := if region.x1 > r.x then r.w-(region.x1-r.x) else r.w
  let y := if region.y1 > r.y then region.y1 else r.y
  let h := if region.y1 > r.y then r.h-(region.y1-r.y) else r.h
  let w := if region.x2 < x+w-1 then region.x2-x+1 else w
  let h := if region.y2 < y+h-1 then region.y2-y+1 else h
  if w ≤ 0 ∨ h ≤ 0 then none else some ⟨x,y,w,h⟩

theorem intersectByRegion_within {r r' : Rect} {region : Region}
    (h : intersectByRegion r region = some r') : 0 ≤ r'.w ∧ 0 ≤ r'.h ∧
      (⟨r'.x,r'.y,r'.x+r'.w-1,r'.y+r'.h-1⟩ : Region).Within region := by
  simp only [intersectByRegion,Option.ite_none_left_eq_some,Option.some.injEq] at h
  obtain ⟨hsize,rfl⟩ := h
  refine ⟨?_,?_,⟨?_,?_,?_,?_⟩⟩
  all_goals dsimp only
  · omega
  · omega
  all_goals split_ifs <;> omega

/-- A rectangle within another one. -/
abbrev RectangleIn (clip : Rectangle) :=
  {r : Rectangle // (Region.fromRectangle r).Within (Region.fromRectangle clip)}

def RectangleIn.whole (clip : Rectangle) : RectangleIn clip :=
  ⟨clip,⟨le_rfl,le_rfl,le_rfl,le_rfl⟩⟩

def clipped (r : Rect) (clip : Rectangle) : RectangleIn clip :=
  match h : intersectByRegion r (Region.fromRectangle clip) with
  | some r' =>
    let hr := intersectByRegion_within h
    ⟨⟨r'.x,r'.y,r'.w,r'.h,hr.1,hr.2.1⟩,hr.2.2⟩
  | none => .whole clip

/-- A number as an `int`. -/
def toInt (q : ℚ) : ℤ := if q < 0 then ⌈q⌉ else ⌊q⌋

theorem toInt_nonneg {q : ℚ} (h : 0 ≤ q) : 0 ≤ toInt q := by
  rw [toInt,if_neg (not_lt.mpr h)]
  exact Int.floor_nonneg.mpr h

/-- `apply_geometry`, without the geometry of a parent. -/
def applyOwn (geometry : Geometry) (clip : Rectangle) : Option (RectangleIn clip) :=
  match geometry.mode with
  | .default => some (.whole clip)
  | .follow => none
  | .rectangle =>
    some (clipped ⟨geometry.rectangle.x+clip.x,geometry.rectangle.y+clip.y,
      geometry.rectangle.w,geometry.rectangle.h⟩ clip)
  | .location =>
    let location := geometry.location
    some (clipped ⟨toInt (location.1*clip.w+1/2)+clip.x,toInt (location.2.1*clip.h+1/2)+clip.y,
      toInt (location.2.2.1*clip.w+1/2),toInt (location.2.2.2*clip.h+1/2)⟩ clip)

/-- `apply_geometry`. There is no result if it follows a geometry that is missing. -/
def applyGeometry (geometry : Geometry) (clip : Rectangle) (parent : Option Geometry) :
    Option (RectangleIn clip) :=
  match geometry.mode with
  | .follow => parent.bind fun parent => (applyOwn parent clip).map fun r =>
      clipped ⟨r.1.x,r.1.y,r.1.w,r.1.h⟩ clip
  | _ => applyOwn geometry clip

theorem clip_span {a c x w : ℤ} (hc : a ≤ c+1) (hw : 0 ≤ w) (h : ¬ a ≥ x+w) (h' : ¬ c < x) :
    let x' := if a > x then a else x
    let w' := if a > x then w+(x-a) else w
    let w'' := if c < x'+w'-1 then c-x'+1 else w'
    0 ≤ w'' ∧ x ≤ x' ∧ x'+w''-1 ≤ x+w-1 := by
  dsimp only
  split_ifs <;> omega

/-- `dfb_clip_rectangle`, which leaves a rectangle alone that is outside. -/
def clipRectangle (clip r : Rectangle) : RectangleIn r :=
  let region := Region.fromRectangle clip
  if hout : region.x1 ≥ r.x+r.w ∨ region.x2 < r.x ∨ region.y1 ≥ r.y+r.h ∨ region.y2 < r.y then .whole r
  else
    let x := if region.x1 > r.x then region.x1 else r.x
    let w := if region.x1 > r.x then r.w+(r.x-region.x1) else r.w
    let y := if region.y1 > r.y then region.y1 else r.y
    let h := if region.y1 > r.y then r.h+(r.y-region.y1) else r.h
    let w' := if region.x2 < x+w-1 then region.x2-x+1 else w
    let h' := if region.y2 < y+h-1 then region.y2-y+1 else h
    have hc := Region.fromRectangle_regular clip
    have hx := clip_span hc.x r.w_nonneg (fun g => hout (.inl g)) fun g => hout (.inr (.inl g))
    have hy := clip_span hc.y r.h_nonneg (fun g => hout (.inr (.inr (.inl g))))
      fun g => hout (.inr (.inr (.inr g)))
    ⟨⟨x,y,w',h',hx.1,hy.1⟩,⟨hx.2.1,hy.2.1,hx.2.2,hy.2.2⟩⟩

def clipSource (x w dstX dstW clippedX clippedW : ℤ) : ℤ×ℤ :=
  (if clippedX ≠ dstX then x+toInt ((clippedX-dstX)*(w/dstW)) else x,
    if clippedW ≠ dstW then toInt (w*(clippedW/dstW)) else w)

theorem clipSource_nonneg (x : ℤ) {w dstW clippedW : ℤ} (dstX clippedX : ℤ) (hw : 0 ≤ w)
    (hd : 0 ≤ dstW) (hc : 0 ≤ clippedW) :
    0 ≤ (clipSource x w dstX dstW clippedX clippedW).2 := by
  unfold clipSource
  split_ifs
  all_goals first | exact hw | skip
  all_goals
    apply toInt_nonneg
    positivity

/-- `dfb_clip_stretchblit`. -/
def clipStretchblit (clip src dst : Rectangle) : Rectangle×RectangleIn dst :=
  let r := clipRectangle clip dst
  let x := clipSource src.x src.w dst.x dst.w r.1.x r.1.w
  let y := clipSource src.y src.h dst.y dst.h r.1.y r.1.h
  (⟨x.1,y.1,x.2,y.2,clipSource_nonneg _ _ _ src.w_nonneg dst.w_nonneg r.1.w_nonneg,
    clipSource_nonneg _ _ _ src.h_nonneg dst.h_nonneg r.1.h_nonneg⟩,r)

/-- The bounds of a sub window, as those of its top level window are shown. -/
def subBounds (bounds src dst : Rectangle) : Rectangle :=
  let x := bounds.x-src.x
  let y := bounds.y-src.y
  if src.w ≠ dst.w ∨ src.h ≠ dst.h then
    ⟨(x*dst.w).tdiv src.w+dst.x,(y*dst.h).tdiv src.h+dst.y,
      (bounds.w*dst.w).tdiv src.w,(bounds.h*dst.h).tdiv src.h,
      Int.tdiv_nonneg (mul_nonneg bounds.w_nonneg dst.w_nonneg) src.w_nonneg,
      Int.tdiv_nonneg (mul_nonneg bounds.h_nonneg dst.h_nonneg) src.h_nonneg⟩
  else ⟨x+dst.x,y+dst.y,bounds.w,bounds.h,bounds.w_nonneg,bounds.h_nonneg⟩

variable {ω : Type*} [DecidableEq ω]

/-- The bounds of a window in `sawman_update_geometry`. -/
def boundsOf (s : Windows ω) (w : ω) : Rectangle :=
  let own := (s w).config.bounds
  let base := if (s w).options.followBounds then
    ((s w).parent.map fun p => (s p).bounds).getD own else own
  match (s w).toplevel with
  | some t => subBounds base (s t).placement.src (s t).dst
  | none => base

def sourceOf (w : Window ω) (bounds : Rectangle) : Option Rectangle :=
  if w.caps.inputOnly || w.caps.color || w.options.inputOnly then
    some ⟨0,0,bounds.w,bounds.h,bounds.w_nonneg,bounds.h_nonneg⟩
  else w.surface.map fun surface =>
    ⟨0,0,surface.width,surface.height,surface.width_nonneg,surface.height_nonneg⟩

/-- What `sawman_update_geometry` makes of the placement of one window. It has no result if it
reads a surface or a geometry that is missing. -/
def place (s : Windows ω) (w : ω) : Option Placement := do
  let bounds := boundsOf s w
  let source ← sourceOf (s w) bounds
  let src ← applyGeometry (s w).config.srcGeometry source
    ((s w).parent.map fun p => (s p).config.srcGeometry)
  let dst ← applyGeometry (s w).config.dstGeometry bounds
    ((s w).parent.map fun p => (s p).config.dstGeometry)
  match (s w).toplevel with
  | some t =>
    let r := clipStretchblit (s t).dst src.1 dst.1
    some ⟨bounds,r.1,r.2.1,r.2.2.trans dst.2⟩
  | none => some ⟨bounds,src.1,dst.1,dst.2⟩

/-- Why a call does not come to its end. -/
inductive Stop
  | depth | null | index | object
  deriving DecidableEq

def modify (s : Windows ω) (w : ω) (f : Window ω → Window ω) : Windows ω :=
  Function.update s w (f (s w))

def follows (c : Window ω) (srcUpdated dstUpdated : Bool) : Bool :=
  (c.config.srcGeometry.mode == .follow && srcUpdated) ||
  (c.config.dstGeometry.mode == .follow && dstUpdated) || c.options.followBounds

/-- `sawman_update_geometry`, at most so many levels deep. -/
def updateGeometry : ℕ → Windows ω → ω → Except Stop (Windows ω)
  | 0, _, _ => .error .depth
  | n+1, s, w =>
    match place s w with
    | none => .error .null
    | some placement => do
      let srcUpdated := placement.src != (s w).placement.src
      let dstUpdated := placement.dst != (s w).dst
      let s := modify s w fun window => {window with placement := placement}
      let s ← (s w).children.foldlM (fun s c =>
        if follows (s c) srcUpdated dstUpdated then updateGeometry n s c else .ok s) s
      (s w).subwindows.foldlM (updateGeometry n) s

def Passes (s : Windows ω) (c w : ω) : Prop := c ∈ (s w).children ∨ c ∈ (s w).subwindows

def Moved (s u : Windows ω) : Prop := ∀ w, u w = {s w with placement := (u w).placement}

theorem Moved.refl (s : Windows ω) : Moved s s := fun _ => rfl

theorem Moved.trans {s t u : Windows ω} (h : Moved s t) (h' : Moved t u) : Moved s u := by
  intro w
  rw [h' w,h w]

theorem modify_apply (s : Windows ω) (w x : ω) (f : Window ω → Window ω) :
    modify s w f x = if x = w then f (s x) else s x := by
  unfold modify
  by_cases hx : x = w
  · subst hx
    rw [Function.update_self,if_pos rfl]
  · rw [Function.update_of_ne hx,if_neg hx]

universe u in
theorem bind_ok {α β : Type u} {x : Except Stop α} {f : α → Except Stop β} {b : β}
    (h : (x >>= f) = .ok b) : ∃ a, x = .ok a ∧ f a = .ok b := by
  cases x with
  | error e => cases h
  | ok a => exact ⟨a,rfl,h⟩

theorem moved_modify (s : Windows ω) (w : ω) (placement : Placement) :
    Moved s (modify s w fun window => {window with placement := placement}) := by
  intro x
  rw [modify_apply]
  split_ifs <;> rfl

theorem moved_foldlM {f : Windows ω → ω → Except Stop (Windows ω)}
    (hf : ∀ s w u, f s w = .ok u → Moved s u) {l : List ω} {s u : Windows ω}
    (h : l.foldlM f s = .ok u) : Moved s u := by
  induction l generalizing s with
  | nil =>
    obtain rfl : s = u := Except.ok.inj h
    exact .refl s
  | cons w l ih =>
    rw [List.foldlM_cons] at h
    obtain ⟨v,hv,hrest⟩ := bind_ok h
    exact (hf s w v hv).trans (ih hrest)

theorem updateGeometry_moved (n : ℕ) {s u : Windows ω} {w : ω}
    (h : updateGeometry n s w = .ok u) : Moved s u := by
  induction n generalizing s w u with
  | zero => cases h
  | succ n ih =>
    rw [updateGeometry] at h
    cases hplace : place s w with
    | none =>
      rw [hplace] at h
      cases h
    | some placement =>
      rw [hplace] at h
      dsimp only at h
      obtain ⟨v,hv,hrest⟩ := bind_ok h
      refine (moved_modify s w placement).trans (.trans (moved_foldlM ?_ hv) (moved_foldlM ?_ hrest))
      · intro s c u hu
        split_ifs at hu
        · exact ih hu
        · obtain rfl := Except.ok.inj hu
          exact .refl s
      · exact fun s c u hu => ih hu

theorem exists_levels {P : ℕ → ω → Prop} (l : List ω) (h : ∀ c ∈ l, ∃ n, ∀ k ≥ n, P k c) :
    ∃ n, ∀ k ≥ n, ∀ c ∈ l, P k c := by
  induction l with
  | nil => exact ⟨0,fun _ _ _ hc => by cases hc⟩
  | cons w l ih =>
    obtain ⟨n,hn⟩ := h w List.mem_cons_self
    obtain ⟨m,hm⟩ := ih fun c hc => h c (List.mem_cons_of_mem _ hc)
    refine ⟨max n m,fun k hk c hc => ?_⟩
    obtain rfl | hc := List.mem_cons.mp hc
    · exact hn k (le_of_max_le_left hk)
    · exact hm k (le_of_max_le_right hk) c hc

/-- A loop does not get too deep if no call in it does, whatever was moved before. -/
theorem foldlM_ends {f : Windows ω → ω → Except Stop (Windows ω)} {s : Windows ω}
    (hf : ∀ s w u, f s w = .ok u → Moved s u) {l : List ω}
    (h : ∀ c ∈ l, ∀ t, Moved s t → f t c ≠ .error .depth) {t : Windows ω} (ht : Moved s t) :
    l.foldlM f t ≠ .error .depth := by
  induction l generalizing t with
  | nil => exact fun heq => by cases heq
  | cons w l ih =>
    rw [List.foldlM_cons]
    cases hw : f t w with
    | error e =>
      have hne := h w List.mem_cons_self t ht
      rw [hw] at hne
      exact fun heq => hne (by cases heq; rfl)
    | ok u => exact ih (fun c hc => h c (List.mem_cons_of_mem _ hc)) (ht.trans (hf t w u hw))

theorem updateGeometry_ends {s : Windows ω} (hs : WellFounded (Passes s)) (w : ω) :
    ∃ n, ∀ k ≥ n, ∀ t, Moved s t → updateGeometry k t w ≠ .error .depth := by
  induction w using hs.induction with
  | _ w ih =>
    obtain ⟨n,hn⟩ := exists_levels (s w).children fun c hc => ih c (.inl hc)
    obtain ⟨m,hm⟩ := exists_levels (s w).subwindows fun c hc => ih c (.inr hc)
    refine ⟨max n m+1,fun k hk t ht => ?_⟩
    obtain ⟨k,rfl⟩ : ∃ j, k = j+1 := ⟨k-1,by omega⟩
    have hkn : n ≤ k := le_trans (le_max_left n m) (Nat.le_of_succ_le_succ hk)
    have hkm : m ≤ k := le_trans (le_max_right n m) (Nat.le_of_succ_le_succ hk)
    rw [updateGeometry]
    cases hplace : place t w with
    | none => exact fun heq => by cases heq
    | some placement =>
      dsimp only
      have hv := ht.trans (moved_modify t w placement)
      set v := modify t w fun window => {window with placement := placement} with hvdef
      have hloop : ∀ (s : Windows ω) c u, (if follows (s c) (placement.src != (t w).placement.src)
          (placement.dst != (t w).dst) then updateGeometry k s c else .ok s) = .ok u →
          Moved s u := by
        intro s c u hu
        split_ifs at hu with hfollows
        · exact updateGeometry_moved k hu
        · obtain rfl := Except.ok.inj hu
          exact .refl s
      have hchildren : (v w).children = (s w).children := by rw [hv w]
      rw [hchildren]
      intro heq
      cases hu : (s w).children.foldlM (fun s c => if follows (s c)
          (placement.src != (t w).placement.src) (placement.dst != (t w).dst)
          then updateGeometry k s c else .ok s) v with
      | error e =>
        refine foldlM_ends hloop (fun c hc t' ht' => ?_) hv (hu.trans ?_)
        · split_ifs
          · exact hn k hkn c hc t' ht'
          · exact fun h => by cases h
        · rw [hu] at heq
          cases heq
          rfl
      | ok u =>
        have hmoved := hv.trans (moved_foldlM hloop hu)
        have hsub : (u w).subwindows = (s w).subwindows := by rw [hmoved w]
        rw [hu] at heq
        change (u w).subwindows.foldlM (updateGeometry k) u = _ at heq
        rw [hsub] at heq
        exact foldlM_ends (fun s c u hu => updateGeometry_moved k hu)
          (fun c hc t' ht' => hm k hkm c hc t' ht') hmoved heq

end DirectFB.SaWMan
