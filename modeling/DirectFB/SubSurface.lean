import DirectFB.Reaches
import DirectFB.Region
import DirectFB.Types

/-! The areas and the clip of the interfaces to one surface. -/
namespace DirectFB.SubSurface
open Function (update update_of_ne update_self)
open Transition

/-- `DFBRectangle`. -/
structure Rect where
  x : ℤ
  y : ℤ
  w : ℤ
  h : ℤ
  deriving DecidableEq, Repr

/-- `DFBInsets`. -/
structure Insets where
  l : ℤ := 0
  t : ℤ := 0
  r : ℤ := 0
  b : ℤ := 0
  deriving DecidableEq, Repr

namespace Rect

def region (r : Rect) : Region := ⟨r.x,r.y,r.x+r.w-1,r.y+r.h-1⟩

/-- Position and size in one direction, adjusted to what lies from `x1` to `x2`. -/
def adjust (x w x1 x2 : ℤ) : ℤ × ℤ :=
  let left := if x1 > x then x1 else x
  let width := if x1 > x then w-(x1-x) else w
  (left,if x2 < left+width-1 then x2-left+1 else width)

/-- `dfb_rectangle_intersect`, of which no caller here looks at the result. -/
def intersect (r clip : Rect) : Rect :=
  let region := clip.region
  let x := adjust r.x r.w region.x1 region.x2
  let y := adjust r.y r.h region.y1 region.y2
  if x.2 ≤ 0 ∨ y.2 ≤ 0 then ⟨x.1,y.1,0,0⟩ else ⟨x.1,y.1,x.2,y.2⟩

/-- `dfb_rectangle_subtract`. -/
def subtract (r : Rect) (insets : Insets) : Rect :=
  let w := r.w-(insets.l+insets.r)
  let h := r.h-(insets.t+insets.b)
  if w ≤ 0 ∨ h ≤ 0 then ⟨r.x+insets.l,r.y+insets.t,0,0⟩ else ⟨r.x+insets.l,r.y+insets.t,w,h⟩

def clip (r : Rect) : Region :=
  ⟨r.x,r.y,r.x+(if r.w = 0 then 1 else r.w)-1,r.y+(if r.h = 0 then 1 else r.h)-1⟩

/-- `!w || !h`. -/
def Empty (r : Rect) : Prop := r.w = 0 ∨ r.h = 0

instance (r : Rect) : Decidable r.Empty := inferInstanceAs (Decidable (_ ∨ _))

end Rect

structure Surface where
  sub : Bool
  wanted : Rect
  granted : Rect
  current : Rect
  insets : Insets
  limitSet : Bool
  clipSet : Bool
  clipWanted : Region
  clip : Region

def extents (size : ℤ × ℤ) : Rect := ⟨0,0,size.1,size.2⟩

def usable (size : ℤ × ℤ) (insets : Insets) : Rect := (extents size).subtract insets

/-- `IDirectFBSurface_Construct`. Without insets the rectangle is taken as it is. -/
def construct (size : ℤ × ℤ) (wanted granted : Option Rect) (insets : Option Insets) (sub : Bool) :
    Surface :=
  let rect := (insets.map (usable size)).getD (extents size)
  let wanted := wanted.getD rect
  let area := granted.getD wanted
  let current := area.intersect rect
  {sub := sub, wanted := wanted, granted := area, current := current, insets := insets.getD {},
    limitSet := granted.isSome, clipSet := false, clipWanted := ⟨0,0,0,0⟩, clip := current.clip}

def Surface.part (v : Surface) (rect : Option Rect) : Option (Rect × Rect) :=
  if rect.isSome ∨ v.limitSet then
    let wanted := match rect with
      | none => v.wanted
      | some r =>
        if r.w ≤ 0 ∨ r.h ≤ 0 then ⟨r.x+v.wanted.x,r.y+v.wanted.y,0,0⟩
        else ⟨r.x+v.wanted.x,r.y+v.wanted.y,r.w,r.h⟩
    some (wanted,wanted.intersect v.granted)
  else none

def getSubSurface (size : ℤ × ℤ) (v : Surface) (rect : Option Rect) : Surface :=
  match v.part rect with
  | some (wanted,granted) => construct size (some wanted) (some granted) (some v.insets) true
  | none => construct size none none (some v.insets) true

def makeSubSurface (size : ℤ × ℤ) (v source : Surface) (rect : Option Rect) : Surface :=
  let area := (source.part rect).getD (extents size,extents size)
  let current := area.2.intersect (extents size)
  {v with
    sub := true, wanted := area.1, granted := area.2, current := current, clip := current.clip}

def sorted (r : Region) : Region :=
  let x := if r.x1 > r.x2 then (r.x2,r.x1) else (r.x1,r.x2)
  let y := if r.y1 > r.y2 then (r.y2,r.y1) else (r.y1,r.y2)
  ⟨x.1,y.1,x.2,y.2⟩

def setClip (v : Surface) (clip : Option Region) : DirectResult × Surface :=
  if v.current.Empty then (.invArea,v)
  else match clip with
    | none => (.ok,{v with clip := v.current.region, clipSet := false})
    | some clip =>
      match (sorted (clip.translated v.wanted.x v.wanted.y)).intersect v.wanted.region with
      | none => (.invArg,v)
      | some newclip =>
        let v := {v with clipSet := true, clipWanted := newclip}
        match newclip.intersect v.current.region with
        | none => (.invArea,v)
        | some newclip => (.ok,{v with clip := newclip})

def Surface.resized (v : Surface) (size : ℤ × ℤ) : Surface :=
  let rect := usable size v.insets
  if v.limitSet then {v with current := v.granted.intersect rect}
  else {v with wanted := rect, granted := rect, current := rect}

/-- `IDirectFBSurface_listener` for `CSNF_SIZEFORMAT`. -/
def listener (v : Surface) (size : ℤ × ℤ) : Surface :=
  let v := v.resized size
  (setClip v (if v.clipSet then some v.clipWanted else none)).2

/-- All interfaces to the surface. What was asked for as the clip of each, translated and within the
wanted rectangle, is remembered here. -/
structure State (ι : Type*) where
  size : ℤ × ℤ
  surfaces : ι → Option Surface
  asked : ι → Option Region

inductive Event (ι : Type*)
  | construct (i : ι) (insets : Option Insets)
  | getSubSurface (parent i : ι) (rect : Option Rect)
  | makeSubSurface (i source : ι) (rect : Option Rect)
  | setClip (i : ι) (clip : Option Region)
  | resize (size : ℤ × ℤ)

section Step

variable {ι : Type*} [DecidableEq ι]

def State.put (x : State ι) (i : ι) (v : Surface) : State ι :=
  {x with surfaces := update x.surfaces i (some v), asked := update x.asked i none}

def askedAfter (v : Surface) (clip : Option Region) (asked : Option Region) : Option Region :=
  if (setClip v clip).1 = .ok then clip.map fun _ => (setClip v clip).2.clipWanted else asked

def step (x : State ι) : Event ι → Option (State ι)
  | .construct i insets =>
    if (x.surfaces i).isSome then none
    else some (x.put i (construct x.size none none insets false))
  | .getSubSurface parent i rect =>
    if (x.surfaces i).isSome then none
    else (x.surfaces parent).map fun v => x.put i (getSubSurface x.size v rect)
  | .makeSubSurface i source rect =>
    (x.surfaces i).bind fun v => (x.surfaces source).map fun w =>
      x.put i (makeSubSurface x.size v w rect)
  | .setClip i clip => (x.surfaces i).map fun v =>
    {x with
      surfaces := update x.surfaces i (some (setClip v clip).2)
      asked := update x.asked i (askedAfter v clip (x.asked i))}
  | .resize size => some {x with
      size := size
      surfaces := fun i => (x.surfaces i).map fun v => listener v size}

end Step

section Areas

variable {v w : Surface} {size : ℤ × ℤ} {asked : Option Region}

def Rect.Holds (r : Rect) (p : ℤ × ℤ) : Prop := r.region.Contains p

def Rect.Regular (r : Rect) : Prop := r.w = 0 ∧ r.h = 0 ∨ 0 < r.w ∧ 0 < r.h

theorem adjust_eq (x w x1 x2 : ℤ) :
    Rect.adjust x w x1 x2 = (max x x1,min (x+w) (x2+1)-max x x1) := by
  unfold Rect.adjust
  refine Prod.ext ?_ ?_ <;> dsimp only <;> split_ifs <;> omega

theorem intersect_holds (r clip : Rect) (p : ℤ × ℤ) :
    (r.intersect clip).Holds p ↔ r.Holds p ∧ clip.Holds p := by
  simp only [Rect.intersect,adjust_eq,Rect.region]
  split_ifs <;> simp only [Rect.Holds,Region.Contains,Rect.region] <;> omega

theorem intersect_regular (r clip : Rect) : (r.intersect clip).Regular := by
  unfold Rect.intersect
  dsimp only
  split_ifs with h
  · exact .inl ⟨rfl,rfl⟩
  · exact .inr (by dsimp only; omega)

theorem subtract_regular (r : Rect) (insets : Insets) : (r.subtract insets).Regular := by
  unfold Rect.subtract
  dsimp only
  split_ifs with h
  · exact .inl ⟨rfl,rfl⟩
  · exact .inr (by dsimp only; omega)

theorem subtract_nothing (r : Rect) (p : ℤ × ℤ) : (r.subtract {}).Holds p ↔ r.Holds p := by
  unfold Rect.subtract
  dsimp only
  split_ifs <;> simp only [Rect.Holds,Region.Contains,Rect.region] <;> omega

theorem clip_eq_region {r : Rect} (h : ¬ r.Empty) : r.clip = r.region := by
  obtain ⟨hw,hh⟩ := not_or.mp h
  simp only [Rect.clip,Rect.region,if_neg hw,if_neg hh]

theorem Rect.Regular.valid {r : Rect} (h : r.Regular) (hne : ¬ r.Empty) : r.region.Valid := by
  obtain ⟨hw,hh⟩ := not_or.mp hne
  rcases h with ⟨h0,-⟩ | ⟨h1,h2⟩
  · exact absurd h0 hw
  · constructor <;> simp only [Rect.region] <;> omega

theorem sorted_valid (r : Region) : (sorted r).Valid := by
  unfold sorted
  constructor <;> dsimp only <;> split_ifs <;> dsimp only <;> omega

theorem sorted_of_valid {r : Region} (h : r.Valid) : sorted r = r := by
  have hx := h.x
  have hy := h.y
  unfold sorted
  rw [if_neg (by omega),if_neg (by omega)]

theorem translated_zero (r : Region) : r.translated 0 0 = r := by simp [Region.translated]

theorem intersect_of_within {r s : Region} (hr : r.Valid) (h : r.Within s) :
    r.intersect s = some r := by
  have hx := hr.x
  have hy := hr.y
  obtain ⟨h1,h2,h3,h4⟩ := h
  unfold Region.intersect
  rw [if_neg (by omega),if_neg (by omega),if_neg (by omega),if_neg (by omega),if_neg (by omega)]

/-- The accessible area is what is granted of the surface, and the clip is within it and as it was
asked for. -/
structure Right (size : ℤ × ℤ) (v : Surface) (asked : Option Region) : Prop where
  current_eq : ∀ p, v.current.Holds p ↔ v.granted.Holds p ∧ (usable size v.insets).Holds p
  within : ¬ v.current.Empty → v.clip.Within v.current.region
  whole : ¬ v.current.Empty → asked = none → v.clip = v.current.region
  part : ¬ v.current.Empty → ∀ clip ∈ asked, ∀ r, clip.intersect v.current.region = some r →
    v.clip = r

structure Inv (size : ℤ × ℤ) (v : Surface) (asked : Option Region) : Prop where
  current_eq : ∀ p, v.current.Holds p ↔ v.granted.Holds p ∧ (usable size v.insets).Holds p
  regular : v.current.Regular
  wanted : ∀ p, v.granted.Holds p → v.wanted.Holds p
  unlimited : v.limitSet = false → ∀ p, v.granted.Holds p ↔ (usable size v.insets).Holds p
  clipSet : v.clipSet = asked.isSome
  stored : ∀ clip ∈ asked, v.clipWanted = clip ∧ clip.Valid
  whole : ¬ v.current.Empty → asked = none → v.clip = v.current.region
  part : ¬ v.current.Empty → ∀ clip ∈ asked, clip.intersect v.current.region = some v.clip

theorem Inv.right (h : Inv size v asked) : Right size v asked := by
  refine ⟨h.current_eq,fun hne => ?_,h.whole,fun hne clip hc r hr => ?_⟩
  · cases hasked : asked with
    | none =>
      rw [h.whole hne hasked]
      exact ⟨le_rfl,le_rfl,le_rfl,le_rfl⟩
    | some clip => exact (Region.intersect_within (h.part hne clip hasked)).2
  · exact Option.some.inj ((h.part hne clip hc).symm.trans hr)

theorem Inv.wanted_valid (h : Inv size v asked) (hne : ¬ v.current.Empty) :
    v.wanted.region.Valid := by
  have hv := h.regular.valid hne
  obtain ⟨h1,h2,h3,h4⟩ := h.wanted (v.current.x,v.current.y)
    ((h.current_eq _).mp ⟨le_rfl,hv.x,le_rfl,hv.y⟩).1
  exact ⟨h1.trans h2,h3.trans h4⟩

theorem construct_inv (size : ℤ × ℤ) (wanted granted : Option Rect) (insets : Option Insets)
    (sub : Bool) (h : granted = none → wanted = none)
    (hwanted : ∀ w ∈ wanted, ∀ g ∈ granted, ∀ p, g.Holds p → w.Holds p)
    (hsome : granted.isSome → wanted.isSome) :
    Inv size (construct size wanted granted insets sub) none := by
  have hrect (p : ℤ × ℤ) : ((insets.map (usable size)).getD (extents size)).Holds p ↔
      (usable size (insets.getD {})).Holds p := by
    cases insets with
    | none => exact (subtract_nothing _ p).symm
    | some insets => exact Iff.rfl
  refine ⟨fun p => ?_,intersect_regular _ _,fun p hp => ?_,fun hlimit p => ?_,rfl,by simp,
    fun hne _ => ?_,by simp⟩
  · simp only [construct]
    rw [intersect_holds,hrect]
  · cases granted with
    | none => exact hp
    | some g =>
      obtain ⟨w,rfl⟩ := Option.isSome_iff_exists.mp (hsome rfl)
      exact hwanted w rfl g rfl p hp
  · obtain rfl : granted = none := by simpa [construct] using hlimit
    obtain rfl := h rfl
    exact hrect p
  · exact clip_eq_region hne

variable {rect : Option Rect} {p : ℤ × ℤ}

theorem part_holds {area : Rect × Rect} (h : v.part rect = some area) (hp : area.2.Holds p) : v.granted.Holds p := by
  unfold Surface.part at h
  split_ifs at h
  obtain rfl := Option.some.inj h
  exact ((intersect_holds _ _ p).mp hp).2

theorem part_wanted {area : Rect × Rect} (h : v.part rect = some area) (hp : area.2.Holds p) : area.1.Holds p := by
  unfold Surface.part at h
  split_ifs at h
  obtain rfl := Option.some.inj h
  exact ((intersect_holds _ _ p).mp hp).1

theorem getSubSurface_inv (size : ℤ × ℤ) (v : Surface) (rect : Option Rect) :
    Inv size (getSubSurface size v rect) none := by
  unfold getSubSurface
  cases hpart : v.part rect with
  | none => exact construct_inv _ _ _ _ _ (fun _ => rfl) (fun _ h => nomatch h) (fun h => nomatch h)
  | some area =>
    refine construct_inv _ _ _ _ _ (fun h => nomatch h) ?_ (fun _ => rfl)
    rintro _ ⟨⟩ _ ⟨⟩ p hp
    exact part_wanted hpart hp

theorem part_eq_none (h : v.part rect = none) : rect = none ∧ v.limitSet = false := by
  unfold Surface.part at h
  split_ifs at h with hc
  simpa using hc

theorem getSubSurface_granted (h : Inv size v asked) (rect : Option Rect)
    (hp : (getSubSurface size v rect).granted.Holds p) : v.granted.Holds p := by
  unfold getSubSurface at hp
  cases hpart : v.part rect with
  | none =>
    rw [hpart] at hp
    exact (h.unlimited (part_eq_none hpart).2 p).mpr hp
  | some area =>
    rw [hpart] at hp
    exact part_holds hpart hp

def Given (size : ℤ × ℤ) (source : Surface) (p : ℤ × ℤ) : Option Rect → Prop
  | some r => 0 < r.w ∧ 0 < r.h ∧ r.Holds (p.1-source.wanted.x,p.2-source.wanted.y) ∧
    source.granted.Holds p
  | none => if source.limitSet then source.wanted.Holds p ∧ source.granted.Holds p
    else (extents size).Holds p

theorem makeSubSurface_holds (size : ℤ × ℤ) (v source : Surface) (rect : Option Rect) (p : ℤ × ℤ) :
    (makeSubSurface size v source rect).granted.Holds p ↔ Given size source p rect := by
  cases rect with
  | none =>
    cases hlimit : source.limitSet with
    | false => simp [makeSubSurface,Surface.part,Given,hlimit]
    | true => simp [makeSubSurface,Surface.part,Given,hlimit,intersect_holds]
  | some r =>
    have hpart : (makeSubSurface size v source (some r)).granted.Holds p ↔
        (if r.w ≤ 0 ∨ r.h ≤ 0 then (⟨r.x+source.wanted.x,r.y+source.wanted.y,0,0⟩ : Rect)
        else ⟨r.x+source.wanted.x,r.y+source.wanted.y,r.w,r.h⟩).Holds p ∧
        source.granted.Holds p := by
      simp [makeSubSurface,Surface.part,intersect_holds]
    rw [hpart,Given,← and_assoc,← and_assoc]
    refine and_congr_left fun _ => ?_
    split_ifs with h <;> simp only [Rect.Holds,Region.Contains,Rect.region] <;> omega

/-- A part is made of an interface that has no clip set, none of whose insets cut what it is given,
and which follows the size of the surface only where it is given all of it. -/
structure PartKept (size : ℤ × ℤ) (v source : Surface) (rect : Option Rect) : Prop where
  clipSet : v.clipSet = false
  unlimited : v.limitSet = false → ∀ p, Given size source p rect ↔ (usable size v.insets).Holds p
  insets : ∀ p, Given size source p rect → ((extents size).Holds p ↔ (usable size v.insets).Holds p)
  source_insets : rect = none → source.limitSet = false →
    ∀ p, (extents size).Holds p → (usable size source.insets).Holds p

theorem makeSubSurface_inv {source : Surface}
    (hk : PartKept size v source rect) : Inv size (makeSubSurface size v source rect) none := by
  have hgiven := makeSubSurface_holds size v source rect
  refine ⟨fun p => ?_,intersect_regular _ _,fun p hp => ?_,fun hlimit p => ?_,hk.clipSet,by simp,
    fun hne _ => ?_,by simp⟩
  · have hcurrent : (makeSubSurface size v source rect).current.Holds p ↔
        (makeSubSurface size v source rect).granted.Holds p ∧ (extents size).Holds p :=
      intersect_holds _ _ p
    rw [hcurrent]
    exact and_congr_right fun hg => hk.insets p ((hgiven p).mp hg)
  · unfold makeSubSurface at hp ⊢
    dsimp only at hp ⊢
    cases hpart : source.part rect with
    | none =>
      rw [hpart] at hp
      exact hp
    | some area =>
      rw [hpart] at hp
      exact part_wanted hpart hp
  · exact (hgiven p).trans (hk.unlimited hlimit p)
  · exact clip_eq_region hne

theorem makeSubSurface_granted {source : Surface} {sourceAsked : Option Region}
    (h : Inv size source sourceAsked) (hk : PartKept size v source rect) (hp : (makeSubSurface size v source rect).granted.Holds p) :
    source.granted.Holds p := by
  cases hpart : source.part rect with
  | none =>
    obtain ⟨hrect,hlimit⟩ := part_eq_none hpart
    have hfull : (extents size).Holds p := by
      simpa only [makeSubSurface,hpart,Option.getD_none] using hp
    exact (h.unlimited hlimit p).mpr (hk.source_insets hrect hlimit p hfull)
  | some area =>
    have hgranted : area.2.Holds p := by
      simpa only [makeSubSurface,hpart,Option.getD_some] using hp
    exact part_holds hpart hgranted

def ClipKept (v : Surface) (clip : Option Region) : Prop :=
  ∀ r ∈ clip, ¬ v.current.Empty → ∀ newclip,
    (sorted (r.translated v.wanted.x v.wanted.y)).intersect v.wanted.region = some newclip →
    (newclip.intersect v.current.region).isSome

theorem setClip_inv (h : Inv size v asked) {clip : Option Region} (hk : ClipKept v clip) :
    Inv size (setClip v clip).2 (askedAfter v clip asked) := by
  unfold askedAfter
  by_cases hempty : v.current.Empty
  · have heq : setClip v clip = (.invArea,v) := if_pos hempty
    rw [heq,if_neg DirectResult.noConfusion]
    exact h
  cases clip with
  | none =>
    have heq : setClip v none = (.ok,{v with clip := v.current.region, clipSet := false}) := by
      rw [setClip,if_neg hempty]
    rw [heq,if_pos rfl]
    exact ⟨h.current_eq,h.regular,h.wanted,h.unlimited,rfl,by simp,fun _ _ => rfl,by simp⟩
  | some r =>
    cases hw : (sorted (r.translated v.wanted.x v.wanted.y)).intersect v.wanted.region with
    | none =>
      have heq : setClip v (some r) = (.invArg,v) := by
        rw [setClip,if_neg hempty]
        simp only [hw]
      rw [heq,if_neg DirectResult.noConfusion]
      exact h
    | some newclip =>
      obtain ⟨c,hc⟩ := Option.isSome_iff_exists.mp (hk r rfl hempty newclip hw)
      have heq : setClip v (some r) =
          (.ok,{v with clipSet := true, clipWanted := newclip, clip := c}) := by
        rw [setClip,if_neg hempty]
        simp only [hw,hc]
      rw [heq,if_pos rfl]
      refine ⟨h.current_eq,h.regular,h.wanted,h.unlimited,rfl,fun clip hclip => ?_,by simp,
        fun _ clip hclip => ?_⟩
      · obtain rfl := Option.some.inj hclip
        exact ⟨rfl,(sorted_valid _).intersect (h.wanted_valid hempty) hw⟩
      · obtain rfl := Option.some.inj hclip
        exact hc

def Surface.areas (v : Surface) (size : ℤ × ℤ) : Rect × Rect :=
  if v.limitSet then (v.wanted,v.granted) else (usable size v.insets,usable size v.insets)

/-- A sub surface that follows the size keeps it, and a clip that is set lies within the wanted
area, which has no offset, and meets the accessible one, where there is any. -/
structure ResizeKept (v : Surface) (size : ℤ × ℤ) : Prop where
  granted : v.sub = true → v.limitSet = false → usable size v.insets = v.granted
  clip : v.clipSet = true → ∀ p, (v.areas size).2.Holds p → (usable size v.insets).Holds p →
    (v.areas size).1.x = 0 ∧ (v.areas size).1.y = 0 ∧
    v.clipWanted.Within (v.areas size).1.region ∧
    ∃ q, v.clipWanted.Contains q ∧ (v.areas size).2.Holds q ∧ (usable size v.insets).Holds q

theorem resized_eq (v : Surface) (size : ℤ × ℤ) :
    (v.resized size).wanted = (v.areas size).1 ∧ (v.resized size).granted = (v.areas size).2 ∧
    (v.resized size).insets = v.insets ∧ (v.resized size).limitSet = v.limitSet ∧
    (v.resized size).clipSet = v.clipSet ∧ (v.resized size).clipWanted = v.clipWanted ∧
    (v.resized size).sub = v.sub := by
  unfold Surface.resized Surface.areas
  split_ifs <;> exact ⟨rfl,rfl,rfl,rfl,rfl,rfl,rfl⟩

theorem resized_current (v : Surface) (size : ℤ × ℤ) (p : ℤ × ℤ) :
    (v.resized size).current.Holds p ↔ (v.areas size).2.Holds p ∧ (usable size v.insets).Holds p := by
  unfold Surface.resized Surface.areas
  split_ifs
  · exact intersect_holds _ _ p
  · exact (and_self_iff).symm

theorem resized_regular (v : Surface) (size : ℤ × ℤ) : (v.resized size).current.Regular := by
  unfold Surface.resized
  split_ifs
  · exact intersect_regular _ _
  · exact subtract_regular _ _

theorem setClip_eq (v : Surface) (clip : Option Region) :
    ∃ c b w, (setClip v clip).2 = {v with clip := c, clipSet := b, clipWanted := w} := by
  unfold setClip
  split_ifs
  · exact ⟨v.clip,v.clipSet,v.clipWanted,rfl⟩
  · cases clip with
    | none => exact ⟨_,_,v.clipWanted,rfl⟩
    | some r =>
      dsimp only
      split
      · exact ⟨v.clip,v.clipSet,v.clipWanted,rfl⟩
      · split
        · exact ⟨v.clip,_,_,rfl⟩
        · exact ⟨_,_,_,rfl⟩

theorem setClip_granted (v : Surface) (clip : Option Region) :
    (setClip v clip).2.granted = v.granted ∧ (setClip v clip).2.sub = v.sub := by
  obtain ⟨c,b,w,h⟩ := setClip_eq v clip
  rw [h]
  exact ⟨rfl,rfl⟩

def clipAgain (v : Surface) : Option Region := if v.clipSet then some v.clipWanted else none

theorem listener_eq (v : Surface) (size : ℤ × ℤ) :
    listener v size = (setClip (v.resized size) (clipAgain (v.resized size))).2 := rfl

structure Resized (size : ℤ × ℤ) (v : Surface) (asked : Option Region) : Prop where
  current_eq : ∀ p, v.current.Holds p ↔ v.granted.Holds p ∧ (usable size v.insets).Holds p
  regular : v.current.Regular
  wanted : ∀ p, v.granted.Holds p → v.wanted.Holds p
  unlimited : v.limitSet = false → ∀ p, v.granted.Holds p ↔ (usable size v.insets).Holds p
  clipSet : v.clipSet = asked.isSome
  stored : ∀ clip ∈ asked, v.clipWanted = clip ∧ clip.Valid

theorem resized_spec {old : ℤ × ℤ} (h : Inv old v asked) (size : ℤ × ℤ) :
    Resized size (v.resized size) asked := by
  obtain ⟨hwanted,hgranted,hinsets,hlimit,hset,hclip,-⟩ := resized_eq v size
  refine ⟨fun p => ?_,resized_regular v size,fun p hp => ?_,fun hl p => ?_,hset.trans h.clipSet,
    fun clip hc => ⟨hclip.trans (h.stored clip hc).1,(h.stored clip hc).2⟩⟩
  · rw [hgranted,hinsets]
    exact resized_current v size p
  · rw [hgranted] at hp
    rw [hwanted]
    unfold Surface.areas at hp ⊢
    split_ifs at hp ⊢
    · exact h.wanted p hp
    · exact hp
  · rw [hlimit] at hl
    rw [hgranted,hinsets]
    simp only [Surface.areas,hl]
    exact Iff.rfl

/-- Setting the clip that was set once more leaves it as it was asked for, where it is neither moved
nor cut nor refused. -/
theorem setClip_again (h : Resized size v asked) (hclip : ¬ v.current.Empty → v.clipSet = true →
      v.wanted.x = 0 ∧ v.wanted.y = 0 ∧ v.clipWanted.Within v.wanted.region ∧
      ∃ q, v.clipWanted.Contains q ∧ v.current.Holds q) :
    Inv size (setClip v (clipAgain v)).2 asked := by
  by_cases hempty : v.current.Empty
  · have heq : setClip v (clipAgain v) = (.invArea,v) := if_pos hempty
    rw [heq]
    exact ⟨h.current_eq,h.regular,h.wanted,h.unlimited,h.clipSet,h.stored,
      fun hne _ => absurd hempty hne,fun hne => absurd hempty hne⟩
  cases asked with
  | none =>
    have hset : v.clipSet = false := h.clipSet
    have heq : setClip v (clipAgain v) =
        (.ok,{v with clip := v.current.region, clipSet := false}) := by
      rw [clipAgain,if_neg (by simp [hset]),setClip,if_neg hempty]
    rw [heq]
    exact ⟨h.current_eq,h.regular,h.wanted,h.unlimited,rfl,by simp,fun _ _ => rfl,by simp⟩
  | some clip =>
    have hset : v.clipSet = true := h.clipSet
    obtain ⟨rfl,hvalid⟩ := h.stored clip rfl
    obtain ⟨hx,hy,hwithin,q,hq,hcq⟩ := hclip hempty hset
    have hwanted : (sorted (v.clipWanted.translated v.wanted.x v.wanted.y)).intersect
        v.wanted.region = some v.clipWanted := by
      rw [hx,hy,translated_zero,sorted_of_valid hvalid,intersect_of_within hvalid hwithin]
    obtain ⟨c,hc⟩ : ∃ c, v.clipWanted.intersect v.current.region = some c := by
      refine Option.ne_none_iff_exists'.mp fun hnone => ?_
      exact Region.not_contains_of_intersect hnone hq hcq
    have heq : setClip v (clipAgain v) =
        (.ok,{v with clipSet := true, clipWanted := v.clipWanted, clip := c}) := by
      rw [clipAgain,if_pos hset,setClip,if_neg hempty]
      simp only [hwanted,hc]
    rw [heq]
    refine ⟨h.current_eq,h.regular,h.wanted,h.unlimited,rfl,h.stored,by simp,fun _ clip hclip => ?_⟩
    obtain rfl := Option.some.inj hclip
    exact hc

theorem listener_inv {old : ℤ × ℤ} (h : Inv old v asked) (hk : ResizeKept v size) :
    Inv size (listener v size) asked := by
  obtain ⟨hwanted,-,-,-,hset,hclip,-⟩ := resized_eq v size
  rw [listener_eq]
  refine setClip_again (resized_spec h size) fun hne hs => ?_
  rw [hset] at hs
  rw [hwanted,hclip]
  have hvalid := (resized_regular v size).valid hne
  obtain ⟨hg,hu⟩ := (resized_current v size
    ((v.resized size).current.x,(v.resized size).current.y)).mp ⟨le_rfl,hvalid.x,le_rfl,hvalid.y⟩
  obtain ⟨hx,hy,hwithin,q,hq,hgq,huq⟩ := hk.clip hs _ hg hu
  exact ⟨hx,hy,hwithin,q,hq,(resized_current v size q).mpr ⟨hgq,huq⟩⟩

theorem listener_granted (hk : ResizeKept v size) (hsub : v.sub = true) :
    (listener v size).granted = v.granted := by
  rw [listener_eq,(setClip_granted _ _).1,(resized_eq v size).2.1]
  unfold Surface.areas
  split_ifs with hlimit
  · rfl
  · exact hk.granted hsub (by simpa using hlimit)

end Areas

section Run

variable {ι : Type*} [DecidableEq ι] {x y : State ι}

def Initial (x : State ι) : Prop := ∀ i, x.surfaces i = none

def Kept (x : State ι) : Event ι → Prop
  | .makeSubSurface i source rect => ∀ v ∈ x.surfaces i, ∀ w ∈ x.surfaces source,
    PartKept x.size v w rect
  | .setClip i clip => ∀ v ∈ x.surfaces i, ClipKept v clip
  | .resize size => ∀ i, ∀ v ∈ x.surfaces i, ResizeKept v size
  | _ => True

def AllInv (x : State ι) : Prop := ∀ i, ∀ v ∈ x.surfaces i, Inv x.size v (x.asked i)

theorem put_inv (h : AllInv x) {i : ι} {v : Surface} (hv : Inv x.size v none) :
    AllInv (x.put i v) := by
  intro j w hw
  by_cases hj : j = i
  · subst hj
    simp only [State.put,update_self,Option.mem_some_iff] at hw ⊢
    exact hw ▸ hv
  · simp only [State.put,update_of_ne hj] at hw ⊢
    exact h j w hw

theorem step_inv {e : Event ι} (h : AllInv x) (hk : Kept x e) (hs : step x e = some y) :
    AllInv y := by
  cases e with
  | construct i insets =>
    obtain ⟨-,hs⟩ := Option.ite_none_left_eq_some.mp hs
    obtain rfl := Option.some.inj hs
    exact put_inv h (construct_inv _ _ _ _ _ (fun _ => rfl) (fun _ h => nomatch h)
      (fun h => nomatch h))
  | getSubSurface parent i rect =>
    obtain ⟨-,hs⟩ := Option.ite_none_left_eq_some.mp hs
    obtain ⟨v,-,rfl⟩ := Option.map_eq_some_iff.mp hs
    exact put_inv h (getSubSurface_inv _ _ _)
  | makeSubSurface i source rect =>
    obtain ⟨v,hv,hs⟩ := Option.bind_eq_some_iff.mp hs
    obtain ⟨w,hw,rfl⟩ := Option.map_eq_some_iff.mp hs
    exact put_inv h (makeSubSurface_inv (hk v hv w hw))
  | setClip i clip =>
    obtain ⟨v,hv,rfl⟩ := Option.map_eq_some_iff.mp hs
    intro j w hw
    by_cases hj : j = i
    · subst hj
      simp only [update_self,Option.mem_some_iff] at hw ⊢
      exact hw ▸ setClip_inv (h j v hv) (hk v hv)
    · simp only [update_of_ne hj] at hw ⊢
      exact h j w hw
  | resize size =>
    obtain rfl := Option.some.inj hs
    intro i w hw
    obtain ⟨v,hv,rfl⟩ := Option.map_eq_some_iff.mp hw
    exact listener_inv (h i v hv) (hk i v hv)

theorem reaches_inv (h : Reaches step Kept Initial x) : AllInv x := by
  refine h.invariant AllInv (fun s hs i v hv => ?_) fun s e t hinv hk hs => step_inv hinv hk hs
  rw [hs i] at hv
  exact absurd hv (by simp)

/-- A step keeps what is granted to the sub surfaces, and grants a new one what its parent has. -/
structure Grants (x : State ι) (e : Event ι) (y : State ι) : Prop where
  getSubSurface : ∀ parent i rect, e = .getSubSurface parent i rect →
    ∀ v ∈ x.surfaces parent, ∃ w, y.surfaces i = some w ∧ w.sub = true ∧
      ∀ p, w.granted.Holds p → v.granted.Holds p
  makeSubSurface : ∀ i source rect, e = .makeSubSurface i source rect →
    ∀ v ∈ x.surfaces source, ∃ w, y.surfaces i = some w ∧ w.sub = true ∧
      ∀ p, w.granted.Holds p → v.granted.Holds p
  kept : ∀ i, (∀ source rect, e ≠ .makeSubSurface i source rect) →
    ∀ v ∈ x.surfaces i, v.sub = true → ∃ w, y.surfaces i = some w ∧ w.sub = true ∧
      w.granted = v.granted

theorem put_of_ne {i j : ι} (h : j ≠ i) (v : Surface) :
    (x.put i v).surfaces j = x.surfaces j := update_of_ne h _ _

theorem put_self (i : ι) (v : Surface) : (x.put i v).surfaces i = some v :=
  update_self _ _ _

theorem listener_sub (v : Surface) (size : ℤ × ℤ) : (listener v size).sub = v.sub := by
  rw [listener_eq,(setClip_granted _ _).2]
  exact (resized_eq v size).2.2.2.2.2.2

theorem step_grants {e : Event ι} (h : AllInv x) (hk : Kept x e) (hs : step x e = some y) :
    Grants x e y := by
  cases e with
  | construct i insets =>
    obtain ⟨hfree,hs⟩ := Option.ite_none_left_eq_some.mp hs
    obtain rfl := Option.some.inj hs
    refine ⟨fun _ _ _ he => (nomatch he),fun _ _ _ he => (nomatch he),fun j _ v hv hsub => ?_⟩
    have hj : j ≠ i := fun hj => hfree (by rw [← hj,hv]; rfl)
    exact ⟨v,(put_of_ne hj _).trans hv,hsub,rfl⟩
  | getSubSurface parent i rect =>
    obtain ⟨hfree,hs⟩ := Option.ite_none_left_eq_some.mp hs
    obtain ⟨w,hw,rfl⟩ := Option.map_eq_some_iff.mp hs
    refine ⟨fun _ _ _ he v hv => ?_,fun _ _ _ he => (nomatch he),fun j _ v hv hsub => ?_⟩
    · cases he
      obtain rfl : w = v := Option.some.inj (hw.symm.trans hv)
      refine ⟨_,put_self _ _,?_,fun p hp => getSubSurface_granted (h _ _ hv) rect hp⟩
      unfold getSubSurface
      split <;> rfl
    · have hj : j ≠ i := fun hj => hfree (by rw [← hj,hv]; rfl)
      exact ⟨v,(put_of_ne hj _).trans hv,hsub,rfl⟩
  | makeSubSurface i source rect =>
    obtain ⟨v,hv,hs⟩ := Option.bind_eq_some_iff.mp hs
    obtain ⟨w,hw,rfl⟩ := Option.map_eq_some_iff.mp hs
    refine ⟨fun _ _ _ he => (nomatch he),fun _ _ _ he u hu => ?_,fun j hne u hu hsub => ?_⟩
    · cases he
      obtain rfl : w = u := Option.some.inj (hw.symm.trans hu)
      exact ⟨_,put_self _ _,rfl,fun p hp =>
        makeSubSurface_granted (h _ _ hu) (hk v hv w hu) hp⟩
    · have hj : j ≠ i := fun hj => hne source rect (by rw [hj])
      exact ⟨u,(put_of_ne hj _).trans hu,hsub,rfl⟩
  | setClip i clip =>
    obtain ⟨v,hv,rfl⟩ := Option.map_eq_some_iff.mp hs
    refine ⟨fun _ _ _ he => (nomatch he),fun _ _ _ he => (nomatch he),fun j _ u hu hsub => ?_⟩
    by_cases hj : j = i
    · subst hj
      obtain rfl : v = u := Option.some.inj (hv.symm.trans hu)
      obtain ⟨hg,hsub'⟩ := setClip_granted v clip
      exact ⟨_,update_self _ _ _,hsub'.trans hsub,hg⟩
    · exact ⟨u,(update_of_ne hj _ _).trans hu,hsub,rfl⟩
  | resize size =>
    obtain rfl := Option.some.inj hs
    refine ⟨fun _ _ _ he => (nomatch he),fun _ _ _ he => (nomatch he),fun j _ u hu hsub => ?_⟩
    refine ⟨listener u size,?_,(listener_sub u size).trans hsub, listener_granted (hk j u hu) hsub⟩
    dsimp only
    rw [hu]
    rfl

/-- The interfaces to a surface have their areas and clips, and what is granted to the sub surfaces
is kept. -/
theorem areas_kept (h : Reaches step Kept Initial x) :
    (∀ i, ∀ v ∈ x.surfaces i, Right x.size v (x.asked i)) ∧
    ∀ e y, Kept x e → step x e = some y → Grants x e y := by
  have hinv := reaches_inv h
  exact ⟨fun i v hv => (hinv i v hv).right,fun e y hk hs => step_grants hinv hk hs⟩

end Run

def blank : State Bool := ⟨(100,100),fun _ => none,fun _ => none⟩

def withPart (x y : ℤ) : State Bool :=
  (exec step blank [.construct false none,.getSubSurface false true (some ⟨x,y,50,50⟩)]).getD blank

def clipped (x y : ℤ) : State Bool :=
  (step (withPart x y) (.setClip true (some ⟨5,5,14,14⟩))).getD blank

def shrunk (x y : ℤ) : State Bool := (step (clipped x y) (.resize (80,80))).getD blank

/-- The part at the origin keeps its clip as the surface shrinks. -/
theorem part_keeps_clip : ∃ v ∈ (shrunk 0 0).surfaces true, Right (80,80) v (some ⟨5,5,14,14⟩) ∧
    v.clip = ⟨5,5,14,14⟩ ∧ Grants (clipped 0 0) (.resize (80,80)) (shrunk 0 0) := by
  have hwhole : step blank (.construct false none) =
      some (blank.put false (construct (100,100) none none none false)) := rfl
  have hpart : step (blank.put false (construct (100,100) none none none false))
      (.getSubSurface false true (some ⟨0,0,50,50⟩)) = some (withPart 0 0) := rfl
  have hclip : step (withPart 0 0) (.setClip true (some ⟨5,5,14,14⟩)) = some (clipped 0 0) := rfl
  have hshrink : step (clipped 0 0) (.resize (80,80)) = some (shrunk 0 0) := rfl
  have hkclip : Kept (withPart 0 0) (.setClip true (some ⟨5,5,14,14⟩)) := by
    rintro v ⟨⟩ r ⟨⟩ - newclip hnew
    obtain rfl : (⟨5,5,14,14⟩ : Region) = newclip := Option.some.inj hnew
    decide
  have hkshrink : Kept (clipped 0 0) (.resize (80,80)) := by
    rintro (_ | _) v ⟨⟩
    · exact ⟨fun h => (nomatch h),fun h => (nomatch h)⟩
    · refine ⟨fun _ h => (nomatch h),fun _ _ _ _ => ⟨rfl,rfl,by decide,(5,5),?_⟩⟩
      simp only [Rect.Holds]
      decide
  have hmade : Reaches step Kept Initial (withPart 0 0) :=
    .step (.getSubSurface false true (some ⟨0,0,50,50⟩))
      (.step (.construct false none) (.init fun _ => rfl) trivial hwhole) trivial hpart
  have hclipped : Reaches step Kept Initial (clipped 0 0) := .step _ hmade hkclip hclip
  exact ⟨_,rfl,(areas_kept (.step _ hclipped hkshrink hshrink)).1 true _ rfl,rfl,
    (areas_kept hclipped).2 _ _ hkshrink hshrink⟩

/-- The clip of a part that does not start at the origin is moved once more as the surface
shrinks. -/
theorem clip_moved_twice : ∃ x, Reaches step (fun _ _ => True) Initial x ∧ ∃ v ∈ x.surfaces true,
    x.asked true = some ⟨25,25,34,34⟩ ∧ v.current = ⟨20,20,50,50⟩ ∧ v.clip = ⟨45,45,54,54⟩ ∧
    ¬ Right x.size v (x.asked true) := by
  have hmade : exec step blank [.construct false none,
      .getSubSurface false true (some ⟨20,20,50,50⟩)] = some (withPart 20 20) := rfl
  have hpart : Reaches step (fun _ _ => True) Initial (withPart 20 20) :=
    Reaches.exec (.init fun _ => rfl) (fun _ _ => trivial) hmade
  have hclip : step (withPart 20 20) (.setClip true (some ⟨5,5,14,14⟩)) = some (clipped 20 20) := rfl
  have hshrink : step (clipped 20 20) (.resize (80,80)) = some (shrunk 20 20) := rfl
  refine ⟨_,.step _ (.step _ hpart trivial hclip) trivial hshrink,_,rfl,rfl,rfl,rfl,fun h => ?_⟩
  have hmoved : (⟨45,45,54,54⟩ : Region) = ⟨25,25,34,34⟩ := h.part (by decide) _ rfl _ rfl
  exact absurd hmoved (by decide)

end DirectFB.SubSurface
