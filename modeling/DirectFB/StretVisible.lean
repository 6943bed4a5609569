import DirectFB.StretApproach

/-! The visible parts of a region of a stack region tree: what is left of an area when the regions
above, as far as they hide what is below, are cut out one after the other. -/
namespace DirectFB.StretVisible
open StretRegion StretIteration

inductive DFBResult
  | ok | limitExceeded
  deriving DecidableEq

section ClipOut

variable {target : StretRegion} {children : Bool} {p : ℤ × ℤ}

def Hides (v : Visit) (p : ℤ × ℤ) : Prop :=
  .srfOutput ∈ v.region.flags ∧ .srfOpaque ∈ v.region.flags ∧ v.Covers p

instance (v : Visit) (p : ℤ × ℤ) : Decidable (Hides v p) := inferInstanceAs (Decidable (_ ∧ _ ∧ _))

def Hidden (l : List Visit) (p : ℤ × ℤ) : Prop := ∃ v ∈ l, Hides v p

instance (l : List Visit) (p : ℤ × ℤ) : Decidable (Hidden l p) :=
  inferInstanceAs (Decidable (∃ v ∈ l, _))

end ClipOut

section Stacking

variable {target region : StretRegion} {p : ℤ × ℤ} {x0 y0 x y : ℤ} {higher : List Visit}

def later (root region : StretRegion) (children : Bool) : List Visit :=
  ((order root 0 0).takeWhile fun v => v.region.id ≠ region.id).filter fun v =>
    children = true → v.region.id ∉ ids region

end Stacking

section Climb

def Chain : StretRegion → List StretRegion → Prop
  | _, [] => True
  | region, parent::parents => region ∈ parent.childrenDown ∧ Chain parent parents

def rootOf : StretRegion → List StretRegion → StretRegion
  | region, [] => region
  | _, parent::parents => rootOf parent parents

def originX (parents : List StretRegion) : ℤ := (parents.map fun q => q.bounds.x1).sum

def originY (parents : List StretRegion) : ℤ := (parents.map fun q => q.bounds.y1).sum

def Inside (p : ℤ × ℤ) : List StretRegion → Prop
  | [] => True
  | q::parents => (⟨q,originX parents,originY parents⟩ : Visit).Covers p ∧ Inside p parents

/-- The pixel is in the region and the base area and in what is around, all of it is active, and
nothing that comes later in stacking order hides it there. -/
structure Visible (region : StretRegion) (parents : List StretRegion) (base : Option Region)
    (children : Bool) (p : ℤ × ℤ) : Prop where
  covers : (⟨region,originX parents,originY parents⟩ : Visit).Covers p
  base : ∀ b ∈ base, (b.translated (originX parents+region.bounds.x1)
    (originY parents+region.bounds.y1)).Contains p
  inside : Inside p parents
  active : ∀ q ∈ region::parents, .srfActive ∈ q.flags
  not_hidden : ¬ Hidden (later (rootOf region parents) region children) p

variable {region : StretRegion} {parents : List StretRegion} {p : ℤ × ℤ}

theorem intersect_of_within {a c : Region} (ha : a.Valid) (h : a.Within c) : a.intersect c = some a := by
  obtain ⟨h1,h2,h3,h4⟩ := h
  have hx := ha.x
  have hy := ha.y
  rw [Region.intersect,if_neg (by omega),if_neg (by omega),if_neg (by omega),if_neg (by omega),
    if_neg (by omega)]

end Climb

def window (id : ℕ) (bounds : Region) : StretRegion :=
  ⟨id,{.srfActive,.srfOutput,.srfOpaque},bounds,[[]]⟩

def screen (windows : List StretRegion) : StretRegion :=
  ⟨0,{.srfActive,.srfOutput},⟨0,0,9,9⟩,[windows]⟩

end DirectFB.StretVisible
