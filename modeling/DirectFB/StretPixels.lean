import DirectFB.RegionCut
import DirectFB.StretOrder

/-! Pixel by pixel, what an iteration with a clip returns of a tree whose regions are within each
other, and the sides that are left of an area around a part of it. -/
namespace DirectFB

namespace Region

/-- `dfb_region_clip`. -/
def clipTo (region clip : Region) : Region where
  x1 := if region.x1 < clip.x1 then clip.x1 else region.x1
  y1 := if region.y1 < clip.y1 then clip.y1 else region.y1
  x2 := if region.x2 > clip.x2 then clip.x2 else region.x2
  y2 := if region.y2 > clip.y2 then clip.y2 else region.y2

theorem intersect_eq_clipTo {region clip r : Region} (h : region.intersect clip = some r) :
    region.clipTo clip = r := by
  rw [intersect,Option.ite_none_left_eq_some] at h
  exact Option.some.inj h.2

def sides (inner outer : Region) : List Region :=
  (if inner.y1 ≠ outer.y1 then [⟨outer.x1,outer.y1,outer.x2,inner.y1-1⟩] else [])++
  (if inner.x1 ≠ outer.x1 then [⟨outer.x1,inner.y1,inner.x1-1,inner.y2⟩] else [])++
  (if inner.x2 ≠ outer.x2 then [⟨inner.x2+1,inner.y1,outer.x2,inner.y2⟩] else [])++
  (if inner.y2 ≠ outer.y2 then [⟨outer.x1,inner.y2+1,outer.x2,outer.y2⟩] else [])

theorem sides_perm (inner outer : Region) : (sides inner outer).Perm (strips inner outer) := by
  unfold sides strips
  exact (List.perm_append_comm.append_right _).append_right _

theorem flatMap_sides {α : Type*} {inner outer : Region} (hi : inner.Regular)
    (hw : inner.Within outer) {p : ℤ × ℤ} {f : Region → List α} {l : List α}
    (hf : ∀ r ∈ sides inner outer, f r = if r.Contains p then l else []) :
    (sides inner outer).flatMap f = if outer.Contains p ∧ ¬ inner.Contains p then l else [] := by
  have hperm := sides_perm inner outer
  rw [← flatMap_strips_mem hi (fun r hr => hf r (hperm.mem_iff.mpr hr))
    fun r hr hp => (strips_within hi hw r hr).contains hp]
  -- a pixel is not both above and to the left
  have hsides := hf
  unfold sides strips at *
  simp only [List.flatMap_append]
  apply congrArg (·++_)
  apply congrArg (·++_)
  by_cases hp : p.2 < inner.y1
  · have hleft : (if inner.x1 ≠ outer.x1 then [⟨outer.x1,inner.y1,inner.x1-1,inner.y2⟩]
        else []).flatMap f = [] := by
      split_ifs with h
      · rw [List.flatMap_singleton,hsides _ (by simp [h]),if_neg]
        simp only [Contains]
        omega
      · rfl
    rw [hleft,List.append_nil,List.nil_append]
  · have habove : (if inner.y1 ≠ outer.y1 then [⟨outer.x1,outer.y1,outer.x2,inner.y1-1⟩]
        else []).flatMap f = [] := by
      split_ifs with h
      · rw [List.flatMap_singleton,hsides _ (by simp [h]),if_neg]
        simp only [Contains]
        omega
      · rfl
    rw [habove,List.append_nil,List.nil_append]

theorem sides_valid {inner outer : Region} (hi : inner.Valid) (ho : outer.Valid)
    (hw : inner.Within outer) : ∀ r ∈ sides inner outer, r.Valid := by
  intro r hr
  exact strips_valid hi ho hw r ((sides_perm inner outer).mem_iff.mp hr)

end Region

namespace StretRegion

def inside (region : StretRegion) : Region :=
  ⟨0,0,region.bounds.x2-region.bounds.x1,region.bounds.y2-region.bounds.y1⟩

/-- Regions have a size and lie within each other. -/
inductive Nested : StretRegion → Prop
  | intro {region : StretRegion} : region.bounds.Valid →
    (∀ c ∈ region.childrenDown, c.bounds.Within region.inside) →
    (∀ c ∈ region.childrenDown, Nested c) → Nested region

def Visit.Covers (v : Visit) (p : ℤ × ℤ) : Prop :=
  (v.region.bounds.translated v.x0 v.y0).Contains p

instance (v : Visit) (p : ℤ × ℤ) : Decidable (v.Covers p) :=
  inferInstanceAs (Decidable (Region.Contains _ _))

theorem Shown.covers {region : StretRegion} {x0 y0 : ℤ} {v : Visit} (h : Shown region x0 y0 v)
    (hn : Nested region) {p : ℤ × ℤ} (hp : v.Covers p) :
    (region.bounds.translated x0 y0).Contains p := by
  induction h with
  | self => exact hp
  | @child region c l x0 y0 v hactive hl hc hv ih =>
    obtain ⟨hvalid,hwithin,hchildren⟩ := hn
    have hmem := mem_childrenDown.mpr ⟨l,hl,hc⟩
    have hpc := ih (hchildren c hmem) hp
    obtain ⟨h1,h2,h3,h4⟩ := hwithin c hmem
    simp only [Region.Contains,Region.translated,inside] at *
    omega

end StretRegion

namespace StretIteration
open StretRegion

def Item.Neat : Item → Prop
  | .enter region _ _ => Nested region
  | .leave region _ _ => region.bounds.Valid

def Neat (items : List Item) : Prop := ∀ item ∈ items, item.Neat

variable {items : List Item} {region : StretRegion} {x0 y0 : ℤ} {area : Region} {p : ℤ × ℤ}

theorem Neat.tail {item : Item} (h : Neat (item::items)) : Neat items :=
  fun i hi => h i (List.mem_cons_of_mem _ hi)

theorem Neat.within (h : Nested region) {l : List StretRegion}
    (hl : ∀ c ∈ l, c ∈ region.childrenDown) {rest : List Item} (hrest : Neat rest) :
    Neat (within l region x0 y0++rest) := by
  intro item hitem
  obtain ⟨hvalid,-,hchildren⟩ := h
  simp only [StretIteration.within,List.mem_append,List.mem_map,List.mem_singleton] at hitem
  rcases hitem with (⟨c,hc,rfl⟩ | rfl) | hitem
  · exact hchildren c (hl c hc)
  · exact hvalid
  · exact hrest item hitem

theorem Neat.nested {rest : List Item}
    (h : Neat (.enter region x0 y0::rest)) : Nested region := h _ List.mem_cons_self

theorem Yields.returned {clip : Option Region} {abort : Option ℕ}
    {r : Option (Visit × List Item)} (h : Yields clip abort items r) (hneat : Neat items) :
    ∀ v rest, r = some (v,rest) → v.region.bounds.Valid ∧
      acceptRegion v.region v.x0 v.y0 clip = true ∧ Neat rest := by
  induction h with
  | ended => nofun
  | abort => nofun
  | skip _ _ _ ih => exact ih hneat.tail
  | enter _ _ _ ih => exact ih (.within hneat.nested (fun _ => id) hneat.tail)
  | leave haccept =>
    rintro v rest ⟨⟩
    exact ⟨hneat _ List.mem_cons_self,haccept,hneat.tail⟩
  | pass _ _ ih => exact ih hneat.tail

def covering (p : ℤ × ℤ) (items : List Item) : List Visit := (seen items).filter fun v => v.Covers p

theorem not_covers_of_reject (hp : area.Contains p) {v : Visit}
    (haccept : acceptRegion v.region v.x0 v.y0 (some area) = false)
    (hactive : .srfActive ∈ v.region.flags) : ¬ v.Covers p := by
  simp only [acceptRegion,hactive,true_and,Option.mem_some_iff,forall_eq',
    decide_eq_false_iff_not,Bool.not_eq_true,Option.isSome_eq_false_iff,
    Option.isNone_iff_eq_none] at haccept
  exact Region.not_contains_of_intersect haccept hp

theorem filter_order_of_reject (hp : area.Contains p) (hn : Nested region)
    (haccept : acceptRegion region x0 y0 (some area) = false) :
    ((order region x0 y0).filter fun v => v.Covers p) = [] := by
  rw [List.filter_eq_nil_iff]
  intro v hv hcovers
  have hactive : .srfActive ∈ region.flags := by
    by_contra hno
    rw [order_eq_nil.mpr hno] at hv
    cases hv
  exact @not_covers_of_reject area p hp ⟨region,x0,y0⟩ haccept hactive
    ((mem_order.mp hv).covers hn (of_decide_eq_true hcovers))

theorem active_of_accept {clip : Option Region}
    (h : acceptRegion region x0 y0 clip = true) : .srfActive ∈ region.flags := by
  simp only [acceptRegion,decide_eq_true_eq] at h
  exact h.1

theorem seen_enter_active (h : .srfActive ∈ region.flags) (x0 y0 : ℤ)
    (rest : List Item) : seen (.enter region x0 y0::rest) =
      seen (within region.childrenDown region x0 y0++rest) := by
  rw [seen_append,seen_within,seen,order_eq,if_pos h,if_pos h]

/-- What an iteration passes over has no part in a pixel of the clip. -/
theorem Yields.covering_eq (hp : area.Contains p)
    {r : Option (Visit × List Item)} (h : Yields (some area) none items r) (hneat : Neat items) :
    covering p items =
      r.elim [] fun (v,rest) => if v.Covers p then v::covering p rest else covering p rest := by
  induction h with
  | ended => rfl
  | abort h => cases h
  | skip _ haccept hy ih =>
    rw [← ih hneat.tail,covering,seen,List.filter_append,
      filter_order_of_reject hp hneat.nested haccept]
    rfl
  | enter _ haccept hy ih =>
    rw [← ih (.within hneat.nested (fun _ => id) hneat.tail),covering,covering,
      seen_enter_active (active_of_accept haccept)]
  | leave haccept =>
    simp only [covering,seen,if_pos (active_of_accept haccept),Option.elim,List.filter_cons,
      decide_eq_true_eq]
  | @pass region x0 y0 rest r haccept hy ih =>
    rw [← ih hneat.tail,covering,seen]
    split_ifs with hactive
    · rw [List.filter_cons_of_neg]
      · rfl
      · exact fun hcov => @not_covers_of_reject area p hp ⟨region,x0,y0⟩ haccept hactive
          (of_decide_eq_true hcov)
    · rfl

theorem Neat.nil : Neat [] := by simp [Neat]

theorem Neat.append {l l' : List Item} (h : Neat l) (h' : Neat l') : Neat (l++l') := by
  intro item hitem
  exact (List.mem_append.mp hitem).elim (h item) (h' item)

theorem Neat.own (h : Nested region) {l : List StretRegion}
    (hl : ∀ c ∈ l, c ∈ region.childrenDown) (x0 y0 : ℤ) :
    Neat (StretIteration.within l region x0 y0) := by
  rw [← List.append_nil (StretIteration.within l region x0 y0)]
  exact .within h hl .nil

/-- The descent leaves nothing to be entered but what is within what was. -/
theorem descent_neat (h : Nested region) (x0 y0 : ℤ) (left : ℕ) :
    Neat (descent region x0 y0 left) := by
  induction left generalizing region x0 y0 with
  | zero => exact .own h (fun _ => id) x0 y0
  | succ left ih =>
    rw [descent]
    cases hc : lastChild region with
    | none => exact .own h (fun _ => id) x0 y0
    | some child =>
      dsimp only
      split_ifs
      · have hchildren := childrenDown_of_lastChild hc
        have hchild : Nested child := by
          obtain ⟨-,-,hnested⟩ := h
          exact hnested child (hchildren ▸ List.mem_cons_self)
        exact (ih hchild _ _).append
          (.own h (fun c hc => hchildren ▸ List.mem_cons_of_mem _ hc) x0 y0)
      · exact .own h (fun _ => id) x0 y0

end StretIteration

theorem mapM_forall₂ {α β : Type*} {f : α → Option β} {r : α → β → Prop} {l : List α}
    (h : ∀ a ∈ l, ∃ b, f a = some b ∧ r a b) : ∃ bs, l.mapM f = some bs ∧ List.Forall₂ r l bs := by
  induction l with
  | nil => exact ⟨[],rfl,.nil⟩
  | cons a l ih =>
    obtain ⟨b,hb,hr⟩ := h a List.mem_cons_self
    obtain ⟨bs,hbs,hrs⟩ := ih fun a ha => h a (List.mem_cons_of_mem _ ha)
    refine ⟨b::bs,?_,.cons hr hrs⟩
    rw [List.mapM_cons,hb,hbs]
    rfl

theorem flatten_forall₂ {α β γ : Type*} {f : α → List γ} {g : List β → List γ}
    (hnil : g [] = []) (happend : ∀ l l', g (l++l') = g l++g l') {l : List α} {bs : List (List β)}
    (h : List.Forall₂ (fun a b => g b = f a) l bs) : g bs.flatten = l.flatMap f := by
  induction h with
  | nil => exact hnil
  | cons h _ ih => rw [List.flatten_cons,happend,h,ih,List.flatMap_cons]

end DirectFB
