import DirectFB.Region

/-! A bounded set of regions to be updated. Regions that meet are joined, and where there
is no room for another all become one. -/
namespace DirectFB
open Function (update update_of_ne update_self)

namespace Region

/-- `dfb_region_region_intersects` -/
def intersects (region other : Region) : Bool :=
  region.x1 ≤ other.x2 && region.y1 ≤ other.y2 && other.x1 ≤ region.x2 && other.y1 ≤ region.y2

/-- `dfb_region_region_extends` -/
def regionExtends (a b : Region) : Bool :=
  if a.x1 = b.x1 ∧ a.x2 = b.x2 then a.y1 = b.y2-1 || a.y2 = b.y1-1
  else if a.y1 = b.y1 ∧ a.y2 = b.y2 then a.x1 = b.x2-1 || a.x2 = b.x1-1
  else false

/-- `dfb_region_region_union` -/
def union (region other : Region) : Region where
  x1 := if region.x1 > other.x1 then other.x1 else region.x1
  y1 := if region.y1 > other.y1 then other.y1 else region.y1
  x2 := if region.x2 < other.x2 then other.x2 else region.x2
  y2 := if region.y2 < other.y2 then other.y2 else region.y2

theorem within_union_left (r s : Region) : r.Within (r.union s) := by
  constructor <;> simp only [union] <;> split_ifs <;> omega

theorem within_union_right (r s : Region) : s.Within (r.union s) := by
  constructor <;> simp only [union] <;> split_ifs <;> omega

end Region

/-- `DFBUpdates`. Of the array of regions the first `num` count. -/
structure Updates where
  regions : ℕ → Region
  max : ℕ
  num : ℕ
  bounding : Region

namespace Updates

/-- `dfb_updates_reset` -/
def reset (u : Updates) : Updates := {u with num := 0}

/-- `dfb_updates_add` -/
def add (u : Updates) (region : Region) : Updates :=
  if u.num = 0 then
    {u with regions := update u.regions 0 region, bounding := region, num := 1}
  else
    let meets := fun i => (u.regions i).regionExtends region || (u.regions i).intersects region
    let bounding := u.bounding.union region
    match (List.range u.num).find? meets with
    | some i => {u with
        regions := update u.regions i ((u.regions i).union region)
        bounding := bounding}
    | none =>
      if u.num = u.max then
        {u with regions := update u.regions 0 bounding, bounding := bounding, num := 1}
      else {u with
        regions := update u.regions u.num region
        bounding := bounding
        num := u.num+1}

def Covers (u : Updates) (p : ℤ × ℤ) : Prop := ∃ i < u.num, (u.regions i).Contains p

structure Good (u : Updates) : Prop where
  bounded : ∀ i < u.num, (u.regions i).Within u.bounding
  num_le : u.num ≤ u.max
  max_pos : 0 < u.max

theorem Good.reset {u : Updates} (h : u.Good) : u.reset.Good :=
  ⟨fun i hi => absurd hi (Nat.not_lt_zero i),Nat.zero_le _,h.max_pos⟩

theorem add_num_pos (u : Updates) (region : Region) : 0 < (u.add region).num := by
  unfold add
  dsimp only
  by_cases hz : u.num = 0
  · rw [if_pos hz]
    exact Nat.one_pos
  · rw [if_neg hz]
    split
    · exact Nat.pos_of_ne_zero hz
    · split_ifs
      · exact Nat.one_pos
      · exact Nat.succ_pos _

theorem Good.add {u : Updates} (h : u.Good) (region : Region) : (u.add region).Good := by
  have hgrow : ∀ i < u.num, (u.regions i).Within (u.bounding.union region) := fun i hi =>
    (h.bounded i hi).trans (Region.within_union_left _ _)
  unfold Updates.add
  dsimp only
  by_cases hz : u.num = 0
  · rw [if_pos hz]
    refine ⟨fun i hi => ?_,h.max_pos,h.max_pos⟩
    obtain rfl : i = 0 := Nat.lt_one_iff.mp hi
    simp only [update_self]
    exact ⟨le_rfl,le_rfl,le_rfl,le_rfl⟩
  · rw [if_neg hz]
    split
    · next i hi =>
      have hlt : i < u.num := List.mem_range.mp (List.mem_of_find?_eq_some hi)
      refine ⟨fun j hj => ?_,h.num_le,h.max_pos⟩
      rcases eq_or_ne j i with rfl | hne
      · simp only [update_self]
        obtain ⟨h1,h2,h3,h4⟩ := h.bounded j hj
        constructor <;> simp only [Region.union] <;> split_ifs <;> omega
      · simp only [update_of_ne hne]
        exact hgrow j hj
    · split_ifs with hmax
      · refine ⟨fun i hi => ?_,h.max_pos,h.max_pos⟩
        obtain rfl : i = 0 := Nat.lt_one_iff.mp hi
        simp only [update_self]
        exact ⟨le_rfl,le_rfl,le_rfl,le_rfl⟩
      · have := h.num_le
        refine ⟨fun i hi => ?_,by dsimp only; omega,h.max_pos⟩
        rcases eq_or_ne i u.num with rfl | hne
        · simp only [update_self]
          exact Region.within_union_right _ _
        · simp only [update_of_ne hne]
          exact hgrow i (by dsimp only at hi; omega)

/-- Nothing that was covered is lost, and the region is covered too. -/
theorem Good.covers_add {u : Updates} (h : u.Good) {region : Region} {p : ℤ × ℤ}
    (hp : u.Covers p ∨ region.Contains p) : (u.add region).Covers p := by
  unfold Updates.add
  dsimp only
  by_cases hz : u.num = 0
  · rw [if_pos hz]
    refine ⟨0,Nat.one_pos,?_⟩
    simp only [update_self]
    rcases hp with ⟨i,hi,_⟩ | hp
    · omega
    · exact hp
  · rw [if_neg hz]
    split
    · next i hi =>
      have hlt : i < u.num := List.mem_range.mp (List.mem_of_find?_eq_some hi)
      rcases hp with ⟨j,hj,hp⟩ | hp
      · refine ⟨j,hj,?_⟩
        rcases eq_or_ne j i with rfl | hne
        · simp only [update_self]
          exact (Region.within_union_left _ _).contains hp
        · simpa only [update_of_ne hne] using hp
      · refine ⟨i,hlt,?_⟩
        simp only [update_self]
        exact (Region.within_union_right _ _).contains hp
    · split_ifs with hmax
      · refine ⟨0,Nat.one_pos,?_⟩
        simp only [update_self]
        rcases hp with ⟨j,hj,hp⟩ | hp
        · exact (Region.within_union_left _ _).contains ((h.bounded j hj).contains hp)
        · exact (Region.within_union_right _ _).contains hp
      · rcases hp with ⟨j,hj,hp⟩ | hp
        · refine ⟨j,Nat.lt_succ_of_lt hj,?_⟩
          simpa only [update_of_ne hj.ne] using hp
        · refine ⟨u.num,Nat.lt_succ_self _,?_⟩
          simpa only [update_self] using hp

end Updates
end DirectFB
