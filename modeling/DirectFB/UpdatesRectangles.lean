import DirectFB.Clip
import DirectFB.Updates

/-! The rectangles that are reported for regions that were added: they hold all of them but the last
column and row. -/
namespace DirectFB.Updates

open Clip

def area (r : Region) : ℤ := (r.x2-r.x1+1)*(r.y2-r.y1+1)

/-- `dfb_updates_stat`: the total and the bounding area. -/
def stat (u : Updates) : ℤ × ℤ :=
  if u.num = 0 then (0,0)
  else (((List.range u.num).map fun i => area (u.regions i)).sum,area u.bounding)

def rectangle (r : Region) : Rect := ⟨r.x1,r.y1,r.x2-r.x1,r.y2-r.y1⟩

/-- `dfb_updates_get_rectangles`. -/
def getRectangles (u : Updates) : List Rect :=
  if u.num = 0 then []
  else if u.num = 1 then [rectangle u.bounding]
  else
    let n : ℤ := u.max-u.num+1
    let d := n+1
    if u.stat.1 < Int.tdiv (u.stat.2*n) d then (List.range u.num).map fun i => rectangle (u.regions i)
    else [rectangle u.bounding]

def Holds (r : Rect) (p : ℤ × ℤ) : Prop := r.x ≤ p.1 ∧ p.1 < r.x+r.w ∧ r.y ≤ p.2 ∧ p.2 < r.y+r.h

def HoldsClosed (r : Rect) (p : ℤ × ℤ) : Prop :=
  r.x ≤ p.1 ∧ p.1 ≤ r.x+r.w ∧ r.y ≤ p.2 ∧ p.2 ≤ r.y+r.h

structure Boxed (regions : List Region) (r : Rect) : Prop where
  left : ∃ s ∈ regions, s.x1 ≤ r.x
  top : ∃ s ∈ regions, s.y1 ≤ r.y
  right : ∃ s ∈ regions, r.x+r.w ≤ s.x2+1
  bottom : ∃ s ∈ regions, r.y+r.h ≤ s.y2+1

structure Tracks (max : ℕ) (regions : List Region) (rects : List Rect) : Prop where
  covers : ∀ s ∈ regions, ∀ p, s.Contains p → ∃ r ∈ rects, Holds r p
  length_le : rects.length ≤ max
  boxed : ∀ r ∈ rects, Boxed regions r

structure Bounds (regions : List Region) (b : Region) : Prop where
  left : ∃ s ∈ regions, s.x1 = b.x1
  top : ∃ s ∈ regions, s.y1 = b.y1
  right : ∃ s ∈ regions, s.x2 = b.x2
  bottom : ∃ s ∈ regions, s.y2 = b.y2

section Adding

variable {u : Updates} {regions : List Region}

theorem add_bounding (u : Updates) (region : Region) :
    (u.add region).bounding = if u.num = 0 then region else u.bounding.union region := by
  unfold add
  dsimp only
  by_cases hz : u.num = 0
  · rw [if_pos hz,if_pos hz]
  · rw [if_neg hz,if_neg hz]
    split
    · rfl
    · split_ifs <;> rfl

theorem add_max (u : Updates) (region : Region) : (u.add region).max = u.max := by
  unfold add
  dsimp only
  by_cases hz : u.num = 0
  · rw [if_pos hz]
  · rw [if_neg hz]
    split
    · rfl
    · split_ifs <;> rfl

theorem Bounds.add {b : Region} (h : Bounds regions b) (region : Region) :
    Bounds (regions++[region]) (b.union region) := by
  obtain ⟨⟨s,hs,hl⟩,⟨t,ht,htop⟩,⟨r,hr,hright⟩,⟨w,hw,hbottom⟩⟩ := h
  have hold {s : Region} (hs : s ∈ regions) : s ∈ regions++[region] := List.mem_append_left _ hs
  have hnew : region ∈ regions++[region] := by simp
  constructor <;> simp only [Region.union]
  · split_ifs
    · exact ⟨region,hnew,rfl⟩
    · exact ⟨s,hold hs,hl⟩
  · split_ifs
    · exact ⟨region,hnew,rfl⟩
    · exact ⟨t,hold ht,htop⟩
  · split_ifs
    · exact ⟨region,hnew,rfl⟩
    · exact ⟨r,hold hr,hright⟩
  · split_ifs
    · exact ⟨region,hnew,rfl⟩
    · exact ⟨w,hold hw,hbottom⟩

structure Added (max : ℕ) (regions : List Region) (u : Updates) : Prop where
  good : u.Good
  max_eq : u.max = max
  num_eq_zero : u.num = 0 ↔ regions = []
  covers : ∀ s ∈ regions, ∀ p, s.Contains p → u.Covers p
  bounds : regions ≠ [] → Bounds regions u.bounding

theorem Added.add {max : ℕ} (h : Added max regions u) (region : Region) :
    Added max (regions++[region]) (u.add region) where
  good := h.good.add region
  max_eq := (add_max u region).trans h.max_eq
  num_eq_zero := by simp [(add_num_pos u region).ne']
  covers s hs p hp := by
    rcases List.mem_append.mp hs with hs | hs
    · exact h.good.covers_add (.inl (h.covers s hs p hp))
    · obtain rfl : s = region := by simpa using hs
      exact h.good.covers_add (.inr hp)
  bounds _ := by
    rw [add_bounding]
    split_ifs with hz
    · rw [h.num_eq_zero.mp hz]
      constructor <;> exact ⟨region,by simp,rfl⟩
    · exact (h.bounds fun hnil => hz (h.num_eq_zero.mpr hnil)).add region

theorem added_foldl (hnum : u.num = 0) (hmax : 0 < u.max) (regions : List Region) :
    Added u.max regions (regions.foldl add u) := by
  induction regions using List.reverseRecOn with
  | nil =>
    refine ⟨⟨fun i hi => ?_,?_,hmax⟩,rfl,by simpa using hnum,by simp,fun h => absurd rfl h⟩
    · simp [hnum] at hi
    · simp [hnum]
  | append_singleton regions region ih =>
    rw [List.foldl_append]
    exact ih.add region

end Adding

section Reporting

variable {u : Updates} {regions : List Region} {max : ℕ}

theorem mem_getRectangles {r : Rect} (h : r ∈ u.getRectangles) :
    r = rectangle u.bounding ∨ ∃ i < u.num, r = rectangle (u.regions i) := by
  simp only [getRectangles] at h
  split_ifs at h
  · simp at h
  · exact .inl (by simpa using h)
  · obtain ⟨i,hi,rfl⟩ := List.mem_map.mp h
    exact .inr ⟨i,List.mem_range.mp hi,rfl⟩
  · exact .inl (by simpa using h)

theorem Added.within (h : Added max regions u) {r : Rect} (hr : r ∈ u.getRectangles) :
    ∃ s : Region, s.Within u.bounding ∧ r = rectangle s := by
  rcases mem_getRectangles hr with rfl | ⟨i,hi,rfl⟩
  · exact ⟨_,⟨le_rfl,le_rfl,le_rfl,le_rfl⟩,rfl⟩
  · exact ⟨_,h.good.bounded i hi,rfl⟩

theorem Added.length_le (h : Added max regions u) : u.getRectangles.length ≤ max := by
  have hnum := h.good.num_le
  have hmax := h.good.max_pos
  rw [h.max_eq] at hnum hmax
  simp only [getRectangles]
  split_ifs <;> simp <;> omega

theorem Added.boxed (h : Added max regions u) {r : Rect} (hr : r ∈ u.getRectangles) :
    Boxed regions r := by
  have hne : regions ≠ [] := by
    rintro rfl
    rw [getRectangles,if_pos (h.num_eq_zero.mpr rfl)] at hr
    cases hr
  obtain ⟨s,⟨hx1,hy1,hx2,hy2⟩,rfl⟩ := h.within hr
  obtain ⟨⟨a,ha,hleft⟩,⟨b,hb,htop⟩,⟨c,hc,hright⟩,⟨d,hd,hbottom⟩⟩ := h.bounds hne
  refine ⟨⟨a,ha,?_⟩,⟨b,hb,?_⟩,⟨c,hc,?_⟩,⟨d,hd,?_⟩⟩ <;> simp only [rectangle] <;> omega

theorem Added.holdsClosed (h : Added max regions u) {s : Region} (hs : s ∈ regions) {p : ℤ × ℤ}
    (hp : s.Contains p) : ∃ r ∈ u.getRectangles, HoldsClosed r p := by
  obtain ⟨i,hi,hcontains⟩ := h.covers s hs p hp
  have hclosed {s : Region} (hp : s.Contains p) : HoldsClosed (rectangle s) p := by
    simp only [Region.Contains] at hp
    simp only [HoldsClosed,rectangle]
    omega
  have hbounding := hclosed ((h.good.bounded i hi).contains hcontains)
  simp only [getRectangles,if_neg (by omega : ¬ u.num = 0)]
  split_ifs
  · exact ⟨_,List.mem_singleton_self _,hbounding⟩
  · exact ⟨_,List.mem_map_of_mem (List.mem_range.mpr hi),hclosed hcontains⟩
  · exact ⟨_,List.mem_singleton_self _,hbounding⟩

theorem Added.not_holds (h : Added max regions u) {r : Rect} (hr : r ∈ u.getRectangles) {y : ℤ} :
    ¬ Holds r (u.bounding.x2,y) := by
  obtain ⟨s,⟨hx1,hy1,hx2,hy2⟩,rfl⟩ := h.within hr
  simp only [Holds,rectangle]
  omega

/-- The rectangles are as many as allowed, lie within the box of what was added and hold it up to a
column and a row, so that they hold all of it only where nothing was added. -/
theorem updates_tracked_iff (u : Updates) (hnum : u.num = 0) (hmax : 0 < u.max)
    (regions : List Region) (hvalid : ∀ s ∈ regions, s.Valid) :
    (Tracks u.max regions (regions.foldl add u).getRectangles ↔ regions = []) ∧
    (regions.foldl add u).getRectangles.length ≤ u.max ∧
    (∀ r ∈ (regions.foldl add u).getRectangles, Boxed regions r) ∧
    ∀ s ∈ regions, ∀ p, s.Contains p →
      ∃ r ∈ (regions.foldl add u).getRectangles, HoldsClosed r p := by
  have h := added_foldl hnum hmax regions
  refine ⟨⟨fun ht => ?_,?_⟩,h.length_le,fun r hr => h.boxed hr,fun s hs p hp => h.holdsClosed hs hp⟩
  · by_contra hne
    obtain ⟨s,hs,hright⟩ := (h.bounds hne).right
    have hpixel : s.Contains (s.x2,s.y1) := ⟨(hvalid s hs).x,le_rfl,le_rfl,(hvalid s hs).y⟩
    obtain ⟨r,hr,hholds⟩ := ht.covers s hs _ hpixel
    rw [hright] at hholds
    exact h.not_holds hr hholds
  · rintro rfl
    exact ⟨by simp,h.length_le,fun r hr => h.boxed hr⟩

/-- Two regions with one place left. -/
theorem updates_tracked_two : ¬ Tracks 3 [⟨0,0,9,9⟩,⟨20,0,29,9⟩]
    (([⟨0,0,9,9⟩,⟨20,0,29,9⟩] : List Region).foldl add
      ⟨fun _ => ⟨0,0,0,0⟩,3,0,⟨0,0,0,0⟩⟩).getRectangles := by
  have h := (updates_tracked_iff ⟨fun _ => ⟨0,0,0,0⟩,3,0,⟨0,0,0,0⟩⟩ rfl (by decide)
    [⟨0,0,9,9⟩,⟨20,0,29,9⟩] (by decide)).1
  exact fun ht => List.cons_ne_nil _ _ (h.mp ht)

/-- A single pixel is not reported at all. -/
theorem pixel_dropped : ¬ ∀ (u : Updates), u.num = 0 → 0 < u.max → ∀ regions : List Region,
    (∀ s ∈ regions, s.Valid) → Tracks u.max regions (regions.foldl add u).getRectangles := by
  intro h
  have ht := h ⟨fun _ => ⟨0,0,0,0⟩,1,0,⟨0,0,0,0⟩⟩ rfl (by decide) [⟨5,5,5,5⟩] (by decide)
  obtain ⟨r,hr,hholds⟩ := ht.covers ⟨5,5,5,5⟩ (by simp) (5,5) (by decide)
  obtain rfl : r = ⟨5,5,0,0⟩ := by simpa [getRectangles,add,rectangle] using hr
  simp [Holds] at hholds

end Reporting

end DirectFB.Updates
