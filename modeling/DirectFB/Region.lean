import Mathlib.Tactic

/-! Regions of pixels, given by their first and last column and row, and the strips that
are left of one around another. -/
namespace DirectFB

instance opacities : NeZero 256 := ⟨by decide⟩

/-- `DFBRegion`. -/
structure Region where
  x1 : ℤ
  y1 : ℤ
  x2 : ℤ
  y2 : ℤ
  deriving DecidableEq, Repr

namespace Region

def Contains (r : Region) (p : ℤ × ℤ) : Prop :=
  r.x1 ≤ p.1 ∧ p.1 ≤ r.x2 ∧ r.y1 ≤ p.2 ∧ p.2 ≤ r.y2

instance (r : Region) (p : ℤ × ℤ) : Decidable (r.Contains p) :=
  inferInstanceAs (Decidable (_ ∧ _ ∧ _ ∧ _))

/-- What `DFB_REGION_ASSERT` demands. -/
structure Valid (r : Region) : Prop where
  x : r.x1 ≤ r.x2
  y : r.y1 ≤ r.y2

theorem zero_valid : Valid ⟨0,0,0,0⟩ := ⟨le_rfl,le_rfl⟩

structure Regular (r : Region) : Prop where
  x : r.x1 ≤ r.x2+1
  y : r.y1 ≤ r.y2+1

structure Within (r s : Region) : Prop where
  x1 : s.x1 ≤ r.x1
  y1 : s.y1 ≤ r.y1
  x2 : r.x2 ≤ s.x2
  y2 : r.y2 ≤ s.y2

instance (r : Region) : Decidable r.Valid :=
  decidable_of_iff (r.x1 ≤ r.x2 ∧ r.y1 ≤ r.y2) ⟨fun h => ⟨h.1,h.2⟩,fun h => ⟨h.x,h.y⟩⟩

instance (r s : Region) : Decidable (r.Within s) :=
  decidable_of_iff (s.x1 ≤ r.x1 ∧ s.y1 ≤ r.y1 ∧ r.x2 ≤ s.x2 ∧ r.y2 ≤ s.y2)
    ⟨fun h => ⟨h.1,h.2.1,h.2.2.1,h.2.2.2⟩,fun h => ⟨h.x1,h.y1,h.x2,h.y2⟩⟩

/-- `dfb_region_intersect`, which leaves the region alone where it answers `false`. -/
def intersect (region clip : Region) : Option Region :=
  if region.x2 < clip.x1 ∨ region.y2 < clip.y1 ∨ region.x1 > clip.x2 ∨ region.y1 > clip.y2 then
    none
  else some {
    x1 := if region.x1 < clip.x1 then clip.x1 else region.x1
    y1 := if region.y1 < clip.y1 then clip.y1 else region.y1
    x2 := if region.x2 > clip.x2 then clip.x2 else region.x2
    y2 := if region.y2 > clip.y2 then clip.y2 else region.y2 }

/-- `DFB_REGION_INIT_TRANSLATED`. -/
def translated (r : Region) (x y : ℤ) : Region := ⟨r.x1+x,r.y1+y,r.x2+x,r.y2+y⟩

/-- The strips of `outer` to the left of `inner`, above, to the right and below it. -/
def strips (inner outer : Region) : List Region :=
  (if inner.x1 ≠ outer.x1 then [⟨outer.x1,inner.y1,inner.x1-1,inner.y2⟩] else [])++
  (if inner.y1 ≠ outer.y1 then [⟨outer.x1,outer.y1,outer.x2,inner.y1-1⟩] else [])++
  (if inner.x2 ≠ outer.x2 then [⟨inner.x2+1,inner.y1,outer.x2,inner.y2⟩] else [])++
  (if inner.y2 ≠ outer.y2 then [⟨outer.x1,inner.y2+1,outer.x2,outer.y2⟩] else [])

variable {r region clip inner outer : Region} {p : ℤ × ℤ} {α : Type*}

theorem Valid.regular (h : r.Valid) : r.Regular :=
  ⟨by have := h.x; omega,by have := h.y; omega⟩

theorem Valid.translated (h : r.Valid) (x y : ℤ) : (r.translated x y).Valid :=
  ⟨add_le_add_left h.x x,add_le_add_left h.y y⟩

theorem intersect_eq_some (h : region.intersect clip = some r) :
    (clip.x1 ≤ region.x2 ∧ clip.y1 ≤ region.y2 ∧ region.x1 ≤ clip.x2 ∧ region.y1 ≤ clip.y2) ∧
    r = ⟨max region.x1 clip.x1,max region.y1 clip.y1,min region.x2 clip.x2,
      min region.y2 clip.y2⟩ := by
  simp only [intersect,Option.ite_none_left_eq_some,not_or,not_lt,Option.some.injEq] at h
  obtain ⟨⟨h1,h2,h3,h4⟩,rfl⟩ := h
  refine ⟨⟨h1,h2,h3,h4⟩,?_⟩
  congr 1
  all_goals split_ifs <;> omega

theorem intersect_contains (h : region.intersect clip = some r)
    (p : ℤ × ℤ) : r.Contains p ↔ region.Contains p ∧ clip.Contains p := by
  obtain ⟨-,rfl⟩ := intersect_eq_some h
  simp only [Contains]
  omega

theorem not_contains_of_intersect (h : region.intersect clip = none) (hp : region.Contains p) : ¬ clip.Contains p := by
  simp only [intersect,ite_eq_left_iff] at h
  simp only [Contains] at *
  by_contra hc
  have := h (by omega)
  simp at this

theorem intersect_within (h : region.intersect clip = some r) :
    r.Within region ∧ r.Within clip := by
  obtain ⟨-,rfl⟩ := intersect_eq_some h
  refine ⟨⟨?_,?_,?_,?_⟩,⟨?_,?_,?_,?_⟩⟩ <;> dsimp only <;> omega

theorem Regular.intersect (hr : region.Regular) (hc : clip.Regular)
    (h : region.intersect clip = some r) : r.Regular := by
  obtain ⟨hi,rfl⟩ := intersect_eq_some h
  have := hr.x
  have := hr.y
  have := hc.x
  have := hc.y
  constructor <;> dsimp only <;> omega

theorem Valid.intersect (hr : region.Valid) (hc : clip.Valid)
    (h : region.intersect clip = some r) : r.Valid := by
  obtain ⟨hi,rfl⟩ := intersect_eq_some h
  have := hr.x
  have := hr.y
  have := hc.x
  have := hc.y
  constructor <;> dsimp only <;> omega

theorem Within.trans {r s t : Region} (h : r.Within s) (h' : s.Within t) : r.Within t :=
  ⟨h'.x1.trans h.x1,h'.y1.trans h.y1,h.x2.trans h'.x2,h.y2.trans h'.y2⟩

theorem Within.contains {r s : Region} (h : r.Within s) (hp : r.Contains p) : s.Contains p := by
  obtain ⟨h1,h2,h3,h4⟩ := h
  simp only [Contains] at *
  omega

theorem append_ite {c d : Prop} [Decidable c] [Decidable d] (h : ¬ (c ∧ d))
    (l : List α) : (if c then l else [])++(if d then l else []) = if c ∨ d then l else [] := by
  by_cases hc : c
  · have hd : ¬ d := fun hd => h ⟨hc,hd⟩
    simp [hc,hd]
  · simp [hc]

/-- A function that yields the same list for every strip over a pixel, and none elsewhere,
yields it once for the strips, where they are within the outer region: they part it without
the inner one. -/
theorem flatMap_strips_mem (hi : inner.Regular) {f : Region → List α} {l : List α}
    (hf : ∀ r ∈ strips inner outer, f r = if r.Contains p then l else [])
    (hin : ∀ r ∈ strips inner outer, r.Contains p → outer.Contains p) :
    (strips inner outer).flatMap f = if outer.Contains p ∧ ¬ inner.Contains p then l else [] := by
  have hx := hi.x
  have hy := hi.y
  have hpart : ∀ (c : Prop) [Decidable c] (r : Region), (c → r ∈ strips inner outer) →
      (¬ c → outer.Contains p → ¬ r.Contains p) → (if c then [r] else []).flatMap f =
        if outer.Contains p ∧ r.Contains p then l else [] := by
    intro c _ r hr hc
    by_cases h : c
    · have hmem := hin r (hr h)
      rw [if_pos h,List.flatMap_singleton,hf r (hr h)]
      exact if_congr ⟨fun hp => ⟨hmem hp,hp⟩,And.right⟩ rfl rfl
    · rw [if_neg h,List.flatMap_nil,if_neg fun hp => hc h hp.1 hp.2]
  unfold strips at hpart ⊢
  rw [List.flatMap_append,List.flatMap_append,List.flatMap_append,
    hpart _ ⟨outer.x1,inner.y1,inner.x1-1,inner.y2⟩ (fun h => by simp [h]),
    hpart _ ⟨outer.x1,outer.y1,outer.x2,inner.y1-1⟩ (fun h => by simp [h]),
    hpart _ ⟨inner.x2+1,inner.y1,outer.x2,inner.y2⟩ (fun h => by simp [h]),
    hpart _ ⟨outer.x1,inner.y2+1,outer.x2,outer.y2⟩ (fun h => by simp [h]),
    append_ite (by simp only [Contains]; omega),append_ite (by simp only [Contains]; omega),
    append_ite (by simp only [Contains]; omega)]
  · exact if_congr (by simp only [Contains]; omega) rfl rfl
  -- where there is no strip on a side, it would have no pixel of the outer region
  all_goals simp only [Contains]; omega

theorem strips_regular (hi : inner.Regular) (hw : inner.Within outer) :
    ∀ r ∈ strips inner outer, r.Regular := by
  obtain ⟨h1,h2,h3,h4⟩ := hw
  have hx := hi.x
  have hy := hi.y
  simp only [strips,List.mem_append,List.mem_ite_nil_right,List.mem_singleton]
  rintro r (((⟨hne,rfl⟩ | ⟨hne,rfl⟩) | ⟨hne,rfl⟩) | ⟨hne,rfl⟩)
  all_goals constructor <;> dsimp only <;> omega

theorem strips_within (hi : inner.Regular) (hw : inner.Within outer) :
    ∀ r ∈ strips inner outer, r.Within outer := by
  obtain ⟨h1,h2,h3,h4⟩ := hw
  have hx := hi.x
  have hy := hi.y
  simp only [strips,List.mem_append,List.mem_ite_nil_right,List.mem_singleton]
  rintro r (((⟨hne,rfl⟩ | ⟨hne,rfl⟩) | ⟨hne,rfl⟩) | ⟨hne,rfl⟩)
  all_goals constructor <;> dsimp only <;> omega

theorem flatMap_strips (hi : inner.Regular)
    (hw : inner.Within outer) {f : Region → List α} {l : List α}
    (hf : ∀ r : Region, r.Regular → f r = if r.Contains p then l else []) :
    (strips inner outer).flatMap f =
      if outer.Contains p ∧ ¬ inner.Contains p then l else [] :=
  flatMap_strips_mem hi (fun r hr => hf r (strips_regular hi hw r hr))
    fun r hr hp => (strips_within hi hw r hr).contains hp

end Region
end DirectFB
