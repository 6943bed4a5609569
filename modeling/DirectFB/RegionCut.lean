import DirectFB.Region

/-! What is left of a region when the areas of a list are cut out of it, one after another. -/
namespace DirectFB.Region
variable {α β : Type*}

def cut (area : α → Option Region) : List α → Region → List Region
  | [], region => [region]
  | a::rest, region =>
    match (area a).bind region.intersect with
    | some inner => (strips inner region).flatMap (cut area rest)
    | none => cut area rest region

def InArea (area : α → Option Region) (a : α) (p : ℤ × ℤ) : Prop :=
  ∃ r, area a = some r ∧ r.Contains p

instance (area : α → Option Region) (a : α) (p : ℤ × ℤ) : Decidable (InArea area a p) :=
  decidable_of_iff ((area a).any fun r => decide (r.Contains p)) (by
    unfold InArea
    cases area a <;> simp)

theorem strips_valid {inner outer : Region} (hi : inner.Valid) (ho : outer.Valid)
    (hw : inner.Within outer) : ∀ r ∈ strips inner outer, r.Valid := by
  obtain ⟨h1,h2,h3,h4⟩ := hw
  have hx := hi.x
  have hy := hi.y
  have hx' := ho.x
  simp only [strips,List.mem_append,List.mem_ite_nil_right,List.mem_singleton]
  rintro r (((⟨hne,rfl⟩ | ⟨hne,rfl⟩) | ⟨hne,rfl⟩) | ⟨hne,rfl⟩)
  all_goals constructor <;> dsimp only <;> omega

theorem Valid.contains {r : Region} (h : r.Valid) : r.Contains (r.x1,r.y1) :=
  ⟨le_rfl,h.x,le_rfl,h.y⟩

/-- A function that yields the same list for every region over a pixel, and none elsewhere,
yields it once for what is left. -/
theorem flatMap_cut {area : α → Option Region} {p : ℤ × ℤ} {f : Region → List β} {m : List β}
    (hf : ∀ r : Region, r.Regular → f r = if r.Contains p then m else [])
    (l : List α) (ha : ∀ a ∈ l, ∀ r, area a = some r → r.Regular) {region : Region}
    (hr : region.Regular) : (cut area l region).flatMap f =
      if region.Contains p ∧ ∀ a ∈ l, ¬ InArea area a p then m else [] := by
  induction l generalizing region with
  | nil => simp [cut,hf region hr]
  | cons a rest ih =>
    have hrest := fun b hb => ha b (List.mem_cons_of_mem a hb)
    rw [cut]
    split
    next inner hinner =>
      obtain ⟨r,hra,hint⟩ := Option.bind_eq_some_iff.mp hinner
      have hmem := intersect_contains hint p
      have hin : InArea area a p ↔ r.Contains p := by simp [InArea,hra]
      rw [List.flatMap_assoc,flatMap_strips
        (hr.intersect (ha a List.mem_cons_self r hra) hint) (intersect_within hint).1 (p := p)
        fun s hs => (ih hrest hs).trans (ite_and ..),← ite_and]
      refine if_congr ?_ rfl rfl
      rw [List.forall_mem_cons,hin,hmem]
      tauto
    next hnone =>
      rw [ih hrest hr]
      refine if_congr ?_ rfl rfl
      rw [List.forall_mem_cons]
      have hnot : region.Contains p → ¬ InArea area a p := by
        rintro hp ⟨r,hra,hrp⟩
        rw [hra,Option.bind_some] at hnone
        exact not_contains_of_intersect hnone hp hrp
      tauto

/-- The pixels of what is left are those that no area contains. -/
theorem mem_cut {area : α → Option Region} (p : ℤ × ℤ) (l : List α)
    (ha : ∀ a ∈ l, ∀ r, area a = some r → r.Regular) {region : Region} (hr : region.Regular) :
    (∃ r ∈ cut area l region, r.Contains p) ↔ region.Contains p ∧ ∀ a ∈ l, ¬ InArea area a p := by
  have h := flatMap_cut (f := fun r : Region => if r.Contains p then [()] else []) (p := p)
    (fun _ _ => rfl) l ha hr
  constructor
  · rintro ⟨r,hmem,hrp⟩
    by_contra hn
    rw [if_neg hn,List.flatMap_eq_nil_iff] at h
    exact absurd (h r hmem) (by rw [if_pos hrp]; exact List.cons_ne_nil _ _)
  · intro hp
    rw [if_pos hp] at h
    have hone : () ∈ (cut area l region).flatMap
        fun r : Region => if r.Contains p then [()] else [] := by
      rw [h]
      exact List.mem_singleton_self _
    obtain ⟨r,hmem,hrp⟩ := List.mem_flatMap.mp hone
    refine ⟨r,hmem,?_⟩
    by_contra hn
    rw [if_neg hn] at hrp
    cases hrp

end DirectFB.Region
