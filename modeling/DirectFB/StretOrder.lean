import DirectFB.StretIteration

/-! The regions that an iteration over a whole stack region tree returns. Those on the way to the
last children are entered without regard to their being active. -/
namespace DirectFB.StretIteration
open StretRegion

def seen : List Item → List Visit
  | [] => []
  | .enter region x0 y0::rest => order region x0 y0++seen rest
  | .leave region x0 y0::rest =>
    if .srfActive ∈ region.flags then ⟨region,x0,y0⟩::seen rest else seen rest

theorem seen_append (l l' : List Item) : seen (l++l') = seen l++seen l' := by
  induction l with
  | nil => rfl
  | cons item l ih =>
    cases item with
    | enter region x0 y0 => simp [seen,ih]
    | leave region x0 y0 =>
      simp only [List.cons_append,seen,ih]
      split_ifs <;> simp

theorem seen_enter (l : List StretRegion) (x0 y0 : ℤ) :
    seen (l.map fun c => .enter c x0 y0) = l.flatMap fun c => order c x0 y0 := by
  induction l with
  | nil => rfl
  | cons c l ih => simp [seen,ih]

theorem seen_within (l : List StretRegion) (region : StretRegion) (x0 y0 : ℤ) :
    seen (within l region x0 y0) =
      (l.flatMap fun c => order c (x0+region.bounds.x1) (y0+region.bounds.y1))++
        if .srfActive ∈ region.flags then [⟨region,x0,y0⟩] else [] := by
  rw [within,seen_append,seen_enter]
  rfl

theorem acceptRegion_none (region : StretRegion) (x0 y0 : ℤ) :
    acceptRegion region x0 y0 none = decide (.srfActive ∈ region.flags) := by
  simp [acceptRegion]

/-- Without a clip the next region is the first of those to be seen. -/
theorem Yields.seen_eq {items : List Item} {r : Option (Visit × List Item)}
    (h : Yields none none items r) : seen items = r.elim [] fun (v,rest) => v::seen rest := by
  induction h with
  | ended => rfl
  | abort h => cases h
  | skip _ haccept hy ih =>
    rw [acceptRegion_none,decide_eq_false_iff_not] at haccept
    rw [seen,order_eq,if_neg haccept]
    exact ih
  | enter _ haccept hy ih =>
    rw [acceptRegion_none,decide_eq_true_iff] at haccept
    rw [← ih,seen_append,seen_within,seen,order_eq,if_pos haccept,if_pos haccept]
  | leave haccept =>
    rw [acceptRegion_none,decide_eq_true_iff] at haccept
    simp only [seen,if_pos haccept]
    rfl
  | pass haccept hy ih =>
    rw [acceptRegion_none,decide_eq_false_iff_not] at haccept
    simp only [seen,if_neg haccept]
    exact ih

theorem regions_spec {n : ℕ} (it : StretIteration) (h : Sound it) (ha : it.abort = none)
    (hn : it.work < n) : regions n it = some (seen (pending it),0,0) := by
  induction n generalizing it with
  | zero => exact absurd hn (Nat.not_lt_zero _)
  | succ n ih =>
    obtain ⟨r,hr,hasked⟩ := next_spec it h none
    rw [regions,hr]
    cases hasked with
    | ended hy hstop =>
      rw [ha] at hy
      obtain ⟨hx,hy'⟩ := hstop ha
      simp [hy.seen_eq,hx,hy']
    | @returned region it' hy hs ha' hw =>
      rw [ha] at hy
      simp [ih it' hs (ha'.trans ha) (by omega),hy.seen_eq]

def regionsOf (root : StretRegion) : Option (List Visit × ℤ × ℤ) :=
  regions ((init root none).work+1) (init root none)

def Honest (region : StretRegion) : Prop :=
  .srfActive ∈ region.flags ∨ ∀ c ∈ region.childrenDown, .srfActive ∉ c.flags

def Guarded (region : StretRegion) : ℕ → Prop
  | 0 => Honest region
  | left+1 => Honest region ∧
    ∀ child ∈ lastChild region, (lastChild child).isSome → Guarded child left

theorem order_eq_nil {region : StretRegion} {x0 y0 : ℤ} :
    order region x0 y0 = [] ↔ .srfActive ∉ region.flags := by
  rw [order_eq]
  split_ifs with h <;> simp [h]

theorem flatMap_order_eq_nil {l : List StretRegion} {x0 y0 : ℤ} :
    (l.flatMap fun c => order c x0 y0) = [] ↔ ∀ c ∈ l, .srfActive ∉ c.flags := by
  rw [List.flatMap_eq_nil_iff]
  exact forall₂_congr fun c _ => order_eq_nil

theorem seen_own (region : StretRegion) (x0 y0 : ℤ) :
    seen (within region.childrenDown region x0 y0) = order region x0 y0 ↔ Honest region := by
  rw [seen_within,order_eq,Honest]
  split_ifs with h
  · simp [h]
  · rw [List.append_nil,flatMap_order_eq_nil]
    simp [h]

theorem seen_descent_ne_nil {region : StretRegion} (h : .srfActive ∈ region.flags) (x0 y0 : ℤ)
    (left : ℕ) : seen (descent region x0 y0 left) ≠ [] := by
  have hwithin (l : List StretRegion) : seen (within l region x0 y0) ≠ [] := by
    rw [seen_within,if_pos h]
    exact List.append_ne_nil_of_right_ne_nil _ (List.cons_ne_nil _ _)
  cases left with
  | zero => exact hwithin _
  | succ left =>
    rw [descent]
    cases lastChild region with
    | none => exact hwithin _
    | some child =>
      dsimp only
      split_ifs
      · rw [seen_append]
        exact List.append_ne_nil_of_right_ne_nil _ (hwithin _)
      · exact hwithin _

/-- The descent sees what is to be returned just if it passes nothing inactive in vain. -/
theorem seen_descent_iff (region : StretRegion) (x0 y0 : ℤ) (left : ℕ) :
    seen (descent region x0 y0 left) = order region x0 y0 ↔ Guarded region left := by
  induction left generalizing region x0 y0 with
  | zero => exact seen_own region x0 y0
  | succ left ih =>
    rw [descent,Guarded]
    cases hc : lastChild region with
    | none => simpa using seen_own region x0 y0
    | some child =>
      dsimp only
      split_ifs with hsome
      · have hchildren := childrenDown_of_lastChild hc
        have ih := ih child (x0+region.bounds.x1) (y0+region.bounds.y1)
        rw [seen_append,seen_within,order_eq,hchildren,List.flatMap_cons]
        simp only [Option.mem_some_iff,forall_eq',hsome,forall_const]
        rw [← ih,Honest,hchildren,List.forall_mem_cons]
        by_cases hactive : .srfActive ∈ region.flags
        · simp only [hactive,if_true,true_or,true_and]
          rw [← List.append_assoc,List.append_left_inj,List.append_left_inj]
        · rw [if_neg hactive,if_neg hactive]
          simp only [hactive,false_or,List.append_nil,List.append_eq_nil_iff,flatMap_order_eq_nil]
          by_cases hchild : .srfActive ∈ child.flags
          · simp [hchild,seen_descent_ne_nil hchild]
          · rw [order_eq_nil.mpr hchild]
            tauto
      · simpa [hsome] using seen_own region x0 y0

/-- An iteration over a tree that is not too deep ends where it began. It returns the active regions
from top to bottom, each with the origin of its parent, just if nothing active is below a region
that is entered without being active. -/
theorem iteration_order_iff (root : StretRegion) (h : root.depth ≤ maxDepth) :
    (∃ l, regionsOf root = some (l,0,0)) ∧
    (regionsOf root = some (order root 0 0,0,0) ↔ Guarded root (maxDepth-1)) ∧
    (∀ v, v ∈ order root 0 0 ↔ Shown root 0 0 v) ∧
    ((root.subtree.map StretRegion.id).Nodup → ((order root 0 0).map fun v => v.region.id).Nodup) := by
  have hregions : regionsOf root = some (seen (descent root 0 0 (maxDepth-1)),0,0) := by
    rw [regionsOf,regions_spec _ (init_sound h none) (init_abort root none) (Nat.lt_succ_self _),pending_init]
  refine ⟨⟨_,hregions⟩,?_,fun v => mem_order,fun hnodup => ?_⟩
  · rw [hregions,← seen_descent_iff root 0 0]
    simp
  · have hsub := (order_sublist root 0 0).map StretRegion.id
    rw [List.map_map] at hsub
    exact hnodup.sublist hsub

def activeLeaf (id : ℕ) : StretRegion := ⟨id,{.srfActive},⟨0,0,9,9⟩,[[]]⟩

/-- The topmost of two children has a child itself. -/
theorem iteration_order_two : (regionsOf ⟨0,{.srfActive},⟨0,0,99,99⟩,
    [[activeLeaf 1,⟨2,{.srfActive},⟨10,10,30,30⟩,[[activeLeaf 3]]⟩]]⟩).map
      (fun r => r.1.map fun v => (v.region.id,v.x0)) = some [(3,10),(2,0),(1,0),(0,0)] := by
  have h := (iteration_order_iff ⟨0,{.srfActive},⟨0,0,99,99⟩,
    [[activeLeaf 1,⟨2,{.srfActive},⟨10,10,30,30⟩,[[activeLeaf 3]]⟩]]⟩ (by decide)).2.1
  rw [h.mpr]
  · decide
  · refine ⟨.inl (by decide),fun child hc _ => ?_⟩
    obtain rfl := Option.some.inj hc
    refine ⟨.inl (by decide),fun child hc hsome => ?_⟩
    obtain rfl := Option.some.inj hc
    cases hsome

/-- A child is returned though what it is in is not active. -/
theorem inactive_entered : ¬ ∀ root : StretRegion, root.depth ≤ maxDepth →
    regionsOf root = some (order root 0 0,0,0) := by
  intro h
  have := congrArg (Option.map fun r => r.1.length)
    (h ⟨0,{.srfActive},⟨0,0,99,99⟩,[[⟨2,∅,⟨10,10,30,30⟩,[[activeLeaf 3]]⟩]]⟩ (by decide))
  revert this
  decide

end DirectFB.StretIteration
