import DirectFB.Region

/-! The stack region tree of the unique window manager. Each region has levels of children, which
stand above the region itself, those of a higher level or index above the others. -/
namespace DirectFB

inductive StretRegionFlag
  | srfInput | srfOutput | srfActive | srfOpaque | srfShaped
  deriving DecidableEq

/-- `id` stands for the region's address, bounds are relative to the parent. -/
structure StretRegion where
  id : ℕ
  flags : Finset StretRegionFlag
  bounds : Region
  children : List (List StretRegion)

namespace StretRegion

def levels (region : StretRegion) : ℕ := region.children.length

def level (region : StretRegion) (level : ℕ) : List StretRegion := region.children.getD level []

def childrenBelow (region : StretRegion) (level : ℕ) : List StretRegion :=
  (region.children.take level).reverse.flatMap List.reverse

def childrenDown (region : StretRegion) : List StretRegion := region.children.reverse.flatMap List.reverse

variable (region : StretRegion)

theorem childrenBelow_zero : region.childrenBelow 0 = [] := by
  simp [childrenBelow]

theorem childrenBelow_succ (n : ℕ) :
    region.childrenBelow (n+1) = (region.level n).reverse++region.childrenBelow n := by
  rw [childrenBelow,List.take_add_one,List.reverse_append,List.flatMap_append,level,
    List.getD_eq_getElem?_getD]
  apply congrArg (·++region.childrenBelow n)
  cases region.children[n]? <;> simp

theorem childrenBelow_levels : region.childrenBelow region.levels = region.childrenDown := by
  rw [childrenBelow,levels,List.take_length,childrenDown]

theorem mem_childrenDown {region c : StretRegion} : c ∈ region.childrenDown ↔ ∃ l ∈ region.children, c ∈ l := by
  simp [childrenDown]

/-- The topmost level of a tree that has children, from `n` on downwards. -/
def findLevel (region : StretRegion) : ℕ → Option ℕ
  | 0 => if region.level 0 = [] then none else some 0
  | n+1 => if region.level (n+1) = [] then findLevel region n else some (n+1)

mutual
def weight : StretRegion → ℕ
  | ⟨_,_,_,children⟩ => weightLevels children+1

def weightLevels : List (List StretRegion) → ℕ
  | [] => 0
  | l::children => weightLevel l+weightLevels children+1

def weightLevel : List StretRegion → ℕ
  | [] => 0
  | region::l => weight region+weightLevel l
end

mutual
def depth : StretRegion → ℕ
  | ⟨_,_,_,children⟩ => depthLevels children

def depthLevels : List (List StretRegion) → ℕ
  | [] => 0
  | l::children => max (depthLevel l) (depthLevels children)

def depthLevel : List StretRegion → ℕ
  | [] => 0
  | region::l => max (depth region+1) (depthLevel l)
end

structure Visit where
  region : StretRegion
  x0 : ℤ
  y0 : ℤ

mutual
def order : StretRegion → ℤ → ℤ → List Visit
  | ⟨id,flags,bounds,children⟩, x0, y0 =>
    if .srfActive ∈ flags then
      orderLevels children (x0+bounds.x1) (y0+bounds.y1)++[⟨⟨id,flags,bounds,children⟩,x0,y0⟩]
    else []

def orderLevels : List (List StretRegion) → ℤ → ℤ → List Visit
  | [], _, _ => []
  | l::children, x0, y0 => orderLevels children x0 y0++orderLevel l x0 y0

def orderLevel : List StretRegion → ℤ → ℤ → List Visit
  | [], _, _ => []
  | region::l, x0, y0 => orderLevel l x0 y0++order region x0 y0
end

theorem orderLevel_eq (l : List StretRegion) (x0 y0 : ℤ) :
    orderLevel l x0 y0 = l.reverse.flatMap fun region => order region x0 y0 := by
  induction l with
  | nil => rfl
  | cons region l ih => simp [orderLevel,ih]

theorem orderLevels_eq (children : List (List StretRegion)) (x0 y0 : ℤ) :
    orderLevels children x0 y0 =
      (children.reverse.flatMap List.reverse).flatMap fun region => order region x0 y0 := by
  induction children with
  | nil => rfl
  | cons l children ih => simp [orderLevels,ih,orderLevel_eq]

theorem order_eq (x0 y0 : ℤ) : order region x0 y0 =
    if .srfActive ∈ region.flags then
      (region.childrenDown.flatMap fun c => order c (x0+region.bounds.x1) (y0+region.bounds.y1))++
        [⟨region,x0,y0⟩]
    else [] := by
  cases region
  rw [order,orderLevels_eq]
  rfl

theorem weightLevel_eq (l : List StretRegion) : weightLevel l = (l.map weight).sum := by
  induction l with
  | nil => rfl
  | cons region l ih => rw [weightLevel,ih,List.map_cons,List.sum_cons]

theorem weight_eq : region.weight = (region.childrenDown.map weight).sum+region.levels+1 := by
  obtain ⟨id,flags,bounds,children⟩ := region
  rw [weight,Nat.add_left_inj]
  simp only [childrenDown,levels]
  induction children with
  | nil => rfl
  | cons l children ih =>
    rw [weightLevels,ih,weightLevel_eq]
    simp
    omega

theorem depth_lt_depthLevel {c : StretRegion} {l : List StretRegion} (h : c ∈ l) :
    c.depth < depthLevel l := by
  induction l with
  | nil => simp at h
  | cons region l ih =>
    rw [depthLevel]
    rcases List.mem_cons.mp h with rfl | h
    · omega
    · have := ih h
      omega

theorem depth_lt {region c : StretRegion} (h : c ∈ region.childrenDown) : c.depth < region.depth := by
  obtain ⟨l,hl,hc⟩ := mem_childrenDown.mp h
  obtain ⟨id,flags,bounds,children⟩ := region
  have hc := depth_lt_depthLevel hc
  rw [depth]
  simp only at hl
  clear h
  induction children with
  | nil => simp at hl
  | cons k children ih =>
    rw [depthLevels]
    rcases List.mem_cons.mp hl with rfl | hl
    · omega
    · have := ih hl
      omega

theorem findLevel_spec (n : ℕ) : match region.findLevel n with
    | none => region.childrenBelow (n+1) = []
    | some level => region.level level ≠ [] ∧ level ≤ n ∧
      region.childrenBelow (n+1) = (region.level level).reverse++region.childrenBelow level := by
  induction n with
  | zero =>
    rw [findLevel,childrenBelow_succ,childrenBelow_zero]
    split_ifs with h
    · simp [h]
    · exact ⟨h,le_rfl,rfl⟩
  | succ n ih =>
    rw [findLevel,childrenBelow_succ]
    split_ifs with h
    · rw [h,List.reverse_nil,List.nil_append]
      cases hn : region.findLevel n with
      | none => simpa [hn] using ih
      | some level =>
        simp only [hn] at ih
        exact ⟨ih.1,by omega,ih.2.2⟩
    · exact ⟨h,le_rfl,rfl⟩

mutual
def subtree : StretRegion → List StretRegion
  | ⟨id,flags,bounds,children⟩ => subtreeLevels children++[⟨id,flags,bounds,children⟩]

def subtreeLevels : List (List StretRegion) → List StretRegion
  | [] => []
  | l::children => subtreeLevels children++subtreeLevel l

def subtreeLevel : List StretRegion → List StretRegion
  | [] => []
  | region::l => subtreeLevel l++subtree region
end

theorem subtreeLevel_eq (l : List StretRegion) : subtreeLevel l = l.reverse.flatMap subtree := by
  induction l with
  | nil => rfl
  | cons region l ih => simp [subtreeLevel,ih]

theorem subtree_eq : region.subtree = region.childrenDown.flatMap subtree++[region] := by
  obtain ⟨id,flags,bounds,children⟩ := region
  rw [subtree]
  apply congrArg (·++[_])
  rw [childrenDown]
  induction children with
  | nil => rfl
  | cons l children ih => simp [subtreeLevels,ih,subtreeLevel_eq]

@[elab_as_elim]
theorem tree_induct {motive : StretRegion → Prop}
    (h : ∀ region, (∀ c ∈ region.childrenDown, motive c) → motive region) (region : StretRegion) :
    motive region := by
  induction hn : region.depth using Nat.strong_induction_on generalizing region with
  | _ n ih =>
    apply h
    intro c hc
    exact ih c.depth (hn ▸ depth_lt hc) c rfl

/-- A region that is active with all above it in the tree. -/
inductive Shown : StretRegion → ℤ → ℤ → Visit → Prop
  | self {region : StretRegion} {x0 y0 : ℤ} : .srfActive ∈ region.flags →
    Shown region x0 y0 ⟨region,x0,y0⟩
  | child {region c : StretRegion} {l : List StretRegion} {x0 y0 : ℤ} {v : Visit} :
    .srfActive ∈ region.flags → l ∈ region.children → c ∈ l →
    Shown c (x0+region.bounds.x1) (y0+region.bounds.y1) v → Shown region x0 y0 v

theorem mem_order {region : StretRegion} {x0 y0 : ℤ} {v : Visit} :
    v ∈ order region x0 y0 ↔ Shown region x0 y0 v := by
  induction region using tree_induct generalizing x0 y0 with
  | h region ih =>
    rw [order_eq]
    constructor
    · intro h
      split_ifs at h with hactive
      · rcases List.mem_append.mp h with h | h
        · obtain ⟨c,hc,hv⟩ := List.mem_flatMap.mp h
          obtain ⟨l,hl,hcl⟩ := mem_childrenDown.mp hc
          exact .child hactive hl hcl ((ih c hc).mp hv)
        · rw [List.mem_singleton.mp h]
          exact .self hactive
      · cases h
    · intro h
      cases h with
      | self hactive => simp [hactive]
      | @child _ c l _ _ _ hactive hl hc hv =>
        rw [if_pos hactive]
        have hmem := mem_childrenDown.mpr ⟨l,hl,hc⟩
        exact List.mem_append_left _ (List.mem_flatMap.mpr ⟨c,hmem,(ih c hmem).mpr hv⟩)

/-- No region comes twice. -/
theorem order_sublist (x0 y0 : ℤ) :
    ((order region x0 y0).map Visit.region).Sublist region.subtree := by
  induction region using tree_induct generalizing x0 y0 with
  | h region ih =>
    rw [order_eq,subtree_eq]
    split_ifs
    · rw [List.map_append,List.map_flatMap]
      apply List.Sublist.append
      · generalize hl : region.childrenDown = l at ih
        clear hl
        induction l with
        | nil => exact List.Sublist.refl _
        | cons c l ihl =>
          rw [List.flatMap_cons,List.flatMap_cons]
          exact (ih c List.mem_cons_self _ _).append
            (ihl fun d hd => ih d (List.mem_cons_of_mem _ hd))
      · exact List.Sublist.refl _
    · exact List.nil_sublist _

example : (order ⟨0,{.srfActive},⟨0,0,9,9⟩,[[⟨1,{.srfActive},⟨1,1,2,2⟩,[[]]⟩]]⟩ 0 0).map
  (fun v => (v.region.id,v.x0)) = [(1,0),(0,0)] := by decide

end StretRegion
end DirectFB
