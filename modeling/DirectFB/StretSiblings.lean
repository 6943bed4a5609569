import DirectFB.Forest
import DirectFB.FusionVector
import DirectFB.Reaches
import DirectFB.StretRegion

/-! The regions of a stack region tree in memory, where each knows its parent and its index
among the children there. -/
namespace DirectFB.StretSiblings
open Function (update update_apply update_eq_self update_eq_self_iff update_idem update_of_ne update_self)
open Transition FusionVector

/-- `StretRegion` in memory, with addresses of other regions. -/
structure Node where
  parent : Option ℕ
  level : ℕ
  index : ℕ
  flags : Finset StretRegionFlag
  bounds : Region
  children : List (List ℕ)

/-- The regions at their addresses. -/
abbrev Heap := ℕ → Option Node

def Node.setParent (parent : Option ℕ) (n : Node) : Node := {n with parent := parent}

def Node.setIndex (index : ℕ) (n : Node) : Node := {n with index := index}

def Node.setLevel (level : ℕ) (l : List ℕ) (n : Node) : Node :=
  {n with children := n.children.set level l}

def modify (h : Heap) (a : ℕ) (f : Node → Node) : Heap := update h a ((h a).map f)

/-- `parent->children[level]` -/
def vector (h : Heap) (p level : ℕ) : List ℕ := ((h p).map fun n => n.children.getD level []).getD []

def parentOf (h : Heap) (a : ℕ) : Option ℕ := (h a).bind Node.parent

def levelOf (h : Heap) (a : ℕ) : Option ℕ := (h a).map Node.level

def indexOf (h : Heap) (a : ℕ) : Option ℕ := (h a).map Node.index

def renumber (h : Heap) : List ℕ → ℕ → Heap
  | [], _ => h
  | c::l, index => renumber (modify h c (Node.setIndex index)) l (index+1)

/-- The loops of `stret_region_destroy` over all children. -/
def orphan (h : Heap) (l : List ℕ) : Heap := l.foldl (fun h c => modify h c (Node.setParent none)) h

/-- What `stret_region_create` gets for the region itself. -/
structure Params where
  flags : Finset StretRegionFlag
  levels : ℕ
  x : ℤ
  y : ℤ
  width : ℤ
  height : ℤ

def Params.node (params : Params) (parent : Option ℕ) (level index : ℕ) : Node where
  parent := parent
  level := level
  index := index
  flags := params.flags
  bounds := ⟨params.x,params.y,params.x+params.width-1,params.y+params.height-1⟩
  children := List.replicate params.levels []

/-- `stret_region_create`, where the memory for the region is at the address and `room` tells if
the vector of the parent has room for it. -/
def create (h : Heap) (a : ℕ) (params : Params) (parent : Option ℕ) (level : ℕ) (room : Bool) :
    Heap :=
  match parent with
  | none => update h a (some (params.node none level 0))
  | some p =>
    let index := (vector h p level).length
    let h' : Heap := update h a (some (params.node (some p) level index))
    if room then modify h' p (Node.setLevel level (add (vector h' p level) a))
    else update h' a none

/-- The part of `stret_region_destroy` before the children. -/
def leave (h : Heap) (n : Node) : Heap :=
  match n.parent with
  | none => h
  | some p =>
    let l := remove (vector h p n.level) n.index
    renumber (modify h p (Node.setLevel n.level l)) (l.drop n.index) n.index

/-- `stret_region_destroy` -/
def destroy (h : Heap) (a : ℕ) (n : Node) : Heap :=
  let h := leave h n
  let children := ((h a).map Node.children).getD []
  update (orphan h children.flatten) a none

/-- `stret_region_restack` -/
def restack (h : Heap) (n : Node) (index : ℕ) : Heap :=
  match n.parent with
  | none => h
  | some p =>
    let l := move (vector h p n.level) n.index index
    renumber (modify h p (Node.setLevel n.level l)) (l.drop (min index n.index)) (min index n.index)

inductive Event
  | create (a : ℕ) (params : Params) (parent : Option ℕ) (level : ℕ) (memory room : Bool)
  | destroy (a : ℕ)
  | restack (a index : ℕ)

/-- A call with arguments as they are asserted. Memory is given out at an address where there is
no region. -/
def step (h : Heap) : Event → Option Heap
  | .create a params parent level memory room =>
    if (h a).isNone ∧ 0 < params.levels ∧ (∀ p ∈ parent, ∃ n ∈ h p, level < n.children.length) then
      some (if memory then create h a params parent level room else h)
    else none
  | .destroy a => (h a).map fun n => destroy h a n
  | .restack a index =>
    (h a).bind fun n =>
      if ∀ p ∈ n.parent, index < (vector h p n.level).length then some (restack h n index) else none

def Event.region : Event → ℕ
  | .create a _ _ _ _ _ => a
  | .destroy a => a
  | .restack a _ => a

/-- What is in a vector knows where it is, and what has a parent is in a vector there. -/
structure Inv (h : Heap) : Prop where
  forest : Forest.IsForest (parentOf h)
  place : ∀ p level j c, (vector h p level)[j]? = some c →
    parentOf h c = some p ∧ levelOf h c = some level ∧ indexOf h c = some j
  child : ∀ c p, parentOf h c = some p → ∃ level, levelOf h c = some level ∧ c ∈ vector h p level

section
variable {h : Heap} {a c p level index : ℕ} {n : Node}

theorem Inv.nodup (hi : Inv h) (p level : ℕ) : (vector h p level).Nodup := by
  rw [List.nodup_iff_injective_get]
  intro i j hij
  have hget : ∀ k : Fin (vector h p level).length, indexOf h ((vector h p level).get k) = some k.1 :=
    fun k => (hi.place p level k _ (by simp)).2.2
  have := hget i
  rw [hij,hget j] at this
  exact Fin.ext (Option.some.inj this).symm

theorem Inv.mem (hi : Inv h) (hc : c ∈ vector h p level) :
    parentOf h c = some p ∧ levelOf h c = some level := by
  obtain ⟨j,hj⟩ := List.getElem?_of_mem hc
  exact ⟨(hi.place p level j c hj).1,(hi.place p level j c hj).2.1⟩

theorem modify_apply (h : Heap) (a : ℕ) (f : Node → Node) (c : ℕ) :
    modify h a f c = if c = a then (h a).map f else h c := by
  simp only [modify,update_apply]

theorem modify_keeps {β : Type*} (g : Option Node → β) (f : Node → Node)
    (hg : ∀ n, g (some (f n)) = g (some n)) (h : Heap) (a c : ℕ) :
    g (modify h a f c) = g (h c) := by
  rw [modify_apply]
  split_ifs with hc
  · subst hc
    cases h c with
    | none => rfl
    | some n => exact hg n
  · rfl

/-- A level gets other children. -/
theorem vector_setLevel {l : List ℕ} (hn : h p = some n) (hlevel : level < n.children.length)
    (q lv : ℕ) : vector (modify h p (Node.setLevel level l)) q lv =
      if q = p ∧ lv = level then l else vector h q lv := by
  rw [vector,modify_apply]
  by_cases hq : q = p
  · subst hq
    rw [if_pos rfl,hn,vector,hn]
    simp only [Option.map_some,Option.getD_some,Node.setLevel,true_and,List.getD_eq_getElem?_getD,
      List.getElem?_set,hlevel,if_true]
    by_cases hlv : level = lv
    · rw [if_pos hlv,if_pos hlv.symm,Option.getD_some]
    · rw [if_neg hlv,if_neg (Ne.symm hlv)]
  · rw [if_neg hq,if_neg (fun h => hq h.1),vector]

theorem renumber_spec {l : List ℕ} (hl : l.Nodup) (h : Heap) (i : ℕ) :
    vector (renumber h l i) = vector h ∧ parentOf (renumber h l i) = parentOf h ∧
    levelOf (renumber h l i) = levelOf h ∧
    (∀ c, c ∉ l → indexOf (renumber h l i) c = indexOf h c) ∧
    ∀ k c, l[k]? = some c → (h c).isSome → indexOf (renumber h l i) c = some (i+k) := by
  induction l generalizing h i with
  | nil => exact ⟨rfl,rfl,rfl,fun _ _ => rfl,fun k c hk => by simp at hk⟩
  | cons a l ih =>
    obtain ⟨ha,hl⟩ := List.nodup_cons.mp hl
    obtain ⟨h1,h2,h3,h4,h5⟩ := ih hl (modify h a (Node.setIndex i)) (i+1)
    rw [renumber]
    refine ⟨h1.trans ?_,h2.trans ?_,h3.trans ?_,fun c hc => ?_,fun k c hk hsome => ?_⟩
    · funext p level
      exact modify_keeps (fun n => (n.map fun n => n.children.getD level []).getD [])
        (Node.setIndex i) (fun _ => rfl) h a p
    · funext c
      exact modify_keeps (·.bind Node.parent) (Node.setIndex i) (fun _ => rfl) h a c
    · funext c
      exact modify_keeps (·.map Node.level) (Node.setIndex i) (fun _ => rfl) h a c
    · obtain ⟨hne,hc⟩ := not_or.mp (mt List.mem_cons.mpr hc)
      rw [h4 c hc,indexOf,modify_apply,if_neg hne,indexOf]
    · cases k with
      | zero =>
        obtain rfl : a = c := by simpa using hk
        obtain ⟨n,hn⟩ := Option.isSome_iff_exists.mp hsome
        rw [h4 a ha,indexOf,modify_apply,if_pos rfl,hn]
        rfl
      | succ k =>
        have hk : l[k]? = some c := by simpa using hk
        rw [h5 k c hk ((congrArg (· = true) (modify_keeps Option.isSome (Node.setIndex i) (fun _ => rfl) h a c)).mpr hsome)]
        congr 1
        omega

structure Relinked (h h' : Heap) (p level : ℕ) (l : List ℕ) : Prop where
  children : ∀ q lv, vector h' q lv = if q = p ∧ lv = level then l else vector h q lv
  parent : parentOf h' = parentOf h
  level : levelOf h' = levelOf h
  index : ∀ j c, l[j]? = some c → indexOf h' c = some j
  others : ∀ c, c ∉ l → indexOf h' c = indexOf h c

theorem exists_of_mem_vector (hc : c ∈ vector h p level) :
    ∃ n, h p = some n ∧ level < n.children.length := by
  rw [vector] at hc
  cases hn : h p with
  | none => simp [hn] at hc
  | some n =>
    refine ⟨n,rfl,?_⟩
    by_contra hge
    simp [hn,List.getElem?_eq_none (not_lt.mp hge)] at hc

theorem isSome_of_indexOf (hc : indexOf h c = some index) : (h c).isSome := by
  obtain ⟨n,hn,-⟩ := Option.map_eq_some_iff.mp hc
  rw [hn]
  rfl

/-- Where the children before the index stay where they are, it is enough to renumber the
others. -/
theorem relinked (hi : Inv h) (hc : c ∈ vector h p level) {l : List ℕ} (hl : l.Nodup)
    (hsub : ∀ x ∈ l, x ∈ vector h p level)
    (hkeep : ∀ j < index, l[j]? = (vector h p level)[j]?) :
    Relinked h (renumber (modify h p (Node.setLevel level l)) (l.drop index) index) p level l := by
  obtain ⟨n,hn,hlevel⟩ := exists_of_mem_vector hc
  obtain ⟨h1,h2,h3,h4,h5⟩ := renumber_spec (hl.sublist (List.drop_sublist index l))
    (modify h p (Node.setLevel level l)) index
  have hindex : ∀ x, indexOf (modify h p (Node.setLevel level l)) x = indexOf h x :=
    fun x => modify_keeps (·.map Node.index) (Node.setLevel level l) (fun _ => rfl) h p x
  have hsome : ∀ (j x : ℕ), l[j]? = some x → ∃ i, indexOf h x = some i := by
    intro j x hx
    obtain ⟨i,hi'⟩ := List.getElem?_of_mem (hsub x (List.mem_of_getElem? hx))
    exact ⟨i,(hi.place p level i x hi').2.2⟩
  refine ⟨fun q lv => ?_,h2.trans ?_,h3.trans ?_,fun j x hx => ?_,fun x hx => ?_⟩
  · rw [h1,vector_setLevel hn hlevel]
  · funext x
    exact modify_keeps (·.bind Node.parent) (Node.setLevel level l) (fun _ => rfl) h p x
  · funext x
    exact modify_keeps (·.map Node.level) (Node.setLevel level l) (fun _ => rfl) h p x
  · by_cases hj : j < index
    · have hnot : x ∉ l.drop index := by
        intro hmem
        obtain ⟨k,hk⟩ := List.getElem?_of_mem hmem
        rw [List.getElem?_drop] at hk
        have := (List.getElem?_inj (lt_of_getElem? hx) hl).mp (hx.trans hk.symm)
        omega
      rw [h4 x hnot,hindex]
      exact (hi.place p level j x ((hkeep j hj).symm.trans hx)).2.2
    · have hk : (l.drop index)[j-index]? = some x := by
        rw [List.getElem?_drop,← hx]
        congr 1
        omega
      obtain ⟨i,hi'⟩ := hsome j x hx
      rw [h5 (j-index) x hk (isSome_of_indexOf ((hindex x).trans hi'))]
      congr 1
      omega
  · rw [h4 x fun hmem => hx (List.mem_of_mem_drop hmem),hindex]

/-- The same children in another order. -/
theorem Relinked.inv {h' : Heap} {l : List ℕ} (hi : Inv h) (hr : Relinked h h' p level l)
    (hl : l.Perm (vector h p level)) : Inv h' := by
  refine ⟨?_,fun q lv j x hx => ?_,fun x q hx => ?_⟩
  · rw [hr.parent]
    exact hi.forest
  · rw [hr.children] at hx
    rw [hr.parent,hr.level]
    split_ifs at hx with hq
    · obtain ⟨rfl,rfl⟩ := hq
      obtain ⟨h1,h2⟩ := hi.mem (hl.mem_iff.mp (List.mem_of_getElem? hx))
      exact ⟨h1,h2,hr.index j x hx⟩
    · obtain ⟨h1,h2,h3⟩ := hi.place q lv j x hx
      refine ⟨h1,h2,(hr.others x fun hmem => hq ?_).trans h3⟩
      obtain ⟨h1',h2'⟩ := hi.mem (hl.mem_iff.mp hmem)
      rw [h1] at h1'
      rw [h2] at h2'
      exact ⟨Option.some.inj h1',Option.some.inj h2'⟩
  · rw [hr.parent] at hx
    obtain ⟨lv,hlv,hmem⟩ := hi.child x q hx
    refine ⟨lv,hr.level ▸ hlv,?_⟩
    rw [hr.children]
    split_ifs with hq
    · obtain ⟨rfl,rfl⟩ := hq
      exact hl.mem_iff.mpr hmem
    · exact hmem

/-- A region stands at its index in the vector of its parent. -/
theorem Inv.getElem? (hi : Inv h) (hn : h a = some n) (hp : n.parent = some p) :
    (vector h p n.level)[n.index]? = some a := by
  have hparent : parentOf h a = some p := by rw [parentOf,hn,Option.bind_some,hp]
  obtain ⟨lv,hlv,hmem⟩ := hi.child a p hparent
  obtain ⟨j,hj⟩ := List.getElem?_of_mem hmem
  have hlevel : levelOf h a = some n.level := by rw [levelOf,hn,Option.map_some]
  have hindex : indexOf h a = some n.index := by rw [indexOf,hn,Option.map_some]
  obtain rfl : n.level = lv := Option.some.inj (hlevel.symm.trans hlv)
  obtain rfl : n.index = j := Option.some.inj (hindex.symm.trans (hi.place p _ j a hj).2.2)
  exact hj

/-- What `stret_region_restack` does with a region that has a parent. -/
theorem restack_spec (hi : Inv h) (hn : h a = some n) (hp : n.parent = some p)
    (hindex : index < (vector h p n.level).length) :
    Relinked h (restack h n index) p n.level (move (vector h p n.level) n.index index) ∧
    (move (vector h p n.level) n.index index).Perm (vector h p n.level) := by
  have hget := hi.getElem? hn hp
  have hperm := move_perm hget hindex
  refine ⟨?_,hperm⟩
  rw [restack,hp]
  exact relinked hi (List.mem_of_getElem? hget) (hperm.nodup_iff.mpr (hi.nodup p n.level))
    (fun x hx => hperm.mem_iff.mp hx) fun j hj => getElem?_move_of_lt hget hindex hj

structure Left (h h' : Heap) (a : ℕ) : Prop where
  children : ∀ q lv, vector h' q lv = (vector h q lv).filter (· ≠ a)
  parent : parentOf h' = parentOf h
  level : levelOf h' = levelOf h
  index : ∀ q lv j c, (vector h' q lv)[j]? = some c → indexOf h' c = some j

theorem filter_of_notMem {l : List ℕ} (ha : a ∉ l) : l.filter (· ≠ a) = l :=
  List.filter_eq_self.mpr fun x hx => by
    simpa using fun hxa : x = a => ha (hxa ▸ hx)

theorem leave_spec (hi : Inv h) (hn : h a = some n) : Left h (leave h n) a := by
  cases hp : n.parent with
  | none =>
    have hnot : ∀ q lv, a ∉ vector h q lv := by
      intro q lv hmem
      have hparent := (hi.mem hmem).1
      rw [parentOf,hn,Option.bind_some,hp] at hparent
      contradiction
    rw [leave,hp]
    exact ⟨fun q lv => (filter_of_notMem (hnot q lv)).symm,rfl,rfl,
      fun q lv j c hc => (hi.place q lv j c hc).2.2⟩
  | some p =>
    have hget := hi.getElem? hn hp
    have hmem := List.mem_of_getElem? hget
    have hnodup := hi.nodup p n.level
    have hperm := remove_perm hget
    obtain ⟨hnot,hl⟩ := List.nodup_cons.mp (hperm.nodup_iff.mp hnodup)
    have hr : Relinked h (leave h n) p n.level (remove (vector h p n.level) n.index) := by
      rw [leave,hp]
      exact relinked hi hmem hl (fun x hx => hperm.mem_iff.mpr (List.mem_cons_of_mem _ hx))
        fun j hj => getElem?_remove_of_lt hj (lt_of_getElem? hget)
    have hvector : ∀ q lv, vector (leave h n) q lv = (vector h q lv).filter (· ≠ a) := by
      intro q lv
      rw [hr.children]
      split_ifs with hq
      · obtain ⟨rfl,rfl⟩ := hq
        rw [← remove_filter hget (by simp),filter_of_notMem hnot]
      · refine (filter_of_notMem fun hin => hq ?_).symm
        obtain ⟨h1,h2⟩ := hi.mem hin
        obtain ⟨h1',h2'⟩ := hi.mem hmem
        exact ⟨Option.some.inj (h1.symm.trans h1'),Option.some.inj (h2.symm.trans h2')⟩
    refine ⟨hvector,hr.parent,hr.level,fun q lv j c hc => ?_⟩
    have hc' := hc
    rw [hr.children] at hc'
    split_ifs at hc' with hq
    · exact hr.index j c hc'
    · obtain ⟨h1,h2,h3⟩ := hi.place q lv j c hc'
      refine (hr.others c fun hin => hq ?_).trans h3
      obtain ⟨h1',h2'⟩ := hi.mem (hperm.mem_iff.mpr (List.mem_cons_of_mem a hin))
      exact ⟨Option.some.inj (h1.symm.trans h1'),Option.some.inj (h2.symm.trans h2')⟩

theorem orphan_spec (h : Heap) (l : List ℕ) :
    vector (orphan h l) = vector h ∧ levelOf (orphan h l) = levelOf h ∧
    indexOf (orphan h l) = indexOf h ∧
    ∀ c, parentOf (orphan h l) c = if c ∈ l then none else parentOf h c := by
  induction l generalizing h with
  | nil => exact ⟨rfl,rfl,rfl,fun c => by simp [orphan]⟩
  | cons a l ih =>
    obtain ⟨h1,h2,h3,h4⟩ := ih (modify h a (Node.setParent none))
    rw [orphan,List.foldl_cons]
    refine ⟨h1.trans ?_,h2.trans ?_,h3.trans ?_,fun c => (h4 c).trans ?_⟩
    · funext p level
      exact modify_keeps (fun n => (n.map fun n => n.children.getD level []).getD [])
        (Node.setParent none) (fun _ => rfl) h a p
    · funext c
      exact modify_keeps (·.map Node.level) (Node.setParent none) (fun _ => rfl) h a c
    · funext c
      exact modify_keeps (·.map Node.index) (Node.setParent none) (fun _ => rfl) h a c
    · rw [parentOf,modify_apply]
      by_cases hc : c = a
      · subst hc
        cases h c <;> simp [Node.setParent]
      · simp [hc,parentOf]

theorem mem_flatten_children : c ∈ ((h a).map Node.children |>.getD []).flatten ↔
    ∃ level, c ∈ vector h a level := by
  cases hn : h a with
  | none => simp [vector,hn]
  | some n =>
    simp only [vector,hn,Option.map_some,Option.getD_some,List.mem_flatten,
      List.getD_eq_getElem?_getD]
    constructor
    · rintro ⟨l,hl,hc⟩
      obtain ⟨level,hlevel⟩ := List.getElem?_of_mem hl
      exact ⟨level,by rw [hlevel]; exact hc⟩
    · rintro ⟨level,hc⟩
      cases hl : n.children[level]? with
      | none => simp [hl] at hc
      | some l => exact ⟨l,List.mem_of_getElem? hl,by simpa [hl] using hc⟩

/-- What is left when a region is destroyed: it is in no vector, and its children have no
parent. -/
structure Destroyed (h h' : Heap) (a : ℕ) : Prop where
  gone : h' a = none
  children : ∀ q lv, vector h' q lv = if q = a then [] else (vector h q lv).filter (· ≠ a)
  parent : ∀ c, parentOf h' c = if c = a ∨ parentOf h c = some a then none else parentOf h c
  level : ∀ c, c ≠ a → levelOf h' c = levelOf h c
  index : ∀ q lv j c, (vector h' q lv)[j]? = some c → indexOf h' c = some j

theorem destroy_spec (hi : Inv h) (hn : h a = some n) : Destroyed h (destroy h a n) a := by
  have hleft := leave_spec hi hn
  generalize hh : leave h n = h1 at hleft
  obtain ⟨ho1,ho2,ho3,ho4⟩ := orphan_spec h1 ((h1 a).map Node.children |>.getD []).flatten
  have hself : ∀ lv, a ∉ vector h a lv := fun lv hmem =>
    hi.forest.irrefl (hi.mem hmem).1 .refl
  have hchild : ∀ c, c ∈ ((h1 a).map Node.children |>.getD []).flatten ↔ parentOf h c = some a := by
    intro c
    rw [mem_flatten_children]
    constructor
    · rintro ⟨lv,hc⟩
      rw [hleft.children,List.mem_filter] at hc
      exact (hi.mem hc.1).1
    · intro hc
      obtain ⟨lv,-,hmem⟩ := hi.child c a hc
      refine ⟨lv,?_⟩
      rw [hleft.children,filter_of_notMem (hself lv)]
      exact hmem
  have hvector : ∀ q lv, vector (destroy h a n) q lv =
      if q = a then [] else (vector h q lv).filter (· ≠ a) := by
    intro q lv
    rw [destroy,hh,vector,update_apply]
    split_ifs with hq
    · rfl
    · rw [← hleft.children,← ho1,vector]
  refine ⟨?_,hvector,fun c => ?_,fun c hc => ?_,fun q lv j c hc => ?_⟩
  · rw [destroy,update_self]
  · rw [destroy,hh,parentOf,update_apply]
    by_cases hc : c = a
    · rw [if_pos hc,if_pos (.inl hc),Option.bind_none]
    · rw [if_neg hc]
      refine (ho4 c).trans ?_
      rw [hleft.parent]
      exact if_congr ((hchild c).trans ⟨.inr,fun h => h.resolve_left hc⟩) rfl rfl
  · rw [destroy,hh,levelOf,update_of_ne hc,← hleft.level,← ho2,levelOf]
  · rw [hvector] at hc
    split_ifs at hc with hq
    · simp at hc
    · have hca : c ≠ a := by
        have := (List.mem_filter.mp (List.mem_of_getElem? hc)).2
        simpa using this
      rw [destroy,hh,indexOf,update_of_ne hca]
      rw [← hleft.children] at hc
      exact (congrFun ho3 c).trans (hleft.index q lv j c hc)

theorem Destroyed.inv {h' : Heap} (hi : Inv h) (hd : Destroyed h h' a) : Inv h' := by
  have hmem : ∀ q lv c, c ∈ vector h' q lv → q ≠ a ∧ c ≠ a ∧ c ∈ vector h q lv := by
    intro q lv c hc
    rw [hd.children] at hc
    split_ifs at hc with hq
    · simp at hc
    · obtain ⟨hc,hne⟩ := List.mem_filter.mp hc
      exact ⟨hq,by simpa using hne,hc⟩
  refine ⟨hi.forest.mono fun c p hc => ?_,fun q lv j c hc => ?_,fun c q hc => ?_⟩
  · rw [hd.parent] at hc
    split_ifs at hc
    exact hc
  · obtain ⟨hq,hca,hin⟩ := hmem q lv c (List.mem_of_getElem? hc)
    obtain ⟨h1,h2⟩ := hi.mem hin
    refine ⟨?_,(hd.level c hca).trans h2,hd.index q lv j c hc⟩
    rw [hd.parent,if_neg,h1]
    rintro (hc | hc)
    · exact hca hc
    · exact hq (Option.some.inj (h1.symm.trans hc))
  · rw [hd.parent] at hc
    split_ifs at hc with hca
    obtain ⟨hca,hpa⟩ := not_or.mp hca
    obtain ⟨lv,hlv,hin⟩ := hi.child c q hc
    refine ⟨lv,(hd.level c hca).trans hlv,?_⟩
    rw [hd.children,if_neg (by rintro rfl; exact hpa hc)]
    exact List.mem_filter.mpr ⟨hin,by simpa using hca⟩

/-- A new region is the last one in its vector, if it has a parent `pa`. -/
structure Created (h h' : Heap) (a : ℕ) (pa : Option ℕ) (level : ℕ) : Prop where
  children : ∀ q lv, vector h' q lv =
    if some q = pa ∧ lv = level then add (vector h q lv) a else vector h q lv
  parent : ∀ c, parentOf h' c = if c = a then pa else parentOf h c
  levels : ∀ c, c ≠ a → levelOf h' c = levelOf h c
  index : ∀ c, c ≠ a → indexOf h' c = indexOf h c
  last : ∀ p ∈ pa, levelOf h' a = some level ∧ indexOf h' a = some (vector h p level).length

theorem vector_node (params : Params) (parent : Option ℕ) (level index lv : ℕ) :
    (params.node parent level index).children.getD lv [] = [] := by
  simp only [Params.node,List.getD_eq_getElem?_getD,List.getElem?_replicate]
  split_ifs <;> rfl

theorem create_spec (ha : h a = none) (params : Params) (parent : Option ℕ)
    (hp : ∀ p ∈ parent, ∃ n, h p = some n ∧ level < n.children.length) :
    Created h (create h a params parent level true) a parent level := by
  have hnone : ∀ lv, vector h a lv = [] := fun lv => by rw [vector,ha]; rfl
  -- the region is there before it is added to its parent
  have hnew : ∀ n : Node, (∀ lv, n.children.getD lv [] = []) → ∀ q lv,
      vector (update h a (some n)) q lv = vector h q lv := by
    intro n hn q lv
    by_cases hq : q = a
    · subst hq
      rw [hnone,vector,update_self,Option.map_some,Option.getD_some,hn]
    · rw [vector,update_of_ne hq,vector]
  cases parent with
  | none =>
    have hn := hnew (params.node none level 0) (vector_node params none level 0)
    refine ⟨fun q lv => ?_,fun c => ?_,fun c hc => ?_,fun c hc => ?_,fun p hp => by simp at hp⟩
    · rw [if_neg (by simp)]
      exact hn q lv
    · simp only [create,parentOf,update_apply]
      split_ifs <;> rfl
    · simp only [create,levelOf,update_of_ne hc]
    · simp only [create,indexOf,update_of_ne hc]
  | some p =>
    obtain ⟨n,hn,hlevel⟩ := hp p rfl
    have hpa : p ≠ a := by
      rintro rfl
      rw [ha] at hn
      contradiction
    let new := params.node (some p) level (vector h p level).length
    let h' : Heap := update h a (some new)
    have hv : ∀ q lv, vector h' q lv = vector h q lv := hnew new (vector_node _ _ _ _)
    have hn' : h' p = some n := (update_of_ne hpa _ _).trans hn
    have hcreate : create h a params (some p) level true =
        modify h' p (Node.setLevel level (add (vector h' p level) a)) := rfl
    rw [hcreate]
    have hfield : ∀ {β : Type} (g : Option Node → β)
        (hg : ∀ m, g (some (m.setLevel level (add (vector h' p level) a))) = g (some m)) (c : ℕ),
        g (modify h' p (Node.setLevel level (add (vector h' p level) a)) c) =
          if c = a then g (some new) else g (h c) := by
      intro β g hg c
      have hc : h' c = if c = a then some new else h c := update_apply h a _ c
      rw [modify_keeps g _ hg h' p c,hc]
      split_ifs <;> rfl
    refine ⟨fun q lv => ?_,hfield (·.bind Node.parent) fun _ => rfl,
      fun c hc => (hfield (·.map Node.level) (fun _ => rfl) c).trans (if_neg hc),
      fun c hc => (hfield (·.map Node.index) (fun _ => rfl) c).trans (if_neg hc),fun q hq => ?_⟩
    · rw [vector_setLevel hn' hlevel,hv,hv]
      by_cases hq : q = p ∧ lv = level
      · rw [if_pos hq,if_pos ⟨congrArg some hq.1,hq.2⟩,hq.1,hq.2]
      · rw [if_neg hq,if_neg fun h => hq ⟨Option.some.inj h.1,h.2⟩]
    · obtain rfl : p = q := Option.some.inj hq
      exact ⟨(hfield (·.map Node.level) (fun _ => rfl) a).trans (if_pos rfl),
        (hfield (·.map Node.index) (fun _ => rfl) a).trans (if_pos rfl)⟩

theorem create_room (h : Heap) (a : ℕ) (params : Params) (pa : Option ℕ) (level : ℕ) (room : Bool)
    (ha : h a = none) : create h a params pa level room = h ∨
      create h a params pa level room = create h a params pa level true := by
  cases room with
  | true => exact .inr rfl
  | false =>
    cases pa with
    | none => exact .inr rfl
    | some p =>
      refine .inl ?_
      rw [create]
      simp only [Bool.false_eq_true,if_false]
      rw [update_idem,← ha,update_eq_self]

theorem Created.inv {h' : Heap} {pa : Option ℕ} (hi : Inv h) (ha : h a = none)
    (hp : ∀ p ∈ pa, (h p).isSome) (hc : Created h h' a pa level) : Inv h' := by
  have hnot : ∀ q lv, a ∉ vector h q lv := by
    intro q lv hmem
    have := (hi.mem hmem).1
    rw [parentOf,ha] at this
    contradiction
  have hempty : ∀ lv, vector h a lv = [] := fun lv => by rw [vector,ha]; rfl
  have hnochild : ∀ c, parentOf h c ≠ some a := by
    intro c hca
    obtain ⟨lv,-,hmem⟩ := hi.child c a hca
    rw [hempty] at hmem
    simp at hmem
  refine ⟨?_,fun q lv j c hj => ?_,fun c q hcq => ?_⟩
  · have hparent : parentOf h' = update (parentOf h) a pa := by
      funext c
      rw [hc.parent,update_apply]
    rw [hparent]
    cases pa with
    | none =>
      have hsame : update (parentOf h) a none = parentOf h := by
        rw [update_eq_self_iff,parentOf,ha]
        rfl
      rw [hsame]
      exact hi.forest
    | some p =>
      refine hi.forest.attach fun hin => ?_
      obtain heq | ⟨b,-,hb⟩ := Relation.ReflTransGen.cases_tail hin
      · have := hp p rfl
        rw [← heq,ha] at this
        contradiction
      · exact hnochild b hb
  · have hold : ∀ {k x}, (vector h q lv)[k]? = some x → parentOf h' x = some q ∧
        levelOf h' x = some lv ∧ indexOf h' x = some k := by
      intro k x hx
      have hxa : x ≠ a := by
        rintro rfl
        exact hnot q lv (List.mem_of_getElem? hx)
      obtain ⟨h1,h2,h3⟩ := hi.place q lv k x hx
      rw [hc.parent,if_neg hxa,hc.levels x hxa,hc.index x hxa]
      exact ⟨h1,h2,h3⟩
    rw [hc.children] at hj
    split_ifs at hj with hq
    · obtain ⟨hq,rfl⟩ := hq
      rw [add,List.getElem?_append] at hj
      split_ifs at hj with hlt
      · exact hold hj
      · -- the new region is at the end
        have hlast : j-(vector h q lv).length = 0 := by
          have := lt_of_getElem? hj
          simpa using this
        rw [hlast,List.getElem?_cons_zero,Option.some.injEq] at hj
        subst hj
        obtain ⟨h2,h3⟩ := hc.last q hq.symm
        rw [hc.parent,if_pos rfl]
        exact ⟨hq.symm,h2,h3.trans (congrArg some (by omega))⟩
    · exact hold hj
  · rw [hc.parent] at hcq
    split_ifs at hcq with hca
    · subst hca
      refine ⟨level,(hc.last q hcq).1,?_⟩
      rw [hc.children,if_pos ⟨hcq.symm,rfl⟩,add]
      simp
    · obtain ⟨lv,hlv,hmem⟩ := hi.child c q hcq
      refine ⟨lv,(hc.levels c hca).trans hlv,?_⟩
      rw [hc.children]
      split_ifs
      · exact List.mem_append_left _ hmem
      · exact hmem

/-- Each region's index is its position among the children of its parent, and it occurs there
once, and in no other vector. -/
structure Exact (h : Heap) : Prop where
  index : ∀ a n p, h a = some n → n.parent = some p → (vector h p n.level)[n.index]? = some a
  count : ∀ a n, h a = some n → ∀ p level,
    (vector h p level).count a = if n.parent = some p ∧ n.level = level then 1 else 0
  live : ∀ p level, ∀ a ∈ vector h p level, (h a).isSome

/-- What an operation keeps: the order of the children it does not name, in every vector of a
region that is still there. A region that is restacked has the index that was asked for. -/
structure Keeps (h h' : Heap) (e : Event) : Prop where
  order : ∀ p level, (h' p).isSome →
    (vector h' p level).filter (· ≠ e.region) = (vector h p level).filter (· ≠ e.region)
  restacked : ∀ a index, e = .restack a index → ∀ p ∈ parentOf h a,
    parentOf h' a = some p ∧ indexOf h' a = some index

theorem Inv.exact (hi : Inv h) : Exact h := by
  refine ⟨fun a n p hn hp => hi.getElem? hn hp,fun a n hn p level => ?_,fun p level a ha => ?_⟩
  · split_ifs with hp
    · obtain ⟨hp,rfl⟩ := hp
      exact List.count_eq_one_of_mem (hi.nodup p n.level) (List.mem_of_getElem? (hi.getElem? hn hp))
    · rw [List.count_eq_zero]
      intro hmem
      obtain ⟨h1,h2⟩ := hi.mem hmem
      rw [parentOf,hn] at h1
      rw [levelOf,hn] at h2
      exact hp ⟨h1,Option.some.inj h2⟩
  · have hlevel := (hi.mem ha).2
    obtain ⟨n,hn,-⟩ := Option.map_eq_some_iff.mp hlevel
    rw [hn]
    rfl

/-- An operation keeps the invariant, and the order of what it does not name. -/
theorem step_spec (hi : Inv h) {e : Event} {h' : Heap} (hs : step h e = some h') :
    Inv h' ∧ Keeps h h' e := by
  cases e with
  | create a params pa level memory room =>
    simp only [step,Option.ite_none_right_eq_some,Option.some.injEq] at hs
    obtain ⟨⟨hnone,-,hp⟩,rfl⟩ := hs
    have ha : h a = none := Option.isNone_iff_eq_none.mp hnone
    have hp' : ∀ p ∈ pa, ∃ n, h p = some n ∧ level < n.children.length := fun p hpa => by
      obtain ⟨n,hn,hlevel⟩ := hp p hpa
      exact ⟨n,hn,hlevel⟩
    have hsame : Inv h ∧ Keeps h h (.create a params pa level memory room) :=
      ⟨hi,fun _ _ _ => rfl,fun _ _ he => by simp at he⟩
    obtain hno | hyes := create_room h a params pa level room ha
    · rw [hno,ite_self]
      exact hsame
    · rw [hyes]
      split_ifs
      · have hc := create_spec ha params pa hp'
        refine ⟨hc.inv hi ha fun p hpa => ?_,fun p lv _ => ?_,fun _ _ he => by simp at he⟩
        · obtain ⟨n,hn,-⟩ := hp' p hpa
          rw [hn]
          rfl
        · rw [hc.children]
          split_ifs
          · simp [add,Event.region]
          · rfl
      · exact hsame
  | destroy a =>
    obtain ⟨n,hn,rfl⟩ := Option.map_eq_some_iff.mp hs
    have hd := destroy_spec hi hn
    refine ⟨hd.inv hi,fun p lv hp => ?_,fun _ _ he => by simp at he⟩
    rw [hd.children,if_neg (by rintro rfl; rw [hd.gone] at hp; contradiction)]
    show ((vector h p lv).filter (· ≠ a)).filter (· ≠ a) = (vector h p lv).filter (· ≠ a)
    rw [List.filter_filter]
    simp only [Bool.and_self]
  | restack a index =>
    obtain ⟨n,hn,hs⟩ := Option.bind_eq_some_iff.mp hs
    simp only [Option.ite_none_right_eq_some,Option.some.injEq] at hs
    obtain ⟨hvalid,rfl⟩ := hs
    cases hp : n.parent with
    | none =>
      have hparent : parentOf h a = none := by rw [parentOf,hn,Option.bind_some,hp]
      rw [restack,hp]
      refine ⟨hi,fun _ _ _ => rfl,fun _ _ he p hpa => ?_⟩
      obtain ⟨rfl,-⟩ := Event.restack.inj he
      rw [hparent] at hpa
      contradiction
    | some p =>
      have hindex := hvalid p hp
      obtain ⟨hr,hperm⟩ := restack_spec hi hn hp hindex
      have hget := hi.getElem? hn hp
      refine ⟨hr.inv hi hperm,fun q lv _ => ?_,fun b i he q hq => ?_⟩
      · rw [hr.children]
        split_ifs with hq
        · rw [hq.1,hq.2]
          exact move_filter hget hindex (by simp [Event.region])
        · rfl
      · obtain ⟨rfl,rfl⟩ := Event.restack.inj he
        exact ⟨by rw [hr.parent]; exact hq,hr.index _ _ (getElem?_move_self hget hindex)⟩

theorem empty_inv : Inv fun _ => none := by
  refine ⟨⟨fun a => ⟨a,fun b hb => ?_⟩⟩,fun p level j c hc => ?_,fun c p hc => ?_⟩
  · simp [Forest.Below,parentOf] at hb
  · simp [vector] at hc
  · simp [parentOf] at hc

end

/-- After any operations the indices of all regions are exact, and each operation keeps the order
of the siblings it does not name. -/
theorem sibling_indices_exact {h : Heap}
    (hr : Reaches step (fun _ _ => True) (fun h => h = fun _ => none) h) :
    Exact h ∧ ∀ e h', step h e = some h' → Keeps h h' e := by
  have hi : Inv h := hr.invariant Inv (fun s (hs : s = fun _ => none) => hs ▸ empty_inv)
    fun s e t hs _ hst => (step_spec hs hst).1
  exact ⟨hi.exact,fun e h' hs => (step_spec hi hs).2⟩

def swapped : List Event :=
  let params : Params := ⟨∅,1,0,0,10,10⟩
  [.create 1 params none 0 true true,.create 2 params (some 1) 0 true true,
    .create 3 params (some 1) 0 true true,.restack 3 0]

theorem sibling_indices_exact_swapped : ∃ h, exec step (fun _ => none) swapped = some h ∧
    vector h 1 0 = [3,2] ∧ Exact h := by
  obtain ⟨h,hh⟩ := Option.isSome_iff_exists.mp
    (show (exec step (fun _ => none) swapped).isSome by rfl)
  have hv : (exec step (fun _ => none) swapped).map (fun h => vector h 1 0) = some [3,2] := by rfl
  rw [hh] at hv
  exact ⟨h,hh,Option.some.inj hv,
    (sibling_indices_exact (Reaches.exec (.init rfl) (fun _ _ => trivial) hh)).1⟩

end DirectFB.StretSiblings
