import DirectFB.StretRegion

/-! Iteration over a stack region tree, with a stack of the regions that were entered. It goes
through what is pending: regions to be entered, and those to be left once their children are
through. -/
namespace DirectFB
open StretRegion

structure StretIterationStackFrame where
  region : StretRegion
  level : ℕ
  index : ℤ

structure StretIteration where
  stack : List StretIterationStackFrame
  x0 : ℤ
  y0 : ℤ
  abort : Option ℕ

namespace StretIteration

def maxDepth : ℕ := 4

def checkDepth (frame : ℕ) : Bool := frame < maxDepth

def acceptRegion (region : StretRegion) (x0 y0 : ℤ) (clip : Option Region) : Bool :=
  .srfActive ∈ region.flags ∧ ∀ c ∈ clip, (c.intersect (region.bounds.translated x0 y0)).isSome

def push (it : StretIteration) (frame : StretIterationStackFrame) : StretIteration where
  stack := frame::it.stack
  x0 := it.x0+frame.region.bounds.x1
  y0 := it.y0+frame.region.bounds.y1
  abort := it.abort

def pop (it : StretIteration) (region : StretRegion) (stack : List StretIterationStackFrame) :
    StretIteration where
  stack := stack
  x0 := it.x0-region.bounds.x1
  y0 := it.y0-region.bounds.y1
  abort := it.abort

def lastChild (region : StretRegion) : Option StretRegion :=
  (region.level (region.levels-1)).getLast?

def enterLast (it : StretIteration) (region : StretRegion) : StretIteration :=
  let lastLevel := region.levels-1
  let lastIndex : ℤ := (region.level lastLevel).length-1
  it.push ⟨region,lastLevel,lastIndex-1⟩

/-- The last children of last levels are entered, whatever their flags, as long as these have
children in their last level again and `check_depth` admits a frame. -/
def initLoop (it : StretIteration) (region : StretRegion) : ℕ → StretIteration
  | 0 => it.enterLast region
  | left+1 =>
    match lastChild region with
    | none => it.enterLast region
    | some child =>
      if (lastChild child).isSome then initLoop (it.enterLast region) child left
      else it.enterLast region

def restore (it : StretIteration) : StretIteration :=
  match it.stack with
  | [] => it
  | frame::stack => {it with stack := {frame with index := frame.index+1}::stack}

def init (region : StretRegion) (abortAt : Option ℕ) : StretIteration :=
  restore (initLoop ⟨[],0,0,abortAt⟩ region (maxDepth-1))

/-- What one turn of the loop comes to. -/
inductive Turn
  | ended
  | returned (region : StretRegion) (it : StretIteration)
  | again (it : StretIteration)

/-- A turn of `stret_iteration_next`, if there is a child at the index. -/
def turn (clip : Option Region) (it : StretIteration) : Option Turn :=
  match it.stack with
  | [] => some .ended
  | ⟨region,level,index⟩::stack =>
    if it.abort = some region.id then some .ended
    else if index < 0 then
      match level with
      | 0 =>
        let it := it.pop region stack
        some (if acceptRegion region it.x0 it.y0 clip then .returned region it else .again it)
      | level+1 =>
        some (.again {it with stack := ⟨region,level,(region.level level).length-1⟩::stack})
    else
      (region.level level)[index.toNat]?.map fun child =>
        let it := {it with stack := ⟨region,level,index-1⟩::stack}
        if it.abort = some child.id then .ended
        else if acceptRegion child it.x0 it.y0 clip then
          match child.findLevel (child.levels-1) with
          | none => .returned child it
          | some level =>
            if checkDepth it.stack.length then
              .again (it.push ⟨child,level,(child.level level).length-1⟩)
            else .returned child it
        else .again it

def nextLoop (clip : Option Region) : ℕ → StretIteration → Option (Option StretRegion × StretIteration)
  | 0, _ => none
  | n+1, it => (turn clip it).bind fun
    | .ended => some (none,it)
    | .returned region it => some (some region,it)
    | .again it => nextLoop clip n it

def ahead (frame : StretIterationStackFrame) : List StretRegion :=
  ((frame.region.level frame.level).take (frame.index+1).toNat).reverse++
    frame.region.childrenBelow frame.level

def work (it : StretIteration) : ℕ :=
  (it.stack.map fun frame => ((ahead frame).map weight).sum+frame.level+1).sum

def next (it : StretIteration) (clip : Option Region) : Option (Option StretRegion × StretIteration) :=
  nextLoop clip (it.work+1) it

def regions : ℕ → StretIteration → Option (List Visit × ℤ × ℤ)
  | 0, _ => none
  | n+1, it => (it.next none).bind fun
    | (none,it) => some ([],it.x0,it.y0)
    | (some region,it) => (regions n it).map fun (l,stop) => (⟨region,it.x0,it.y0⟩::l,stop)

/-- A region to be entered or left, at the origin of its parent. -/
inductive Item
  | enter (region : StretRegion) (x0 y0 : ℤ)
  | leave (region : StretRegion) (x0 y0 : ℤ)

def within (l : List StretRegion) (region : StretRegion) (x0 y0 : ℤ) : List Item :=
  l.map (fun c => .enter c (x0+region.bounds.x1) (y0+region.bounds.y1))++[.leave region x0 y0]

def pendingFrames (abort : Option ℕ) : List StretIterationStackFrame → ℤ → ℤ → List Item
  | [], _, _ => []
  | frame::stack, x0, y0 =>
    if abort = some frame.region.id then []
    else within (ahead frame) frame.region (x0-frame.region.bounds.x1) (y0-frame.region.bounds.y1)++
      pendingFrames abort stack (x0-frame.region.bounds.x1) (y0-frame.region.bounds.y1)

def pending (it : StretIteration) : List Item := pendingFrames it.abort it.stack it.x0 it.y0

/-- The next region that is accepted when it is left, and what is pending then. Of a region that is
not accepted when it is to be entered, the children are not entered either. -/
inductive Yields (clip : Option Region) (abort : Option ℕ) :
    List Item → Option (Visit × List Item) → Prop
  | ended : Yields clip abort [] none
  | abort {region : StretRegion} {x0 y0 : ℤ} {rest : List Item} : abort = some region.id →
    Yields clip abort (.enter region x0 y0::rest) none
  | skip {region : StretRegion} {x0 y0 : ℤ} {rest : List Item} {r : Option (Visit × List Item)} :
    abort ≠ some region.id → acceptRegion region x0 y0 clip = false → Yields clip abort rest r →
    Yields clip abort (.enter region x0 y0::rest) r
  | enter {region : StretRegion} {x0 y0 : ℤ} {rest : List Item} {r : Option (Visit × List Item)} :
    abort ≠ some region.id → acceptRegion region x0 y0 clip = true →
    Yields clip abort (within region.childrenDown region x0 y0++rest) r →
    Yields clip abort (.enter region x0 y0::rest) r
  | leave {region : StretRegion} {x0 y0 : ℤ} {rest : List Item} :
    acceptRegion region x0 y0 clip = true →
    Yields clip abort (.leave region x0 y0::rest) (some (⟨region,x0,y0⟩,rest))
  | pass {region : StretRegion} {x0 y0 : ℤ} {rest : List Item} {r : Option (Visit × List Item)} :
    acceptRegion region x0 y0 clip = false → Yields clip abort rest r →
    Yields clip abort (.leave region x0 y0::rest) r

def Shallow : List StretIterationStackFrame → Prop
  | [] => True
  | frame::stack => frame.region.depth+stack.length ≤ maxDepth ∧ Shallow stack

structure Sound (it : StretIteration) : Prop where
  index : ∀ frame ∈ it.stack, -1 ≤ frame.index ∧
    frame.index < (frame.region.level frame.level).length
  x0_eq : it.x0 = (it.stack.map fun frame => frame.region.bounds.x1).sum
  y0_eq : it.y0 = (it.stack.map fun frame => frame.region.bounds.y1).sum
  shallow : Shallow it.stack

section Turn

variable {region child : StretRegion} {level : ℕ} {index : ℤ}
  {stack : List StretIterationStackFrame} {x0 y0 : ℤ} {abort : Option ℕ} {clip : Option Region}

theorem ahead_index (h : 0 ≤ index) (hchild : (region.level level)[index.toNat]? = some child) :
    ahead ⟨region,level,index⟩ = child::ahead ⟨region,level,index-1⟩ := by
  obtain ⟨n,rfl⟩ := Int.eq_ofNat_of_zero_le h
  have hn : (region.level level)[n]? = some child := hchild
  simp only [ahead]
  rw [show ((n : ℤ)+1).toNat = n+1 by omega,show ((n : ℤ)-1+1).toNat = n by omega,
    List.take_add_one,hn]
  simp

theorem ahead_level :
    ahead ⟨region,level,(region.level level).length-1⟩ = region.childrenBelow (level+1) := by
  simp only [ahead]
  rw [childrenBelow_succ,Int.sub_add_cancel,Int.toNat_natCast,List.take_length]

theorem ahead_done (level : ℕ) (h : index < 0) :
    ahead ⟨region,level,index⟩ = region.childrenBelow level := by
  simp only [ahead]
  rw [show (index+1).toNat = 0 by omega]
  rfl

theorem childrenBelow_pred (region : StretRegion) :
    region.childrenBelow (region.levels-1+1) = region.childrenDown := by
  rcases Nat.eq_zero_or_pos region.levels with h | h
  · have hnil : region.children = [] := List.length_eq_zero_iff.mp h
    rw [childrenBelow,childrenDown,hnil]
    simp
  · rw [Nat.sub_add_cancel h,childrenBelow_levels]

theorem mem_childrenDown_of_getElem? {n : ℕ} (h : (region.level level)[n]? = some child) :
    child ∈ region.childrenDown := by
  apply mem_childrenDown.mpr
  rw [StretRegion.level,List.getD_eq_getElem?_getD] at h
  cases hl : region.children[level]? with
  | none => simp [hl] at h
  | some l =>
    rw [hl] at h
    exact ⟨l,List.mem_of_getElem? hl,List.mem_of_getElem? h⟩

theorem lt_levels (h : region.level level ≠ []) : level < region.levels := by
  by_contra hge
  apply h
  rw [StretRegion.level,List.getD_eq_getElem?_getD,List.getElem?_eq_none (not_lt.mp hge)]
  rfl

theorem pending_frame (hid : abort ≠ some region.id) :
    pending ⟨⟨region,level,index⟩::stack,x0,y0,abort⟩ =
      (ahead ⟨region,level,index⟩).map (fun c => .enter c x0 y0)++
        .leave region (x0-region.bounds.x1) (y0-region.bounds.y1)::
          pendingFrames abort stack (x0-region.bounds.x1) (y0-region.bounds.y1) := by
  simp only [pending,pendingFrames,if_neg hid,within,sub_add_cancel,List.append_assoc,
    List.singleton_append]

theorem pending_index (hid : abort ≠ some region.id) (h : 0 ≤ index)
    (hchild : (region.level level)[index.toNat]? = some child)
    (stack : List StretIterationStackFrame) (x0 y0 : ℤ) :
    pending ⟨⟨region,level,index⟩::stack,x0,y0,abort⟩ =
      .enter child x0 y0::pending ⟨⟨region,level,index-1⟩::stack,x0,y0,abort⟩ := by
  rw [pending_frame hid,pending_frame hid,ahead_index h hchild]
  rfl

theorem work_index (h : 0 ≤ index) (hchild : (region.level level)[index.toNat]? = some child)
    (stack : List StretIterationStackFrame) (x0 y0 : ℤ) (abort : Option ℕ) :
    work ⟨⟨region,level,index⟩::stack,x0,y0,abort⟩ =
      child.weight+work ⟨⟨region,level,index-1⟩::stack,x0,y0,abort⟩ := by
  simp only [work,List.map_cons,List.sum_cons,ahead_index h hchild]
  ring

theorem Sound.down (h : Sound ⟨⟨region,level,index⟩::stack,x0,y0,abort⟩) (hindex : 0 ≤ index) :
    Sound ⟨⟨region,level,index-1⟩::stack,x0,y0,abort⟩ := by
  refine ⟨fun frame hf => ?_,h.x0_eq,h.y0_eq,h.shallow⟩
  rcases List.mem_cons.mp hf with rfl | hf
  · have := h.index ⟨region,level,index⟩ List.mem_cons_self
    dsimp only at *
    omega
  · exact h.index frame (List.mem_cons_of_mem _ hf)

theorem Sound.pop (h : Sound ⟨⟨region,level,index⟩::stack,x0,y0,abort⟩) :
    Sound (pop ⟨⟨region,level,index⟩::stack,x0,y0,abort⟩ region stack) := by
  refine ⟨fun frame hf => h.index frame (List.mem_cons_of_mem _ hf),?_,?_,h.shallow.2⟩
  · have := h.x0_eq
    simp only [List.map_cons,List.sum_cons,StretIteration.pop] at *
    omega
  · have := h.y0_eq
    simp only [List.map_cons,List.sum_cons,StretIteration.pop] at *
    omega

theorem Sound.lower (h : Sound ⟨⟨region,level+1,index⟩::stack,x0,y0,abort⟩) :
    Sound ⟨⟨region,level,(region.level level).length-1⟩::stack,x0,y0,abort⟩ := by
  refine ⟨fun frame hf => ?_,h.x0_eq,h.y0_eq,h.shallow⟩
  rcases List.mem_cons.mp hf with rfl | hf
  · dsimp only
    omega
  · exact h.index frame (List.mem_cons_of_mem _ hf)

theorem Sound.push (h : Sound ⟨⟨region,level,index⟩::stack,x0,y0,abort⟩)
    (hchild : child ∈ region.childrenDown) (n : ℕ) :
    Sound (push ⟨⟨region,level,index⟩::stack,x0,y0,abort⟩ ⟨child,n,(child.level n).length-1⟩) := by
  refine ⟨fun frame hf => ?_,?_,?_,?_,h.shallow⟩
  · rcases List.mem_cons.mp hf with rfl | hf
    · dsimp only
      omega
    · exact h.index frame hf
  · have := h.x0_eq
    simp only [List.map_cons,List.sum_cons,StretIteration.push] at *
    omega
  · have := h.y0_eq
    simp only [List.map_cons,List.sum_cons,StretIteration.push] at *
    omega
  · have hdepth := depth_lt hchild
    have := h.shallow.1
    simp only [List.length_cons] at *
    omega

/-- What a turn does to an iteration, by what is pending. -/
inductive Turned (clip : Option Region) (it : StretIteration) : Turn → Prop
  | ended : Yields clip it.abort (pending it) none → (it.abort = none → it.stack = []) →
    Turned clip it .ended
  | returned {region : StretRegion} {it' : StretIteration} :
    Yields clip it.abort (pending it) (some (⟨region,it'.x0,it'.y0⟩,pending it')) → Sound it' →
    it'.abort = it.abort → it'.work < it.work → Turned clip it (.returned region it')
  | again {it' : StretIteration} :
    (∀ r, Yields clip it.abort (pending it') r → Yields clip it.abort (pending it) r) → Sound it' →
    it'.abort = it.abort → it'.work < it.work → Turned clip it (.again it')

theorem turn_leave (h : Sound ⟨⟨region,0,index⟩::stack,x0,y0,abort⟩) (hid : abort ≠ some region.id)
    (hindex : index < 0) (clip : Option Region) :
    let it := pop ⟨⟨region,0,index⟩::stack,x0,y0,abort⟩ region stack
    Turned clip ⟨⟨region,0,index⟩::stack,x0,y0,abort⟩
      (if acceptRegion region it.x0 it.y0 clip then .returned region it else .again it) := by
  intro it
  have hpending : pending ⟨⟨region,0,index⟩::stack,x0,y0,abort⟩ =
      .leave region it.x0 it.y0::pending it := by
    rw [pending_frame hid,ahead_done 0 hindex,childrenBelow_zero]
    rfl
  have hwork : it.work < work ⟨⟨region,0,index⟩::stack,x0,y0,abort⟩ := by
    simp only [work,List.map_cons,List.sum_cons,it,pop]
    omega
  split_ifs with haccept
  · exact .returned (hpending ▸ .leave haccept) h.pop rfl hwork
  · exact .again (fun r hr => hpending ▸ .pass (by simpa using haccept) hr) h.pop rfl hwork

theorem turn_lower (h : Sound ⟨⟨region,level+1,index⟩::stack,x0,y0,abort⟩)
    (hid : abort ≠ some region.id) (hindex : index < 0) (clip : Option Region) :
    Turned clip ⟨⟨region,level+1,index⟩::stack,x0,y0,abort⟩
      (.again ⟨⟨region,level,(region.level level).length-1⟩::stack,x0,y0,abort⟩) := by
  refine .again (fun r hr => ?_) h.lower rfl ?_
  · rw [pending_frame hid,ahead_level] at hr
    rw [pending_frame hid,ahead_done _ hindex]
    exact hr
  · simp only [work,List.map_cons,List.sum_cons]
    rw [ahead_level,ahead_done _ hindex]
    omega

theorem turn_enter (h : Sound ⟨⟨region,level,index⟩::stack,x0,y0,abort⟩)
    (hid : abort ≠ some region.id) (hindex : 0 ≤ index)
    (hchild : (region.level level)[index.toNat]? = some child) (hno : abort ≠ some child.id)
    (haccept : acceptRegion child x0 y0 clip = true) :
    let it := ⟨⟨region,level,index-1⟩::stack,x0,y0,abort⟩
    Turned clip ⟨⟨region,level,index⟩::stack,x0,y0,abort⟩
      (match child.findLevel (child.levels-1) with
      | none => .returned child it
      | some level =>
        if checkDepth (stack.length+1) then .again (it.push ⟨child,level,(child.level level).length-1⟩)
        else .returned child it) := by
  intro it
  have hdown := h.down hindex
  have hmem := mem_childrenDown_of_getElem? hchild
  have hpending := pending_index hid hindex hchild stack x0 y0
  have hwork := work_index hindex hchild stack x0 y0 abort
  have hit : it.work = work ⟨⟨region,level,index-1⟩::stack,x0,y0,abort⟩ := rfl
  have hweight := weight_eq child
  have hfind := findLevel_spec child (child.levels-1)
  rw [childrenBelow_pred] at hfind
  cases hl : child.findLevel (child.levels-1) with
  | none =>
    simp only [hl] at hfind
    refine .returned ?_ hdown rfl (by omega)
    rw [hpending]
    apply Yields.enter hno haccept
    rw [hfind]
    exact .leave haccept
  | some n =>
    simp only [hl] at hfind
    obtain ⟨hne,hle,hall⟩ := hfind
    have hpos : 0 < child.depth := by
      obtain ⟨c,hc⟩ := List.exists_mem_of_ne_nil _ hne
      have : c ∈ child.childrenDown := by simp [hall,hc]
      exact (Nat.zero_le _).trans_lt (depth_lt this)
    have hroom : checkDepth (stack.length+1) = true := by
      have := depth_lt hmem
      have := h.shallow.1
      simp only [checkDepth,decide_eq_true_eq] at *
      omega
    have hahead : ahead ⟨child,n,(child.level n).length-1⟩ = child.childrenDown := by
      rw [ahead_level,childrenBelow_succ,hall]
    simp only [if_pos hroom]
    refine .again (fun r hr => ?_) (hdown.push hmem n) rfl ?_
    · rw [hpending]
      apply Yields.enter hno haccept
      have hpush : pending (it.push ⟨child,n,(child.level n).length-1⟩) =
          within child.childrenDown child x0 y0++pending it := by
        have hx : x0+child.bounds.x1-child.bounds.x1 = x0 := by ring
        have hy : y0+child.bounds.y1-child.bounds.y1 = y0 := by ring
        simp only [push,pending,pendingFrames,if_neg hno,hahead,it,hx,hy]
      rw [← hpush]
      exact hr
    · have hlt := lt_levels hne
      have : (it.push ⟨child,n,(child.level n).length-1⟩).work =
          (child.childrenDown.map weight).sum+n+1+it.work := by
        simp only [work,push,List.map_cons,List.sum_cons,hahead,it]
      omega

theorem turn_spec (it : StretIteration) (h : Sound it) (clip : Option Region) :
    ∃ t, turn clip it = some t ∧ Turned clip it t := by
  obtain ⟨stack,x0,y0,abort⟩ := it
  cases stack with
  | nil => exact ⟨.ended,rfl,.ended .ended fun _ => rfl⟩
  | cons frame stack =>
    obtain ⟨region,level,index⟩ := frame
    simp only [turn]
    by_cases hid : abort = some region.id
    · rw [if_pos hid]
      refine ⟨_,rfl,.ended ?_ fun hnone => ?_⟩
      · simp only [pending,pendingFrames,if_pos hid]
        exact .ended
      · rw [show abort = none from hnone] at hid
        cases hid
    rw [if_neg hid]
    by_cases hindex : index < 0
    · rw [if_pos hindex]
      cases level with
      | zero => exact ⟨_,rfl,turn_leave h hid hindex clip⟩
      | succ level => exact ⟨_,rfl,turn_lower h hid hindex clip⟩
    · rw [if_neg hindex]
      have hindex : 0 ≤ index := not_lt.mp hindex
      obtain ⟨child,hchild⟩ : ∃ child, (region.level level)[index.toNat]? = some child := by
        have := h.index ⟨region,level,index⟩ List.mem_cons_self
        dsimp only at this
        exact ⟨_,List.getElem?_eq_getElem (by omega)⟩
      have hpending := pending_index hid hindex hchild stack x0 y0
      have hwork := work_index hindex hchild stack x0 y0 abort
      rw [hchild]
      refine ⟨_,rfl,?_⟩
      dsimp only
      by_cases hno : abort = some child.id
      · rw [if_pos hno]
        refine .ended (hpending ▸ .abort hno) fun hnone => ?_
        rw [show abort = none from hnone] at hno
        cases hno
      rw [if_neg hno]
      by_cases haccept : acceptRegion child x0 y0 clip = true
      · rw [if_pos haccept]
        exact turn_enter h hid hindex hchild hno haccept
      · rw [if_neg haccept]
        have hweight := weight_eq child
        exact .again (fun r hr => hpending ▸ .skip hno (by simpa using haccept) hr) (h.down hindex) rfl
          (by omega)

end Turn

/-- What asking for the next region comes to. -/
inductive Asked (clip : Option Region) (it : StretIteration) : Option StretRegion × StretIteration → Prop
  | ended {it' : StretIteration} : Yields clip it.abort (pending it) none →
    (it.abort = none → it'.x0 = 0 ∧ it'.y0 = 0) → Asked clip it (none,it')
  | returned {region : StretRegion} {it' : StretIteration} :
    Yields clip it.abort (pending it) (some (⟨region,it'.x0,it'.y0⟩,pending it')) → Sound it' →
    it'.abort = it.abort → it'.work < it.work → Asked clip it (some region,it')

theorem nextLoop_spec {n : ℕ} (it : StretIteration) (h : Sound it) (clip : Option Region)
    (hn : it.work < n) : ∃ r, nextLoop clip n it = some r ∧ Asked clip it r := by
  induction n generalizing it with
  | zero => exact absurd hn (Nat.not_lt_zero _)
  | succ n ih =>
    obtain ⟨t,ht,hspec⟩ := turn_spec it h clip
    rw [nextLoop,ht]
    cases hspec with
    | ended hy hstack =>
      refine ⟨_,rfl,.ended hy fun hnone => ?_⟩
      rw [h.x0_eq,h.y0_eq,hstack hnone]
      exact ⟨rfl,rfl⟩
    | returned hy hs ha hw => exact ⟨_,rfl,.returned hy hs ha hw⟩
    | @again it' hy hs ha hw =>
      obtain ⟨r,hr,hasked⟩ := ih it' hs (by omega)
      refine ⟨r,hr,?_⟩
      cases hasked with
      | ended hy' hstop => exact .ended (hy _ (ha ▸ hy')) fun hnone => hstop (ha.trans hnone)
      | returned hy' hs' ha' hw' =>
        exact .returned (hy _ (ha ▸ hy')) hs' (ha'.trans ha) (hw'.trans hw)

theorem next_spec (it : StretIteration) (h : Sound it) (clip : Option Region) :
    ∃ r, it.next clip = some r ∧ Asked clip it r :=
  nextLoop_spec it h clip (Nat.lt_succ_self _)

def lastFrame (region : StretRegion) : StretIterationStackFrame :=
  ⟨region,region.levels-1,(region.level (region.levels-1)).length-1-1⟩

/-- What is pending after the descent to last children. -/
def descent (region : StretRegion) (x0 y0 : ℤ) : ℕ → List Item
  | 0 => within region.childrenDown region x0 y0
  | left+1 =>
    match lastChild region with
    | none => within region.childrenDown region x0 y0
    | some child =>
      if (lastChild child).isSome then
        descent child (x0+region.bounds.x1) (y0+region.bounds.y1) left++
          within (ahead (lastFrame region)) region x0 y0
      else within region.childrenDown region x0 y0

def descentFrames (region : StretRegion) : ℕ → List StretIterationStackFrame
  | 0 => [lastFrame region]
  | left+1 =>
    match lastChild region with
    | none => [lastFrame region]
    | some child =>
      if (lastChild child).isSome then descentFrames child left++[lastFrame region]
      else [lastFrame region]

theorem childrenDown_of_lastChild {region child : StretRegion} (h : lastChild region = some child) :
    region.childrenDown = child::ahead (lastFrame region) := by
  rw [lastChild,List.getLast?_eq_getElem?] at h
  have hlen : (region.level (region.levels-1)).length ≠ 0 := by
    intro hzero
    simp [List.length_eq_zero_iff.mp hzero] at h
  have hahead := @ahead_index region child (region.levels-1)
    ((region.level (region.levels-1)).length-1) (by omega)
    (by rw [show (((region.level (region.levels-1)).length : ℤ)-1).toNat =
      (region.level (region.levels-1)).length-1 by omega]; exact h)
  rw [ahead_level,childrenBelow_pred] at hahead
  exact hahead

theorem initLoop_frames (it : StretIteration) (region : StretRegion) (left : ℕ) :
    (initLoop it region left).stack = descentFrames region left++it.stack := by
  induction left generalizing it region with
  | zero => rfl
  | succ left ih =>
    rw [initLoop,descentFrames]
    cases lastChild region with
    | none => rfl
    | some child =>
      dsimp only
      split_ifs
      · rw [ih,List.append_assoc]
        rfl
      · rfl

theorem initLoop_abort (it : StretIteration) (region : StretRegion) (left : ℕ) :
    (initLoop it region left).abort = it.abort := by
  induction left generalizing it region with
  | zero => rfl
  | succ left ih =>
    rw [initLoop]
    cases lastChild region with
    | none => rfl
    | some child =>
      dsimp only
      split_ifs
      · exact ih _ _
      · rfl

section Init

variable {it : StretIteration} {region child : StretRegion}

theorem pending_enterLast (h : it.abort = none) : pending (restore (it.enterLast region)) =
    within region.childrenDown region it.x0 it.y0++pending it := by
  have hx : it.x0+region.bounds.x1-region.bounds.x1 = it.x0 := by ring
  have hy : it.y0+region.bounds.y1-region.bounds.y1 = it.y0 := by ring
  have hahead := @ahead_level region (region.levels-1)
  rw [childrenBelow_pred] at hahead
  simp only [restore,enterLast,push,pending,pendingFrames,h,reduceCtorEq,if_false,hx,hy,
    Int.sub_add_cancel,hahead]

theorem pending_initLoop (h : it.abort = none) (region : StretRegion) (left : ℕ) :
    pending (restore (initLoop it region left)) = descent region it.x0 it.y0 left++pending it := by
  induction left generalizing it region with
  | zero => exact pending_enterLast h
  | succ left ih =>
    rw [initLoop,descent]
    cases lastChild region with
    | none => exact pending_enterLast h
    | some child =>
      dsimp only
      split_ifs
      · rw [@ih (it.enterLast region) h]
        have hx : it.x0+region.bounds.x1-region.bounds.x1 = it.x0 := by ring
        have hy : it.y0+region.bounds.y1-region.bounds.y1 = it.y0 := by ring
        simp only [enterLast,push,pending,pendingFrames,h,reduceCtorEq,if_false,hx,hy,
          List.append_assoc]
        rfl
      · exact pending_enterLast h

theorem Sound.enterLast (h : Sound it) (hdepth : region.depth+it.stack.length ≤ maxDepth)
    (hchild : (lastChild region).isSome) : Sound (it.enterLast region) := by
  refine ⟨fun frame hf => ?_,?_,?_,hdepth,h.shallow⟩
  · rcases List.mem_cons.mp hf with rfl | hf
    · have hlen : (region.level (region.levels-1)).length ≠ 0 := by
        intro hzero
        simp [lastChild,List.length_eq_zero_iff.mp hzero] at hchild
      dsimp only
      omega
    · exact h.index frame hf
  · have := h.x0_eq
    simp only [StretIteration.enterLast,StretIteration.push,List.map_cons,List.sum_cons]
    omega
  · have := h.y0_eq
    simp only [StretIteration.enterLast,StretIteration.push,List.map_cons,List.sum_cons]
    omega

theorem Sound.restoreLast (h : Sound it) (hdepth : region.depth+it.stack.length ≤ maxDepth) :
    Sound (restore (it.enterLast region)) := by
  refine ⟨fun frame hf => ?_,?_,?_,hdepth,h.shallow⟩
  · rcases List.mem_cons.mp hf with rfl | hf
    · dsimp only
      omega
    · exact h.index frame hf
  · have := h.x0_eq
    simp only [restore,StretIteration.enterLast,StretIteration.push,List.map_cons,List.sum_cons]
    omega
  · have := h.y0_eq
    simp only [restore,StretIteration.enterLast,StretIteration.push,List.map_cons,List.sum_cons]
    omega

theorem Sound.initLoop (h : Sound it) (region : StretRegion)
    (hdepth : region.depth+it.stack.length ≤ maxDepth) (left : ℕ) :
    Sound (restore (initLoop it region left)) := by
  induction left generalizing it region with
  | zero => exact h.restoreLast hdepth
  | succ left ih =>
    rw [StretIteration.initLoop]
    cases hc : lastChild region with
    | none => exact h.restoreLast hdepth
    | some child =>
      dsimp only
      split_ifs
      · refine ih (h.enterLast hdepth (by simp [hc])) child ?_
        have hmem : child ∈ region.childrenDown := by
          rw [childrenDown_of_lastChild hc]
          exact List.mem_cons_self
        have := depth_lt hmem
        simp only [StretIteration.enterLast,StretIteration.push,List.length_cons]
        omega
      · exact h.restoreLast hdepth

theorem init_sound {root : StretRegion} (h : root.depth ≤ maxDepth) (abortAt : Option ℕ) :
    Sound (init root abortAt) :=
  @Sound.initLoop ⟨[],0,0,abortAt⟩ ⟨by simp,rfl,rfl,trivial⟩ root h _

theorem restore_abort (it : StretIteration) : (restore it).abort = it.abort := by
  rw [restore]
  split <;> rfl

theorem init_abort (root : StretRegion) (abortAt : Option ℕ) :
    (init root abortAt).abort = abortAt := by
  rw [init,restore_abort,initLoop_abort]

theorem pending_init (root : StretRegion) : pending (init root none) = descent root 0 0 (maxDepth-1) := by
  rw [init,pending_initLoop rfl]
  exact List.append_nil _

end Init

end StretIteration
end DirectFB
