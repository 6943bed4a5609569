import DirectFB.Reaches
import DirectFB.Types

/-! Accesses of tasks to surface allocations: which tasks a task waits for when it is set up,
and which accesses invalidate or flush the cache of their accessor. -/
namespace DirectFB.SurfaceTask
open Function (update update_apply update_of_ne update_self)
open Transition

/-- The accessors that have a bit in `invalidated`. -/
abbrev CoreSurfaceAccessorID := Fin 32

/-- `SurfaceAllocationAccess` -/
structure AllocationAccess (α : Type*) where
  allocation : α
  flags : CoreSurfaceAccessFlags

/-- The fields of `SurfaceTask`, with the flags and the queue of `Task` that it looks at. -/
structure Fields (α : Type*) where
  accessor : CoreSurfaceAccessorID
  qid : ℕ
  followReader : Bool
  followWriter : Bool
  accesses : List (AllocationAccess α)

/-- What tasks know of an allocation. `write` is `write_task` with the index of `write_access`
among its accesses, and `readTasks` the keys of the map `read_tasks`. -/
structure Allocation (ι : Type*) where
  invalidated : BitVec 32
  write : Option (ι × ℕ)
  readTasks : List ι

inductive Stage
  | new | setUp | finalised
  deriving DecidableEq

structure Entry (ι α : Type*) where
  task : ι
  index : ℕ
  allocation : α
  write : Bool

/-- The tasks and allocations. It is kept in mind which calls of `AddNotify` were made, as the
task it is called for, the notified one and `follow`, and which accesses were set up, the last
one first. -/
structure State (ι α : Type*) where
  task : ι → Fields α
  allocation : α → Allocation ι
  stage : ι → Stage
  calls : List (ι × ι × Bool)
  log : List (Entry ι α)

variable {ι α : Type*} [DecidableEq ι] [DecidableEq α]

def access (x : State ι α) (t : ι) (i : ℕ) : Option (AllocationAccess α) := (x.task t).accesses[i]?

def setFlags (x : State ι α) (t : ι) (i : ℕ)
    (f : CoreSurfaceAccessFlags → CoreSurfaceAccessFlags) : State ι α :=
  let accesses := (x.task t).accesses.modify i fun access => {access with flags := f access.flags}
  {x with task := update x.task t {x.task t with accesses := accesses}}

def setAllocation (x : State ι α) (a : α) (f : Allocation ι → Allocation ι) : State ι α :=
  {x with allocation := update x.allocation a (f (x.allocation a))}

/-- `1 << accessor` -/
def bit (accessor : CoreSurfaceAccessorID) : BitVec 32 := 1 <<< accessor.val

def sameQueue (x : State ι α) (p t : ι) : Bool :=
  (x.task p).accessor = (x.task t).accessor && (x.task p).qid = (x.task t).qid

def invalidate (x : State ι α) (t : ι) (i : ℕ) (a : α) : State ι α :=
  if (x.allocation a).invalidated &&& bit (x.task t).accessor = 0 then
    setAllocation (setFlags x t i fun flags => {flags with cacheInvalidate := true}) a
      fun allocation => {allocation with
        invalidated := allocation.invalidated ||| bit (x.task t).accessor}
  else x

/-- `AddNotify` for the readers, and `read_tasks.Clear()`. -/
def notifyReaders (x : State ι α) (t : ι) (a : α) : State ι α :=
  let calls := (x.allocation a).readTasks.map fun r =>
    (r,t,sameQueue x r t || (x.task t).followReader)
  {setAllocation x a fun allocation => {allocation with readTasks := []} with
    calls := x.calls++calls}

/-- `AddNotify` for the last writer. -/
def notifyWriter (x : State ι α) (t : ι) (a : α) : State ι α :=
  match (x.allocation a).write with
  | some (w,_) => {x with calls := x.calls++[(w,t,sameQueue x w t || (x.task t).followWriter)]}
  | none => x

def keepCache (x : State ι α) (t : ι) (a : α) : State ι α :=
  match (x.allocation a).write with
  | some (w,i) =>
    if (x.task w).accessor = (x.task t).accessor then
      setFlags x w i fun flags => {flags with cacheFlush := false}
    else x
  | none => x

/-- `SurfaceTask::Setup`, for an access with `CSAF_WRITE`. -/
def setupWrite (x : State ι α) (t : ι) (i : ℕ) (a : α) : State ι α :=
  let x := setAllocation x a fun allocation => {allocation with
    invalidated := allocation.invalidated &&& bit (x.task t).accessor}
  let x := if (x.allocation a).readTasks ≠ [] then notifyReaders x t a
    else notifyWriter (keepCache x t a) t a
  setAllocation (setFlags x t i fun flags => {flags with cacheFlush := true}) a
    fun allocation => {allocation with write := some (t,i)}

/-- `SurfaceTask::Setup`, for an access without `CSAF_WRITE`. -/
def setupRead (x : State ι α) (t : ι) (a : α) : State ι α :=
  setAllocation (notifyWriter x t a) a fun allocation => {allocation with
    readTasks := allocation.readTasks.insert t}

/-- One round of the loop in `SurfaceTask::Setup`. -/
def setupAccess (t : ι) (x : State ι α) (i : ℕ) : State ι α :=
  match access x t i with
  | none => x
  | some ⟨a,flags⟩ =>
    let y := invalidate x t i a
    let y := if flags.write then setupWrite y t i a else setupRead y t a
    {y with log := ⟨t,i,a,flags.write⟩::y.log}

/-- `SurfaceTask::Setup` -/
def setup (x : State ι α) (t : ι) : State ι α :=
  (List.range (x.task t).accesses.length).foldl (setupAccess t)
    {x with stage := update x.stage t .setUp}

/-- One round of the loop in `SurfaceTask::Finalise`. -/
def finaliseAccess (t : ι) (x : State ι α) (access : AllocationAccess α) : State ι α :=
  setAllocation x access.allocation fun allocation =>
    if access.flags.write then
      if (allocation.write.map Prod.fst) = some t then {allocation with write := none} else allocation
    else {allocation with readTasks := allocation.readTasks.filter (· ≠ t)}

/-- `SurfaceTask::Finalise` -/
def finalise (x : State ι α) (t : ι) : State ι α :=
  let y := (x.task t).accesses.foldl (finaliseAccess t) x
  {y with
    task := update y.task t {y.task t with accesses := []}
    stage := update y.stage t .finalised}

inductive Event (ι : Type*)
  | setup (t : ι)
  | finalise (t : ι)

/-- A task whose predecessors, for which `AddNotify` was called, were finalised. -/
def Preceded (x : State ι α) (t : ι) : Prop :=
  ∀ c ∈ x.calls, c.2.1 = t → c.1 ≠ t → x.stage c.1 = .finalised

instance (x : State ι α) (t : ι) : Decidable (Preceded x t) :=
  inferInstanceAs (Decidable (∀ c ∈ x.calls, c.2.1 = t → c.1 ≠ t → x.stage c.1 = .finalised))

def step (x : State ι α) : Event ι → Option (State ι α)
  | .setup t => if x.stage t = .new then some (setup x t) else none
  | .finalise t => if x.stage t = .setUp ∧ Preceded x t then some (finalise x t) else none

def init (x : State ι α) : Prop :=
  (∀ a, x.allocation a = ⟨0,none,[]⟩) ∧ (∀ t, x.stage t = .new) ∧ x.calls = [] ∧ x.log = []

section Fields
variable {x : State ι α}

omit [DecidableEq α] in
theorem access_setFlags (x : State ι α) (t s : ι) (i j : ℕ)
    (f : CoreSurfaceAccessFlags → CoreSurfaceAccessFlags) :
    access (setFlags x t i f) s j =
      if s = t ∧ j = i then (access x s j).map fun access => {access with flags := f access.flags}
      else access x s j := by
  unfold access setFlags
  dsimp only
  rw [update_apply]
  by_cases hs : s = t
  · subst hs
    rw [if_pos rfl]
    dsimp only
    by_cases hj : j = i
    · subst hj
      rw [List.getElem?_modify_eq,if_pos ⟨rfl,rfl⟩]
      rfl
    · rw [List.getElem?_modify_ne _ _ (Ne.symm hj),if_neg fun h => hj h.2]
  · rw [if_neg hs,if_neg fun h => hs h.1]

omit [DecidableEq ι] in
theorem access_setAllocation (x : State ι α) (a : α) (f : Allocation ι → Allocation ι) (s : ι)
    (j : ℕ) : access (setAllocation x a f) s j = access x s j := rfl

omit [DecidableEq α] in
theorem task_setFlags (x : State ι α) (t s : ι) (i : ℕ)
    (f : CoreSurfaceAccessFlags → CoreSurfaceAccessFlags) :
    ((setFlags x t i f).task s).accessor = (x.task s).accessor ∧
    ((setFlags x t i f).task s).accesses.length = (x.task s).accesses.length := by
  unfold setFlags
  dsimp only
  rw [update_apply]
  split_ifs with hs
  · subst hs
    exact ⟨rfl,List.length_modify ..⟩
  · exact ⟨rfl,rfl⟩

theorem and_bit (b : BitVec 32) (accessor : CoreSurfaceAccessorID) :
    b &&& bit accessor = 0 ↔ b.getLsbD accessor = false := by
  have hbit : bit accessor = BitVec.twoPow 32 accessor := (BitVec.twoPow_eq 32 accessor).symm
  rw [hbit,BitVec.and_twoPow]
  split_ifs with h
  · refine iff_of_false (fun hz => ?_) (by simp [h])
    have hl := congrArg (fun v => v.getLsbD accessor) hz
    simp at hl
  · simpa using h

theorem getLsbD_bit (accessor other : CoreSurfaceAccessorID) :
    (bit accessor).getLsbD other = decide (other = accessor) := by
  have hbit : bit accessor = BitVec.twoPow 32 accessor := (BitVec.twoPow_eq 32 accessor).symm
  rw [hbit,BitVec.getLsbD_twoPow]
  simp [Fin.ext_iff,eq_comm]

theorem invalidate_access (x : State ι α) (t : ι) (i : ℕ) (a : α) (s : ι) (j : ℕ) :
    access (invalidate x t i a) s j =
      if (s = t ∧ j = i) ∧ (x.allocation a).invalidated.getLsbD (x.task t).accessor = false then
        (access x s j).map fun access =>
          {access with flags := {access.flags with cacheInvalidate := true}}
      else access x s j := by
  unfold invalidate
  by_cases h : (x.allocation a).invalidated.getLsbD (x.task t).accessor = false
  · rw [if_pos ((and_bit _ _).mpr h)]
    rw [access_setAllocation,access_setFlags]
    simp only [h,and_true]
  · rw [if_neg fun hz => h ((and_bit _ _).mp hz),if_neg fun hc => h hc.2]

/-- Only the mask of the allocation changes, by the bit of the accessor. -/
theorem invalidate_allocation (x : State ι α) (t : ι) (i : ℕ) (a b : α) :
    ∃ mask, (invalidate x t i a).allocation b = {x.allocation b with invalidated := mask} ∧
      (b ≠ a → mask = (x.allocation b).invalidated) ∧
      ∀ X : CoreSurfaceAccessorID, mask.getLsbD X = true →
        X = (x.task t).accessor ∨ (x.allocation b).invalidated.getLsbD X = true := by
  unfold invalidate
  split_ifs with h
  · unfold setAllocation
    dsimp only
    rw [update_apply]
    split_ifs with hb
    · subst hb
      refine ⟨_,rfl,absurd rfl,fun X hX => ?_⟩
      change ((x.allocation b).invalidated ||| bit (x.task t).accessor).getLsbD X = true at hX
      rw [BitVec.getLsbD_or,Bool.or_eq_true,getLsbD_bit,decide_eq_true_eq] at hX
      exact hX.symm
    · exact ⟨_,rfl,fun _ => rfl,fun _ hX => .inr hX⟩
  · exact ⟨_,rfl,fun _ => rfl,fun _ hX => .inr hX⟩

theorem invalidate_same (x : State ι α) (t : ι) (i : ℕ) (a : α) :
    (invalidate x t i a).log = x.log ∧ (invalidate x t i a).stage = x.stage ∧
    (invalidate x t i a).calls = x.calls ∧
    ∀ s, ((invalidate x t i a).task s).accessor = (x.task s).accessor ∧
      ((invalidate x t i a).task s).accesses.length = (x.task s).accesses.length := by
  unfold invalidate
  split_ifs
  · exact ⟨rfl,rfl,rfl,fun s =>
      task_setFlags x t s i fun flags => {flags with cacheInvalidate := true}⟩
  · exact ⟨rfl,rfl,rfl,fun s => ⟨rfl,rfl⟩⟩

omit [DecidableEq ι] [DecidableEq α] in
/-- Only a call of `AddNotify` for the writer is added. -/
theorem notifyWriter_eq (x : State ι α) (t : ι) (a : α) : ∃ calls,
    notifyWriter x t a = {x with calls := x.calls++calls} ∧
    ∀ w j, (x.allocation a).write = some (w,j) → ∃ follow, (w,t,follow) ∈ calls := by
  unfold notifyWriter
  cases h : (x.allocation a).write with
  | none => exact ⟨[],by simp,fun w j hw => (by cases hw)⟩
  | some w =>
    obtain ⟨w,i⟩ := w
    refine ⟨_,rfl,fun v j hv => ?_⟩
    obtain ⟨rfl,-⟩ := Prod.mk.inj (Option.some.inj hv)
    exact ⟨_,List.mem_singleton_self _⟩

omit [DecidableEq α] in
theorem keepCache_access (x : State ι α) (t : ι) (a : α) (s : ι) (j : ℕ) :
    access (keepCache x t a) s j =
      if (x.allocation a).write = some (s,j) ∧ (x.task s).accessor = (x.task t).accessor then
        (access x s j).map fun access =>
          {access with flags := {access.flags with cacheFlush := false}}
      else access x s j := by
  unfold keepCache
  cases h : (x.allocation a).write with
  | none => simp
  | some w =>
    obtain ⟨w,i⟩ := w
    dsimp only
    by_cases hw : (x.task w).accessor = (x.task t).accessor
    · rw [if_pos hw,access_setFlags]
      by_cases hs : s = w ∧ j = i
      · obtain ⟨rfl,rfl⟩ := hs
        rw [if_pos ⟨rfl,rfl⟩,if_pos ⟨rfl,hw⟩]
      · rw [if_neg hs,if_neg]
        rintro ⟨he,-⟩
        obtain ⟨rfl,rfl⟩ := Prod.mk.inj (Option.some.inj he)
        exact hs ⟨rfl,rfl⟩
    · rw [if_neg hw,if_neg]
      rintro ⟨he,hacc⟩
      obtain ⟨rfl,rfl⟩ := Prod.mk.inj (Option.some.inj he)
      exact hw hacc

omit [DecidableEq α] in
theorem keepCache_same (x : State ι α) (t : ι) (a : α) :
    (keepCache x t a).log = x.log ∧ (keepCache x t a).stage = x.stage ∧
    (keepCache x t a).calls = x.calls ∧ (keepCache x t a).allocation = x.allocation ∧
    ∀ s, ((keepCache x t a).task s).accessor = (x.task s).accessor ∧
      ((keepCache x t a).task s).accesses.length = (x.task s).accesses.length := by
  unfold keepCache
  split
  · split_ifs
    · exact ⟨rfl,rfl,rfl,rfl,fun s => task_setFlags x _ s _ _⟩
    · exact ⟨rfl,rfl,rfl,rfl,fun s => ⟨rfl,rfl⟩⟩
  · exact ⟨rfl,rfl,rfl,rfl,fun s => ⟨rfl,rfl⟩⟩

end Fields

/-- What setting up an access changes: the log, the allocation, the flags of the access, and
whether the last writer has to flush. -/
structure Accessed (x y : State ι α) (t : ι) (i : ℕ) (a : α) (write : Bool) : Prop where
  log : y.log = ⟨t,i,a,write⟩::x.log
  stage : y.stage = x.stage
  calls : ∀ c ∈ x.calls, c ∈ y.calls
  waits : write = false → ∀ w j, (x.allocation a).write = some (w,j) →
    ∃ follow, (w,t,follow) ∈ y.calls
  other : ∀ b, b ≠ a → y.allocation b = x.allocation b
  writer : (y.allocation a).write = if write then some (t,i) else (x.allocation a).write
  readers : (y.allocation a).readTasks =
    if write then [] else (x.allocation a).readTasks.insert t
  invalidated : ∀ X : CoreSurfaceAccessorID, (y.allocation a).invalidated.getLsbD X = true →
    X = (x.task t).accessor ∨ write = false ∧ (x.allocation a).invalidated.getLsbD X = true
  accessor : ∀ s, (y.task s).accessor = (x.task s).accessor
  length : ∀ s, (y.task s).accesses.length = (x.task s).accesses.length
  access : ∀ s j r, access x s j = some r → ∃ flags, access y s j = some ⟨r.allocation,flags⟩ ∧
    flags.write = r.flags.write ∧
    (r.flags.cacheInvalidate = true ∨
      (s = t ∧ j = i) ∧ (x.allocation a).invalidated.getLsbD (x.task t).accessor = false →
      flags.cacheInvalidate = true) ∧
    ((s = t ∧ j = i) ∧ write = true ∨ r.flags.cacheFlush = true ∧
      ¬(write = true ∧ (x.allocation a).readTasks = [] ∧ (x.allocation a).write = some (s,j) ∧
        (x.task s).accessor = (x.task t).accessor) → flags.cacheFlush = true)

section Access
variable {x : State ι α} {t : ι} {i : ℕ} {a : α}

theorem accessed_setupRead (x : State ι α) (t : ι) (i : ℕ) (a : α) :
    Accessed x {setupRead (invalidate x t i a) t a with
      log := ⟨t,i,a,false⟩::(setupRead (invalidate x t i a) t a).log} t i a false := by
  obtain ⟨hlog,hstage,hcalls,htask⟩ := invalidate_same x t i a
  have haccess := invalidate_access x t i a
  have hallocation := invalidate_allocation x t i a
  obtain ⟨mask,hmask,-,hbits⟩ := hallocation a
  unfold setupRead
  generalize invalidate x t i a = y at *
  obtain ⟨calls,hnotify,hwaits⟩ := notifyWriter_eq y t a
  rw [hnotify]
  unfold setAllocation
  dsimp only
  refine ⟨congrArg _ hlog,hstage,fun c hc => ?_,fun _ w j hw => ?_,fun b hb => ?_,?_,?_,
    fun X hX => ?_,fun s => (htask s).1,fun s => (htask s).2,fun s j r hr => ?_⟩
  · exact List.mem_append_left _ (hcalls ▸ hc)
  · rw [hmask] at hwaits
    obtain ⟨follow,hin⟩ := hwaits w j hw
    exact ⟨follow,List.mem_append_right _ hin⟩
  · obtain ⟨mask',hb',hsame,-⟩ := hallocation b
    dsimp only
    rw [update_of_ne hb,hb',hsame hb]
  · dsimp only
    rw [update_self,hmask]
    rfl
  · dsimp only
    rw [update_self,hmask]
    rfl
  · dsimp only at hX
    rw [update_self,hmask] at hX
    exact (hbits X hX).imp_right fun h => ⟨rfl,h⟩
  · have hy := haccess s j
    rw [hr] at hy
    split_ifs at hy with hi
    · exact ⟨_,hy,rfl,fun _ => rfl,fun hf => hf.elim (fun h => (by cases h.2)) And.left⟩
    · refine ⟨_,hy,rfl,fun hf => hf.elim id fun h => absurd h hi,fun hf => ?_⟩
      exact hf.elim (fun h => (by cases h.2)) And.left

theorem setupWrite_notified (y : State ι α) (t : ι) (a : α) : ∃ z : State ι α,
    z = (if (y.allocation a).readTasks ≠ [] then notifyReaders y t a
      else notifyWriter (keepCache y t a) t a) ∧
    z.log = y.log ∧ z.stage = y.stage ∧ (∀ c ∈ y.calls, c ∈ z.calls) ∧
    (∀ b, b ≠ a → z.allocation b = y.allocation b) ∧
    (z.allocation a).invalidated = (y.allocation a).invalidated ∧
    (z.allocation a).readTasks = [] ∧
    (∀ s, (z.task s).accessor = (y.task s).accessor ∧
      (z.task s).accesses.length = (y.task s).accesses.length) ∧
    ∀ s j, access z s j = access y s j ∨
      ((y.allocation a).readTasks = [] ∧ (y.allocation a).write = some (s,j) ∧
        (y.task s).accessor = (y.task t).accessor) ∧
      access z s j = (access y s j).map fun access =>
        {access with flags := {access.flags with cacheFlush := false}} := by
  refine ⟨_,rfl,?_⟩
  split_ifs with hread
  · refine ⟨rfl,rfl,fun c hc => List.mem_append_left _ hc,fun b hb => ?_,?_,?_,
      fun s => ⟨rfl,rfl⟩,fun s j => .inl rfl⟩
    · unfold notifyReaders setAllocation
      dsimp only
      rw [update_of_ne hb]
    · unfold notifyReaders setAllocation
      dsimp only
      rw [update_self]
    · unfold notifyReaders setAllocation
      dsimp only
      rw [update_self]
  · obtain ⟨hlog,hstage,hcalls,hallocation,htask⟩ := keepCache_same y t a
    obtain ⟨calls,hnotify,-⟩ := notifyWriter_eq (keepCache y t a) t a
    rw [hnotify]
    push Not at hread
    refine ⟨hlog,hstage,fun c hc => List.mem_append_left _ (hcalls ▸ hc),fun b _ => ?_,?_,?_,htask,
      fun s j => ?_⟩
    · exact congrFun hallocation b
    · exact congrArg Allocation.invalidated (congrFun hallocation a)
    · exact (congrArg Allocation.readTasks (congrFun hallocation a)).trans hread
    · have hkeep := keepCache_access y t a s j
      split_ifs at hkeep with h
      · exact .inr ⟨⟨hread,h⟩,hkeep⟩
      · exact .inl hkeep

theorem accessed_setupWrite (x : State ι α) (t : ι) (i : ℕ) (a : α) :
    Accessed x {setupWrite (invalidate x t i a) t i a with
      log := ⟨t,i,a,true⟩::(setupWrite (invalidate x t i a) t i a).log} t i a true := by
  obtain ⟨hlog,hstage,hcalls,htask⟩ := invalidate_same x t i a
  have haccess := invalidate_access x t i a
  have hallocation := invalidate_allocation x t i a
  obtain ⟨mask,hmask,-,hbits⟩ := hallocation a
  unfold setupWrite
  dsimp only
  generalize invalidate x t i a = y at *
  obtain ⟨z,hz,hzlog,hzstage,hzcalls,hzother,hzmask,hzread,hztask,hzaccess⟩ :=
    setupWrite_notified (setAllocation y a fun allocation => {allocation with
      invalidated := allocation.invalidated &&& bit (y.task t).accessor}) t a
  rw [← hz]
  unfold setAllocation at hzlog hzstage hzcalls hzother hzmask hztask hzaccess
  dsimp only at hzlog hzstage hzcalls hzother hzmask hztask hzaccess
  rw [update_self,hmask] at hzmask
  have hzaccess : ∀ s j, access z s j = access y s j ∨
      ((x.allocation a).readTasks = [] ∧ (x.allocation a).write = some (s,j) ∧
        (y.task s).accessor = (y.task t).accessor) ∧
      access z s j = (access y s j).map fun access =>
        {access with flags := {access.flags with cacheFlush := false}} := by
    intro s j
    have h := hzaccess s j
    rw [update_self,hmask] at h
    exact h
  have htask' : ∀ s, ((setFlags z t i fun flags => {flags with cacheFlush := true}).task s).accessor =
      (x.task s).accessor ∧ ((setFlags z t i fun flags =>
        {flags with cacheFlush := true}).task s).accesses.length = (x.task s).accesses.length := by
    intro s
    obtain ⟨h,h'⟩ := task_setFlags z t s i fun flags => {flags with cacheFlush := true}
    exact ⟨(h.trans (hztask s).1).trans (htask s).1,(h'.trans (hztask s).2).trans (htask s).2⟩
  refine ⟨?_,?_,fun c hc => ?_,fun h => (by cases h),fun b hb => ?_,?_,?_,fun X hX => ?_,
    fun s => (htask' s).1,fun s => (htask' s).2,fun s j r hr => ?_⟩
  · exact congrArg _ (hzlog.trans hlog)
  · exact hzstage.trans hstage
  · exact hzcalls c (hcalls ▸ hc)
  · obtain ⟨mask',hb',hsame,-⟩ := hallocation b
    change update z.allocation a _ b = _
    rw [update_of_ne hb,hzother b hb,update_of_ne hb,hb',hsame hb]
  · change (update z.allocation a _ a).write = _
    rw [update_self]
    rfl
  · change (update z.allocation a _ a).readTasks = _
    rw [update_self]
    exact hzread
  · change (update z.allocation a _ a).invalidated.getLsbD X = true at hX
    rw [update_self] at hX
    change (z.allocation a).invalidated.getLsbD X = true at hX
    rw [hzmask,BitVec.getLsbD_and,Bool.and_eq_true,getLsbD_bit,decide_eq_true_eq] at hX
    exact .inl (hX.2.trans (htask t).1)
  · -- the mask, then the last writer, then the access itself
    obtain ⟨f,hy,hwrite,hinvalidate,hflush⟩ : ∃ f, access y s j = some ⟨r.allocation,f⟩ ∧
        f.write = r.flags.write ∧ (r.flags.cacheInvalidate = true ∨ (s = t ∧ j = i) ∧
          (x.allocation a).invalidated.getLsbD (x.task t).accessor = false →
          f.cacheInvalidate = true) ∧ f.cacheFlush = r.flags.cacheFlush := by
      have hy := haccess s j
      rw [hr] at hy
      split_ifs at hy with hi
      · exact ⟨_,hy,rfl,fun _ => rfl,rfl⟩
      · exact ⟨_,hy,rfl,fun hf => hf.elim id fun h => absurd h hi,rfl⟩
    obtain ⟨g,hz',hwrite',hinvalidate',hflush'⟩ : ∃ g, access z s j = some ⟨r.allocation,g⟩ ∧
        g.write = f.write ∧ g.cacheInvalidate = f.cacheInvalidate ∧
        (g.cacheFlush = f.cacheFlush ∨ (x.allocation a).readTasks = [] ∧
          (x.allocation a).write = some (s,j) ∧ (x.task s).accessor = (x.task t).accessor) := by
      rcases hzaccess s j with h | ⟨hcond,h⟩
      · exact ⟨f,h.trans hy,rfl,rfl,.inl rfl⟩
      · rw [(htask s).1,(htask t).1] at hcond
        refine ⟨_,h.trans (congrArg _ hy),rfl,rfl,.inr hcond⟩
    have hw := access_setFlags z t s i j fun flags => {flags with cacheFlush := true}
    rw [hz'] at hw
    split_ifs at hw with hi
    · exact ⟨_,hw,hwrite'.trans hwrite,fun h => hinvalidate'.trans (hinvalidate h),fun _ => rfl⟩
    · refine ⟨_,hw,hwrite'.trans hwrite,fun h => hinvalidate'.trans (hinvalidate h),fun h => ?_⟩
      rcases h with h | ⟨hset,hnot⟩
      · exact absurd h.1 hi
      · rcases hflush' with h | h
        · exact h.trans (hflush.trans hset)
        · exact absurd ⟨rfl,h⟩ hnot

theorem accessed_setupAccess {r : AllocationAccess α} (h : access x t i = some r) :
    Accessed x (setupAccess t x i) t i r.allocation r.flags.write := by
  obtain ⟨a,flags⟩ := r
  unfold setupAccess
  rw [h]
  dsimp only
  cases hwrite : flags.write with
  | true => exact accessed_setupWrite x t i a
  | false => exact accessed_setupRead x t i a

end Access

def Stale (accessor : ι → CoreSurfaceAccessorID) (X : CoreSurfaceAccessorID) (a : α)
    (log : List (Entry ι α)) : Prop :=
  ∀ later e earlier, log = later++e::earlier → e.allocation = a → accessor e.task = X →
    ∃ m ∈ later, m.allocation = a ∧ m.write = true ∧ accessor m.task ≠ X

def Overwritten (accessor : ι → CoreSurfaceAccessorID) (X : CoreSurfaceAccessorID) (a : α)
    (log : List (Entry ι α)) : Prop :=
  ∃ later e earlier, log = later++e::earlier ∧ e.allocation = a ∧ e.write = true ∧
    accessor e.task = X ∧ ∀ m ∈ earlier, m.allocation ≠ a

structure Flagged (accessor : ι → CoreSurfaceAccessorID) (later : List (Entry ι α))
    (e : Entry ι α) (earlier : List (Entry ι α)) (r : AllocationAccess α) : Prop where
  allocation : r.allocation = e.allocation
  write : r.flags.write = e.write
  invalidate : Stale accessor (accessor e.task) e.allocation earlier →
    r.flags.cacheInvalidate = true
  flush : e.write = true → r.flags.cacheFlush = true ∨
    Overwritten accessor (accessor e.task) e.allocation later

def accessor (x : State ι α) (t : ι) : CoreSurfaceAccessorID := (x.task t).accessor

/-- The last writer was set up, and is followed by tasks that read and wait for it. -/
structure WriterOk (x : State ι α) (a : α) (w : ι) (i : ℕ) : Prop where
  stage : x.stage w = .setUp
  entry : ∃ later earlier, x.log = later++⟨w,i,a,true⟩::earlier ∧
    ∀ m ∈ later, m.allocation = a → m.write = false ∧ m.task ∈ (x.allocation a).readTasks ∧
      (m.task ≠ w → ∃ follow, (w,m.task,follow) ∈ x.calls)

structure Inv (x : State ι α) : Prop where
  keys : (x.log.map fun e => (e.task,e.index)).Nodup
  started : ∀ e ∈ x.log, x.stage e.task ≠ .new
  flagged : ∀ later e earlier, x.log = later++e::earlier → x.stage e.task = .setUp →
    ∃ r, access x e.task e.index = some r ∧ Flagged (accessor x) later e earlier r
  fresh : ∀ a (X : CoreSurfaceAccessorID), (x.allocation a).invalidated.getLsbD X = true →
    ¬ Stale (accessor x) X a x.log
  writer : ∀ a w i, (x.allocation a).write = some (w,i) → WriterOk x a w i

section Invariant
variable {x y : State ι α} {t : ι} {i : ℕ} {a : α} {write : Bool}

omit [DecidableEq ι] [DecidableEq α] in
theorem not_stale_cons {f : ι → CoreSurfaceAccessorID} {X : CoreSurfaceAccessorID}
    {log : List (Entry ι α)} (h : ¬ Stale f X a log) {e : Entry ι α}
    (he : e.allocation = a → e.write = false) : ¬ Stale f X a (e::log) := by
  intro hstale
  apply h
  rintro later m earlier rfl hm hX
  obtain ⟨n,hn,ha,hwrite,hne⟩ := hstale (e::later) m earlier rfl hm hX
  obtain rfl | hn := List.mem_cons.mp hn
  · cases (he ha).symm.trans hwrite
  · exact ⟨n,hn,ha,hwrite,hne⟩

omit [DecidableEq ι] [DecidableEq α] in
theorem not_stale_self {f : ι → CoreSurfaceAccessorID} {log : List (Entry ι α)} (e : Entry ι α) :
    ¬ Stale f (f e.task) e.allocation (e::log) := by
  intro hstale
  obtain ⟨n,hn,-⟩ := hstale [] e log rfl rfl rfl
  cases hn

omit [DecidableEq ι] [DecidableEq α] in
theorem split_unique {later later' earlier earlier' : List (Entry ι α)} {e e' : Entry ι α}
    (h : ((later++e::earlier).map fun e => (e.task,e.index)).Nodup)
    (heq : later++e::earlier = later'++e'::earlier')
    (hkey : (e.task,e.index) = (e'.task,e'.index)) : later = later' ∧ e = e' := by
  induction later generalizing later' with
  | nil =>
    cases later' with
    | nil => exact ⟨rfl,(List.cons.inj heq).1⟩
    | cons m later' =>
      obtain ⟨rfl,rfl⟩ := List.cons.inj heq
      apply absurd _ (List.nodup_cons.mp h).1
      exact List.mem_map.mpr ⟨e',List.mem_append_right _ List.mem_cons_self,hkey.symm⟩
  | cons m later ih =>
    cases later' with
    | nil =>
      obtain ⟨rfl,rfl⟩ := List.cons.inj heq
      apply absurd _ (List.nodup_cons.mp h).1
      exact List.mem_map.mpr ⟨e,List.mem_append_right _ List.mem_cons_self,hkey⟩
    | cons m' later' =>
      obtain ⟨rfl,htail⟩ := List.cons.inj heq
      obtain ⟨rfl,he⟩ := ih (List.nodup_cons.mp h).2 htail
      exact ⟨rfl,he⟩

omit [DecidableEq ι] [DecidableEq α] in
theorem WriterOk.last (h : WriterOk x a t i)
    (hkeys : (x.log.map fun e => (e.task,e.index)).Nodup) (hread : (x.allocation a).readTasks = [])
    {later earlier : List (Entry ι α)} {e : Entry ι α} (hlog : x.log = later++e::earlier)
    (htask : e.task = t) (hindex : e.index = i) :
    e.allocation = a ∧ ∀ m ∈ later, m.allocation ≠ a := by
  obtain ⟨later',earlier',hlog',hall⟩ := h.entry
  rw [hlog] at hkeys hlog'
  obtain ⟨rfl,rfl⟩ := split_unique hkeys hlog' (by rw [htask,hindex])
  refine ⟨rfl,fun m hm ha => ?_⟩
  have hmem := (hall m hm ha).2.1
  rw [hread] at hmem
  cases hmem

omit [DecidableEq α] in
theorem Inv.flagged_next (h : Inv x) {r : AllocationAccess α}
    (hy : Accessed x y t i r.allocation r.flags.write) {later earlier : List (Entry ι α)}
    {e : Entry ι α} (hlog : x.log = later++e::earlier) (hstage : x.stage e.task = .setUp) :
    ∃ r', access y e.task e.index = some r' ∧
      Flagged (accessor x) (⟨t,i,r.allocation,r.flags.write⟩::later) e earlier r' := by
  obtain ⟨q,hq,hflagged⟩ := h.flagged later e earlier hlog hstage
  obtain ⟨flags,haccess,hwrite,hinvalidate,hflush⟩ := hy.access e.task e.index q hq
  refine ⟨_,haccess,hflagged.allocation,hwrite.trans hflagged.write,fun hstale => ?_,fun he => ?_⟩
  · exact hinvalidate (.inl (hflagged.invalidate hstale))
  obtain hkept | ⟨l,n,l',rfl,hn⟩ := hflagged.flush he
  · by_cases hclears : r.flags.write = true ∧ (x.allocation r.allocation).readTasks = [] ∧
        (x.allocation r.allocation).write = some (e.task,e.index) ∧
        (x.task e.task).accessor = (x.task t).accessor
    · obtain ⟨hw,hread,hwriter,hsame⟩ := hclears
      obtain ⟨ha,hlast⟩ := (h.writer _ _ _ hwriter).last h.keys hread hlog rfl rfl
      refine .inr ⟨[],_,later,rfl,ha.symm,hw,hsame.symm,fun m hm => ?_⟩
      rw [ha]
      exact hlast m hm
    · exact .inl (hflush (.inr ⟨hkept,hclears⟩))
  · exact .inr ⟨_::l,n,l',rfl,hn⟩

/-- An access that is set up keeps the invariant. -/
theorem Inv.accessed (h : Inv x) (hstage : x.stage t = .setUp) {r : AllocationAccess α}
    (hr : access x t i = some r) (hnew : ∀ e ∈ x.log, e.task = t → e.index ≠ i)
    (hy : Accessed x y t i r.allocation r.flags.write) : Inv y := by
  have hacc : accessor y = accessor x := funext hy.accessor
  have hstages : ∀ s, y.stage s = x.stage s := congrFun hy.stage
  refine ⟨?_,fun e he => ?_,fun later e earlier hlog hsetUp => ?_,fun b X hX => ?_,
    fun b w j hw => ?_⟩
  · rw [hy.log]
    refine List.nodup_cons.mpr ⟨fun hmem => ?_,h.keys⟩
    obtain ⟨e,he,hkey⟩ := List.mem_map.mp hmem
    obtain ⟨htask,hindex⟩ := Prod.mk.inj hkey
    exact hnew e he htask hindex
  · rw [hstages]
    rw [hy.log] at he
    obtain rfl | he := List.mem_cons.mp he
    · rw [hstage]
      decide
    · exact h.started e he
  · rw [hy.log] at hlog
    rw [hacc]
    rw [hstages] at hsetUp
    cases later with
    | nil =>
      -- the access that was just set up
      obtain ⟨rfl,rfl⟩ := List.cons.inj hlog
      obtain ⟨flags,haccess,hwrite,hinvalidate,hflush⟩ := hy.access t i r hr
      refine ⟨_,haccess,rfl,hwrite,fun hstale => ?_,fun he => .inl (hflush (.inl ⟨⟨rfl,rfl⟩,he⟩))⟩
      apply hinvalidate
      refine .inr ⟨⟨rfl,rfl⟩,Bool.eq_false_iff.mpr fun hbit => ?_⟩
      exact h.fresh _ _ hbit hstale
    | cons m later =>
      obtain ⟨rfl,htail⟩ := List.cons.inj hlog
      exact h.flagged_next hy htail hsetUp
  · rw [hacc,hy.log]
    by_cases hb : b = r.allocation
    · subst hb
      obtain rfl | ⟨hread,hX⟩ := hy.invalidated X hX
      · exact not_stale_self (f := accessor x) ⟨t,i,r.allocation,r.flags.write⟩
      · exact not_stale_cons (h.fresh _ X hX) fun _ => hread
    · rw [hy.other b hb] at hX
      exact not_stale_cons (h.fresh b X hX) fun hne => absurd hne.symm hb
  · by_cases hb : b = r.allocation
    · subst hb
      rw [hy.writer] at hw
      split_ifs at hw with hwrite
      · obtain ⟨rfl,rfl⟩ := Prod.mk.inj (Option.some.inj hw)
        refine ⟨(hstages _).trans hstage,[],x.log,?_,fun m hm => (by cases hm)⟩
        rw [hy.log,hwrite]
        rfl
      · rw [Bool.not_eq_true] at hwrite
        obtain ⟨hwstage,later,earlier,hlog,hall⟩ := h.writer _ w j hw
        refine ⟨(hstages w).trans hwstage,⟨t,i,r.allocation,r.flags.write⟩::later,earlier,?_,
          fun m hm ha => ?_⟩
        · rw [hy.log,hlog]
          rfl
        rw [hy.readers,hwrite]
        obtain rfl | hm := List.mem_cons.mp hm
        · exact ⟨hwrite,List.mem_insert_self,fun _ => hy.waits hwrite w j hw⟩
        · obtain ⟨hread,hreader,hwaits⟩ := hall m hm ha
          refine ⟨hread,List.mem_insert_of_mem hreader,fun hne => ?_⟩
          obtain ⟨follow,hcall⟩ := hwaits hne
          exact ⟨follow,hy.calls _ hcall⟩
    · rw [hy.other b hb] at hw
      obtain ⟨hwstage,later,earlier,hlog,hall⟩ := h.writer b w j hw
      refine ⟨(hstages w).trans hwstage,⟨t,i,r.allocation,r.flags.write⟩::later,earlier,?_,
        fun m hm ha => ?_⟩
      · rw [hy.log,hlog]
        rfl
      rw [hy.other b hb]
      obtain rfl | hm := List.mem_cons.mp hm
      · exact absurd ha.symm hb
      · obtain ⟨hread,hreader,hwaits⟩ := hall m hm ha
        refine ⟨hread,hreader,fun hne => ?_⟩
        obtain ⟨follow,hcall⟩ := hwaits hne
        exact ⟨follow,hy.calls _ hcall⟩

/-- What the loop in `SurfaceTask::Setup` leaves after some rounds. -/
structure Progress (x y : State ι α) (t : ι) (n : ℕ) : Prop where
  inv : Inv y
  stage : y.stage = x.stage
  kept : ∀ e ∈ x.log, e ∈ y.log
  done : ∀ i < n, ∃ e ∈ y.log, e.task = t ∧ e.index = i
  length : ∀ s, (y.task s).accesses.length = (x.task s).accesses.length
  lt : ∀ e ∈ y.log, e.task = t → e.index < n

theorem Inv.setupAccesses (h : Inv x) (hstage : x.stage t = .setUp)
    (hnew : ∀ e ∈ x.log, e.task ≠ t) {n : ℕ} (hn : n ≤ (x.task t).accesses.length) :
    Progress x ((List.range n).foldl (setupAccess t) x) t n := by
  induction n with
  | zero =>
    exact ⟨h,rfl,fun _ => id,fun i hi => absurd hi (Nat.not_lt_zero i),fun _ => rfl,
      fun e he ht => absurd ht (hnew e he)⟩
  | succ n ih =>
    have hprogress := ih (Nat.le_of_succ_le hn)
    rw [List.range_succ,List.foldl_append,List.foldl_cons,List.foldl_nil]
    generalize (List.range n).foldl (setupAccess t) x = y at hprogress ⊢
    have hlt : n < (y.task t).accesses.length := by
      rw [hprogress.length]
      exact hn
    have haccess : access y t n = some (y.task t).accesses[n] := List.getElem?_eq_getElem hlt
    have hy := accessed_setupAccess haccess
    have hinv := hprogress.inv.accessed ((congrFun hprogress.stage t).trans hstage) haccess
      (fun e he ht => Nat.ne_of_lt (hprogress.lt e he ht)) hy
    refine ⟨hinv,hy.stage.trans hprogress.stage,fun e he => ?_,fun i hi => ?_,
      fun s => (hy.length s).trans (hprogress.length s),fun e he ht => ?_⟩
    · rw [hy.log]
      exact List.mem_cons_of_mem _ (hprogress.kept e he)
    · rw [hy.log]
      obtain hi | rfl := Nat.lt_succ_iff_lt_or_eq.mp hi
      · obtain ⟨e,he,hkey⟩ := hprogress.done i hi
        exact ⟨e,List.mem_cons_of_mem _ he,hkey⟩
      · exact ⟨_,List.mem_cons_self,rfl,rfl⟩
    · rw [hy.log] at he
      obtain rfl | he := List.mem_cons.mp he
      · exact Nat.lt_succ_self n
      · exact (hprogress.lt e he ht).trans (Nat.lt_succ_self n)

def Complete (x : State ι α) : Prop :=
  ∀ t i, x.stage t = .setUp → i < (x.task t).accesses.length → ∃ e ∈ x.log, e.task = t ∧ e.index = i

omit [DecidableEq α] in
/-- A new task begins to be set up. -/
theorem Inv.begin (h : Inv x) (hstage : x.stage t = .new) :
    Inv {x with stage := update x.stage t .setUp} := by
  have hnew : ∀ e ∈ x.log, e.task ≠ t := by
    rintro e he rfl
    exact h.started e he hstage
  have hother : ∀ s, s ≠ t → update x.stage t .setUp s = x.stage s :=
    fun s hs => update_of_ne hs ..
  refine ⟨h.keys,fun e he => ?_,fun later e earlier hlog hsetUp => ?_,h.fresh,fun a w i hw => ?_⟩
  · dsimp only
    rw [hother _ (hnew e he)]
    exact h.started e he
  · have he : e ∈ x.log := hlog ▸ List.mem_append_right _ List.mem_cons_self
    dsimp only at hsetUp
    rw [hother _ (hnew e he)] at hsetUp
    exact h.flagged later e earlier hlog hsetUp
  · obtain ⟨hwstage,hentry⟩ := h.writer a w i hw
    refine ⟨(hother w ?_).trans hwstage,hentry⟩
    rintro rfl
    cases hwstage.symm.trans hstage

theorem Inv.setup (h : Inv x) (hcomplete : Complete x) (hstage : x.stage t = .new) :
    Inv (setup x t) ∧ Complete (setup x t) := by
  have hnew : ∀ e ∈ x.log, e.task ≠ t := by
    rintro e he rfl
    exact h.started e he hstage
  have hprogress := (h.begin hstage).setupAccesses (update_self ..) hnew
    (Nat.le_refl (x.task t).accesses.length)
  refine ⟨hprogress.inv,fun s i hs hi => ?_⟩
  change _ < (((List.range _).foldl (setupAccess t) _).task s).accesses.length at hi
  rw [hprogress.length] at hi
  by_cases ht : s = t
  · subst ht
    exact hprogress.done i hi
  · change ((List.range _).foldl (setupAccess t) _).stage s = _ at hs
    rw [hprogress.stage] at hs
    dsimp only at hs
    rw [update_of_ne ht] at hs
    obtain ⟨e,he,hkey⟩ := hcomplete s i hs hi
    exact ⟨e,hprogress.kept e he,hkey⟩

structure Left (t : ι) (l : List (AllocationAccess α)) (a : α) (p q : Allocation ι) : Prop where
  invalidated : q.invalidated = p.invalidated
  write : ∀ w i, q.write = some (w,i) → p.write = some (w,i) ∧
    (w = t → ∀ r ∈ l, r.allocation = a → r.flags.write = false)
  readTasks : ∀ s ∈ p.readTasks, s ≠ t → s ∈ q.readTasks

omit [DecidableEq ι] [DecidableEq α] in
theorem left_nil (p : Allocation ι) : Left t ([] : List (AllocationAccess α)) a p p :=
  ⟨rfl,fun _ _ hw => ⟨hw,fun _ r hr => (by cases hr)⟩,fun _ hs _ => hs⟩

theorem left_finaliseAccess (t : ι) (x : State ι α) (r : AllocationAccess α) (a : α) :
    Left t [r] a (x.allocation a) ((finaliseAccess t x r).allocation a) := by
  have hone : ∀ {P : AllocationAccess α → Prop}, P r → ∀ q ∈ [r], P q :=
    fun hp q hq => by rwa [List.mem_singleton.mp hq]
  unfold finaliseAccess setAllocation
  dsimp only
  by_cases ha : a = r.allocation
  · subst ha
    rw [update_self]
    split_ifs with hwrite hmine
    · exact ⟨rfl,fun w i hw => (by cases hw),fun _ hs _ => hs⟩
    · refine ⟨rfl,fun w i hw => ⟨hw,?_⟩,fun _ hs _ => hs⟩
      rintro rfl
      exact absurd (congrArg (Option.map Prod.fst) hw) hmine
    · refine ⟨rfl,fun w i hw => ⟨hw,fun _ => hone fun _ => Bool.eq_false_iff.mpr hwrite⟩,?_⟩
      exact fun s hs hne => List.mem_filter.mpr ⟨hs,decide_eq_true hne⟩
  · rw [update_of_ne ha]
    exact ⟨rfl,fun w i hw => ⟨hw,fun _ => hone fun h => absurd h.symm ha⟩,fun _ hs _ => hs⟩

theorem left_finalise (t : ι) (l : List (AllocationAccess α)) (x : State ι α) (a : α) :
    Left t l a (x.allocation a) ((l.foldl (finaliseAccess t) x).allocation a) := by
  induction l generalizing x with
  | nil => exact left_nil _
  | cons r l ih =>
    have hone := left_finaliseAccess t x r a
    have hrest := ih (finaliseAccess t x r)
    refine ⟨hrest.invalidated.trans hone.invalidated,fun w i hw => ?_,fun s hs hne => ?_⟩
    · obtain ⟨hw',hl⟩ := hrest.write w i hw
      obtain ⟨hx,hr⟩ := hone.write w i hw'
      refine ⟨hx,fun hwt q hq => ?_⟩
      obtain rfl | hq := List.mem_cons.mp hq
      · exact hr hwt q List.mem_cons_self
      · exact hl hwt q hq
    · exact hrest.readTasks s (hone.readTasks s hs hne) hne

theorem finaliseAccesses_eq (t : ι) (l : List (AllocationAccess α)) (x : State ι α) :
    ∃ allocation, l.foldl (finaliseAccess t) x = {x with allocation} := by
  induction l generalizing x with
  | nil => exact ⟨x.allocation,rfl⟩
  | cons r l ih =>
    obtain ⟨allocation,h⟩ := ih (finaliseAccess t x r)
    exact ⟨allocation,h⟩

/-- A task whose predecessors were finalised is finalised. -/
theorem Inv.finalise (h : Inv x) (hcomplete : Complete x) (hstage : x.stage t = .setUp)
    (hpreceded : Preceded x t) : Inv (finalise x t) ∧ Complete (finalise x t) := by
  have hleft := left_finalise t (x.task t).accesses x
  unfold SurfaceTask.finalise
  dsimp only
  obtain ⟨allocation,heq⟩ := finaliseAccesses_eq t (x.task t).accesses x
  rw [heq] at hleft ⊢
  dsimp only at hleft ⊢
  have hself : update x.stage t .finalised t = .finalised := update_self ..
  have hother : ∀ s, s ≠ t → update x.stage t .finalised s = x.stage s :=
    fun s hs => update_of_ne hs ..
  have hne : ∀ s, update x.stage t .finalised s = .setUp → s ≠ t := by
    rintro s hs rfl
    cases hself.symm.trans hs
  have htask : ∀ s, s ≠ t → update x.task t {x.task t with accesses := []} s = x.task s :=
    fun s hs => update_of_ne hs ..
  have hacc : (fun s => (update x.task t {x.task t with accesses := []} s).accessor) =
      accessor x := by
    funext s
    by_cases hs : s = t
    · subst hs
      rw [update_self]
      rfl
    · rw [htask s hs]
      rfl
  refine ⟨⟨h.keys,fun e he => ?_,fun later e earlier hlog hs => ?_,fun a X hX => ?_,
    fun a w i hw => ?_⟩,fun s i hs hi => ?_⟩
  · dsimp only
    by_cases ht : e.task = t
    · rw [ht,hself]
      decide
    · rw [hother _ ht]
      exact h.started e he
  · have ht := hne _ hs
    dsimp only at hs
    rw [hother _ ht] at hs
    obtain ⟨r,hr,hflagged⟩ := h.flagged later e earlier hlog hs
    refine ⟨r,?_,?_⟩
    · unfold access
      dsimp only
      rw [htask _ ht]
      exact hr
    · unfold accessor at *
      dsimp only
      rw [hacc]
      exact hflagged
  · unfold accessor at *
    dsimp only at hX ⊢
    rw [hacc]
    rw [(hleft a).invalidated] at hX
    exact h.fresh a X hX
  · dsimp only at hw
    obtain ⟨hx,hwrites⟩ := (hleft a).write w i hw
    obtain ⟨hwstage,later,earlier,hlog,hall⟩ := h.writer a w i hx
    have hwt : w ≠ t := by
      intro hwt
      obtain ⟨r,hr,hflagged⟩ := h.flagged later _ earlier hlog hwstage
      dsimp only at hr
      rw [hwt] at hr
      cases (hwrites hwt r (List.mem_of_getElem? hr) hflagged.allocation).symm.trans hflagged.write
    refine ⟨(hother w hwt).trans hwstage,later,earlier,hlog,fun m hm ha => ?_⟩
    obtain ⟨hread,hreader,hwaits⟩ := hall m hm ha
    refine ⟨hread,(hleft a).readTasks _ hreader ?_,hwaits⟩
    -- a reader that waits for the writer is not finalised before it
    intro hmt
    obtain ⟨follow,hcall⟩ := hwaits (hmt ▸ hwt.symm)
    cases hwstage.symm.trans (hpreceded _ hcall hmt hwt)
  · have ht := hne s hs
    dsimp only at hs hi ⊢
    rw [htask s ht] at hi
    rw [hother s ht] at hs
    exact hcomplete s i hs hi

end Invariant

/-- Each access of a task that is set up was set up once, is invalidated when another accessor wrote
since the last access of its own, and flushed unless the next access is a write by the same
accessor. -/
structure Sufficient (x : State ι α) : Prop where
  entries : ∀ t i, x.stage t = .setUp → i < (x.task t).accesses.length →
    ∃ e ∈ x.log, e.task = t ∧ e.index = i
  once : (x.log.map fun e => (e.task,e.index)).Nodup
  flagged : ∀ later e earlier, x.log = later++e::earlier → x.stage e.task = .setUp →
    ∃ r, access x e.task e.index = some r ∧ Flagged (accessor x) later e earlier r

/-- Whatever order tasks are set up and finalised in, the flags of all accesses are sufficient. -/
theorem cache_flags_sufficient {x : State ι α} (h : Reaches step (fun _ _ => True) init x) :
    Sufficient x := by
  have hinv : Inv x ∧ Complete x := by
    refine h.invariant (fun x => Inv x ∧ Complete x) (fun x hx => ?_) fun x e y hx _ hs => ?_
    · obtain ⟨hallocation,hstage,-,hlog⟩ := hx
      refine ⟨⟨?_,fun e he => ?_,fun later e earlier h => ?_,fun a X hX => ?_,fun a w i hw => ?_⟩,
        fun t i ht => ?_⟩
      · rw [hlog]
        exact List.nodup_nil
      · rw [hlog] at he
        cases he
      · rw [hlog] at h
        cases (List.append_eq_nil_iff.mp h.symm).2
      · rw [hallocation] at hX
        simp at hX
      · rw [hallocation] at hw
        cases hw
      · cases (hstage t).symm.trans ht
    · obtain ⟨hinv,hcomplete⟩ := hx
      cases e with
      | setup t =>
        unfold step at hs
        dsimp only at hs
        split_ifs at hs with hnew
        obtain rfl := Option.some.inj hs
        exact hinv.setup hcomplete hnew
      | finalise t =>
        unfold step at hs
        dsimp only at hs
        split_ifs at hs with hok
        obtain rfl := Option.some.inj hs
        exact hinv.finalise hcomplete hok.1 hok.2
  exact ⟨hinv.2,hinv.1.keys,hinv.1.flagged⟩

/-- One accessor writes twice, the first time without a flush, and then another one reads. -/
theorem sufficient_for_two : ∃ x : State ℕ ℕ, Reaches step (fun _ _ => True) init x ∧
    Sufficient x ∧ x.log.map Entry.task = [2,1,0] ∧
    [0,1,2].map (fun t => (x.task t).accesses.map fun r =>
      (r.flags.cacheInvalidate,r.flags.cacheFlush)) = [[(true,false)],[(false,true)],[(true,false)]] ∧
    ∃ y, step x (.finalise 0) = some y ∧ Sufficient y := by
  have hinit : Reaches step (fun _ _ => True) init
      (⟨fun t => ⟨if t = 2 then 1 else 0,0,false,false,[⟨0,{write := t ≠ 2}⟩]⟩,fun _ => ⟨0,none,[]⟩,
        fun _ => .new,[],[]⟩ : State ℕ ℕ) :=
    .init ⟨fun _ => rfl,fun _ => rfl,rfl,rfl⟩
  have h := hinit.exec (fun _ _ => trivial)
    (show exec step _ [.setup 0,.setup 1,.setup 2] = some _ from rfl)
  have h' := Reaches.step (.finalise 0) h trivial rfl
  exact ⟨_,h,cache_flags_sufficient h,rfl,rfl,_,rfl,cache_flags_sufficient h'⟩

end DirectFB.SurfaceTask
