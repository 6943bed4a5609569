import DirectFB.TaskManager

/-! The threads that run tasks. A `Run()` returns its task to the manager, or the next one on the
same layer does, and the loop of the thread returns a task whose `Run()` has failed. -/
set_option linter.unusedSectionVars false
namespace DirectFB.TaskRun
open Function (update update_idem update_of_ne update_self)
open Transition TaskManager

/-- Which `Run()` a task has: one of `Task` and `GenefxTask`, of `TransferTask`, or of
`DisplayTask` for a layer. -/
inductive Kind (κ : Type*)
  | simple
  | transfer
  | display (layer : κ)

/-- The manager, the tasks that were run, the calls of `Done()` that are on the way, and
`layer->prev_task`. A `fault` is an access to a task that was deleted. -/
structure State (ι σ κ : Type*) where
  manager : TaskManager.State ι σ
  ran : List ι
  calls : List ι
  prevTask : κ → Option ι
  fault : Bool

variable {ι σ α κ : Type*} [DecidableEq ι] [DecidableEq κ]

/-- `Run()`, as far as it calls `Done()`, with what it returns. -/
def run (kind : Kind κ) (prevTask : κ → Option ι) (t : ι) (ret : DirectResult) :
    List ι × DirectResult :=
  match kind with
  | .simple => ([t],.ok)
  | .transfer => if ret ≠ .ok then ([],ret) else ([t],.ok)
  | .display layer => if ret ≠ .ok then ([t],ret) else ((prevTask layer).toList,.ok)

/-- `layer->prev_task = this` -/
def putPrevTask (kind : Kind κ) (prevTask : κ → Option ι) (t : ι) (ret : DirectResult) :
    κ → Option ι :=
  match kind with
  | .display layer => if ret ≠ .ok then prevTask else update prevTask layer (some t)
  | _ => prevTask

/-- One round of `TaskThreads::taskLoop`. -/
def taskLoop (kind : ι → Kind κ) (s : State ι σ κ) (t : ι) (ret : DirectResult) : State ι σ κ :=
  let (calls,ret') := run (kind t) s.prevTask t ret
  {s with
    ran := t::s.ran
    calls := calls++(if ret' ≠ .ok then [t] else [])++s.calls
    prevTask := putPrevTask (kind t) s.prevTask t ret}

/-- A call of `Done()`. -/
def call (s : State ι σ κ) (t : ι) : State ι σ κ :=
  let s := {s with calls := s.calls.erase t}
  if (s.manager.task t).state = .dead then {s with fault := true}
  else {s with manager := done s.manager t}

def removeRegion (s : State ι σ κ) (layer : κ) : State ι σ κ :=
  {s with
    calls := (s.prevTask layer).toList++s.calls
    prevTask := update s.prevTask layer none}

inductive Event (ι α κ : Type*)
  | manager (e : TaskManager.Event ι α)
  | run (t : ι) (ret : DirectResult)
  | call (t : ι)
  | removeRegion (layer : κ)

/-- A step of any thread. A task is run as often as it was pushed. -/
def step (V : Methods ι σ α) (kind : ι → Kind κ) (s : State ι σ κ) :
    Event ι α κ → Option (State ι σ κ)
  | .manager (.done _) => none
  | .manager e => (TaskManager.step V s.manager e).map fun manager => {s with manager}
  | .run t ret =>
    if s.ran.count t < s.manager.log.count (.push,t) then some (taskLoop kind s t ret) else none
  | .call t => if t ∈ s.calls then some (call s t) else none
  | .removeRegion layer => some (removeRegion s layer)

structure Initial (s : State ι σ κ) : Prop where
  manager : TaskManager.Initial s.manager
  ran : s.ran = []
  calls : s.calls = []
  prevTask : ∀ layer, s.prevTask layer = none
  fault : s.fault = false

/-- Which of `Push()`, `Done()` and `finish()` a task in a state has behind it. A task whose
`Setup()` failed is finished without the others. -/
inductive Counted : TaskState → ℕ → ℕ → ℕ → Prop
  | new : Counted .new 0 0 0
  | flushed : Counted .flushed 0 0 0
  | ready : Counted .ready 0 0 0
  | running : Counted .running 1 0 0
  | done {n : ℕ} : n ≤ 1 → Counted .done n n 0
  | finish {n : ℕ} : n ≤ 1 → Counted .finish n n 1
  | dead {n : ℕ} : n ≤ 1 → Counted .dead n n 1

section Manager
variable {m u : TaskManager.State ι σ} {t x : ι}

def queue (m : TaskManager.State ι σ) : List ι :=
  m.fifo++match m.control with
    | .handle t => [t]
    | .setup t _ _ => [t]
    | _ => []

def closing (m : TaskManager.State ι σ) : Option ι :=
  match m.control with
  | .shutdown t => some t
  | _ => none

def Finished (m : TaskManager.State ι σ) (t : ι) : Prop :=
  (m.task t).state = .finish ∨ (m.task t).state = .dead

instance (m : TaskManager.State ι σ) (t : ι) : Decidable (Finished m t) :=
  inferInstanceAs (Decidable (_ ∨ _))

def Closed (m : TaskManager.State ι σ) (t : ι) : Prop :=
  (.shutdown,(m.task t).master.getD t) ∈ m.log ∧ closing m ≠ some ((m.task t).master.getD t)

instance (m : TaskManager.State ι σ) (t : ι) : Decidable (Closed m t) :=
  inferInstanceAs (Decidable (_ ∧ _))

/-- All tasks are where their states say, the slaves of a master are counted until they are
finished, and a master is shut down as soon as it and all of them are. -/
structure Inv (m : TaskManager.State ι σ) : Prop where
  counted : ∀ t, Counted (m.task t).state (m.log.count (.push,t)) (m.log.count (.done,t))
    (m.log.count (.finish,t))
  queue : ∀ t, (queue m).count t =
    if (m.task t).state = .flushed ∨ (m.task t).state = .done then 1 else 0
  slaveTasks : ∀ t x, x ∈ (m.task t).slaveTasks ↔ (m.task x).master = some t
  nodup : ∀ t, (m.task t).slaveTasks.Nodup
  slave : ∀ t x, (m.task x).master = some t → (m.task x).slaveTasks = [] ∧
    (m.task x).state ≠ .flushed ∧ (m.task x).state ≠ .ready
  idle : ∀ t x, (m.task x).master = some t → (m.task t).state = .new ∨
    (m.task t).state = .flushed ∨ (m.task t).state = .ready → (m.task x).state = .new
  pushed : ∀ t x, (m.task x).master = some t → (m.task x).state ≠ .new → (.push,x) ∈ m.log
  slaves : ∀ t, (m.task t).slaves = (m.task t).slaveTasks.countP fun x => ¬Finished m x
  shutdown : ∀ t, m.log.count (.shutdown,t) =
    if (m.task t).master = none ∧ Finished m t ∧ (m.task t).slaves = 0 then 1 else 0
  closing : ∀ t, closing m = some t → (.shutdown,t) ∈ m.log
  finalise : ∀ t, m.log.count (.finalise,t) = if Closed m t then 1 else 0
  release : ∀ t, m.log.count (.release,t) = if Closed m t then 1 else 0
  dead : ∀ t, (m.task t).state = .dead ↔ Closed m t
  refs : ∀ t, (m.task t).refs = if (m.task t).state = .dead then 0 else 1

/-- All that `Inv` is about. -/
def life (m : TaskManager.State ι σ) :
    (ι → TaskState × Option ι × List ι × ℕ × ℕ) × (ι → ℕ) × Option ι × List (Action × ι) :=
  (fun t => ((m.task t).state,(m.task t).master,(m.task t).slaveTasks,(m.task t).slaves,
    (m.task t).refs),fun t => (queue m).count t,closing m,m.log)

theorem life_eq (h : life u = life m) :
    (∀ t, (u.task t).state = (m.task t).state) ∧ (∀ t, (u.task t).master = (m.task t).master) ∧
    (∀ t, (u.task t).slaveTasks = (m.task t).slaveTasks) ∧
    (∀ t, (u.task t).slaves = (m.task t).slaves) ∧ (∀ t, (u.task t).refs = (m.task t).refs) ∧
    (∀ t, (queue u).count t = (queue m).count t) ∧ TaskRun.closing u = TaskRun.closing m ∧ u.log = m.log := by
  obtain ⟨htask,hrest⟩ := Prod.mk.inj h
  obtain ⟨hqueue,hrest⟩ := Prod.mk.inj hrest
  obtain ⟨hclosing,hlog⟩ := Prod.mk.inj hrest
  have htask := congrFun htask
  simp only [Prod.mk.injEq] at htask
  exact ⟨fun t => (htask t).1,fun t => (htask t).2.1,fun t => (htask t).2.2.1,
    fun t => (htask t).2.2.2.1,fun t => (htask t).2.2.2.2,congrFun hqueue,hclosing,hlog⟩

theorem Inv.congr (h : Inv m) (hu : life u = life m) : Inv u := by
  obtain ⟨hstate,hmaster,hslaveTasks,hslaves,hrefs,hqueue,hclosing,hlog⟩ := life_eq hu
  have hfinished : ∀ t, Finished u t ↔ Finished m t := fun t => by
    unfold Finished
    rw [hstate]
  have hclosed : ∀ t, Closed u t ↔ Closed m t := fun t => by
    unfold Closed
    rw [hmaster,hclosing,hlog]
  refine ⟨fun t => ?_,fun t => ?_,fun t x => ?_,fun t => ?_,fun t x => ?_,fun t x => ?_,fun t x => ?_,
    fun t => ?_,fun t => ?_,fun t => ?_,fun t => ?_,fun t => ?_,fun t => ?_,fun t => ?_⟩
  · rw [hstate,hlog]
    exact h.counted t
  · rw [hqueue,hstate]
    exact h.queue t
  · rw [hslaveTasks,hmaster]
    exact h.slaveTasks t x
  · rw [hslaveTasks]
    exact h.nodup t
  · rw [hmaster,hslaveTasks,hstate]
    exact h.slave t x
  · rw [hmaster,hstate,hstate]
    exact h.idle t x
  · rw [hmaster,hstate,hlog]
    exact h.pushed t x
  · simp only [hfinished]
    rw [hslaves,hslaveTasks]
    exact h.slaves t
  · simp only [hfinished]
    rw [hlog,hmaster,hslaves]
    exact h.shutdown t
  · rw [hclosing,hlog]
    exact h.closing t
  · simp only [hclosed]
    rw [hlog]
    exact h.finalise t
  · simp only [hclosed]
    rw [hlog]
    exact h.release t
  · rw [hstate,hclosed]
    exact h.dead t
  · rw [hrefs,hstate]
    exact h.refs t

/-- A task that is not finished gets a new state, and the manager may have to handle it. -/
structure Advanced (m u : TaskManager.State ι σ) (t : ι) : Prop where
  state : ∀ x, x ≠ t → (u.task x).state = (m.task x).state
  master : ∀ x, (u.task x).master = (m.task x).master
  slaveTasks : ∀ x, (u.task x).slaveTasks = (m.task x).slaveTasks
  slaves : ∀ x, (u.task x).slaves = (m.task x).slaves
  refs : ∀ x, (u.task x).refs = (m.task x).refs
  queue : ∀ x, x ≠ t → (TaskRun.queue u).count x = (TaskRun.queue m).count x
  closing : TaskRun.closing u = TaskRun.closing m
  log : ∃ l : List (Action × ι), u.log = m.log++l ∧
    ∀ e ∈ l, e.2 = t ∧ e.1 ≠ .finish ∧ e.1 ≠ .shutdown ∧ e.1 ≠ .finalise ∧ e.1 ≠ .release

theorem not_finished {state : TaskState} (ht : (m.task t).state = state)
    (hstate : state ≠ .finish ∧ state ≠ .dead) : ¬Finished m t := by
  unfold Finished
  rw [ht]
  exact not_or.mpr hstate

theorem count_append_of_ne {l l' : List (Action × ι)} {e : Action × ι} (h : ∀ d ∈ l', d ≠ e) :
    (l++l').count e = l.count e := by
  rw [List.count_append,List.count_eq_zero.mpr fun he => h e he rfl,Nat.add_zero]

theorem Inv.advanced (h : Inv m) (hu : Advanced m u t) (hold : ¬Finished m t)
    (hnew : ¬Finished u t)
    (hcounted : Counted (u.task t).state (u.log.count (.push,t)) (u.log.count (.done,t))
      (u.log.count (.finish,t)))
    (hqueue : (TaskRun.queue u).count t =
      if (u.task t).state = .flushed ∨ (u.task t).state = .done then 1 else 0)
    (hslave : (m.task t).master ≠ none → (u.task t).state ≠ .flushed ∧ (u.task t).state ≠ .ready)
    (hmaster : ∀ o, (m.task t).master = some o → (m.task o).state = .new ∨
      (m.task o).state = .flushed ∨ (m.task o).state = .ready → (u.task t).state = .new)
    (hidle : (u.task t).state = .new ∨ (u.task t).state = .flushed ∨ (u.task t).state = .ready →
      (m.task t).state = .new ∨ (m.task t).state = .flushed ∨ (m.task t).state = .ready)
    (hpushed : (m.task t).master ≠ none → (.push,t) ∈ u.log) : Inv u := by
  obtain ⟨l,hlog,hl⟩ := hu.log
  have hfinished : ∀ x, Finished u x ↔ Finished m x := by
    intro x
    by_cases hx : x = t
    · subst hx
      exact iff_of_false hnew hold
    · unfold Finished
      rw [hu.state x hx]
  have hcount : ∀ a x, a = .finish ∨ a = .shutdown ∨ a = .finalise ∨ a = .release →
      u.log.count (a,x) = m.log.count (a,x) := by
    rintro a x ha
    rw [hlog]
    refine count_append_of_ne fun d hd => ?_
    rintro rfl
    obtain ⟨-,hfinish,hshutdown,hfinalise,hrelease⟩ := hl _ hd
    exact ha.elim hfinish fun ha => ha.elim hshutdown fun ha => ha.elim hfinalise hrelease
  have hother : ∀ a x, x ≠ t → u.log.count (a,x) = m.log.count (a,x) := by
    rintro a x hx
    rw [hlog]
    refine count_append_of_ne fun d hd => ?_
    rintro rfl
    exact hx (hl _ hd).1
  have hmem : ∀ x, (.shutdown,x) ∈ u.log ↔ (.shutdown,x) ∈ m.log := by
    intro x
    rw [← List.count_pos_iff,← List.count_pos_iff,hcount .shutdown x (.inr (.inl rfl))]
  have hclosed : ∀ x, Closed u x ↔ Closed m x := fun x => by
    unfold Closed
    rw [hu.master,hu.closing,hmem]
  have hdead : ∀ x, (u.task x).state = .dead ↔ (m.task x).state = .dead := by
    intro x
    by_cases hx : x = t
    · subst hx
      exact iff_of_false (fun hd => hnew (.inr hd)) fun hd => hold (.inr hd)
    · rw [hu.state x hx]
  refine ⟨fun x => ?_,fun x => ?_,fun o x => ?_,fun x => ?_,fun o x hx => ?_,fun o x hx ho => ?_,
    fun o x hx hstate => ?_,fun x => ?_,fun x => ?_,fun x hx => ?_,fun x => ?_,fun x => ?_,
    fun x => ?_,fun x => ?_⟩
  · by_cases hx : x = t
    · subst hx
      exact hcounted
    · rw [hu.state x hx,hother _ x hx,hother _ x hx,hother _ x hx]
      exact h.counted x
  · by_cases hx : x = t
    · subst hx
      exact hqueue
    · rw [hu.state x hx,hu.queue x hx]
      exact h.queue x
  · rw [hu.slaveTasks,hu.master]
    exact h.slaveTasks o x
  · rw [hu.slaveTasks]
    exact h.nodup x
  · rw [hu.master] at hx
    obtain ⟨hnil,hf,hr⟩ := h.slave o x hx
    rw [hu.slaveTasks]
    refine ⟨hnil,?_⟩
    by_cases ht : x = t
    · subst ht
      exact hslave (by rw [hx]; exact Option.some_ne_none o)
    · rw [hu.state x ht]
      exact ⟨hf,hr⟩
  · rw [hu.master] at hx
    have hidle' : (m.task o).state = .new ∨ (m.task o).state = .flushed ∨
        (m.task o).state = .ready := by
      by_cases hot : o = t
      · subst hot
        exact hidle ho
      · rwa [hu.state o hot] at ho
    by_cases ht : x = t
    · subst ht
      exact hmaster o hx hidle'
    · rw [hu.state x ht]
      exact h.idle o x hx hidle'
  · rw [hu.master] at hx
    by_cases ht : x = t
    · subst ht
      exact hpushed (by rw [hx]; exact Option.some_ne_none o)
    · rw [hu.state x ht] at hstate
      rw [hlog]
      exact List.mem_append_left l (h.pushed o x hx hstate)
  · simp only [hfinished]
    rw [hu.slaves,hu.slaveTasks]
    exact h.slaves x
  · simp only [hfinished]
    rw [hcount _ _ (.inr (.inl rfl)),hu.master,hu.slaves]
    exact h.shutdown x
  · rw [hu.closing] at hx
    exact (hmem x).mpr (h.closing x hx)
  · simp only [hclosed]
    rw [hcount _ _ (.inr (.inr (.inl rfl)))]
    exact h.finalise x
  · simp only [hclosed]
    rw [hcount _ _ (.inr (.inr (.inr rfl)))]
    exact h.release x
  · rw [hdead,hclosed]
    exact h.dead x
  · simp only [hdead]
    rw [hu.refs]
    exact h.refs x

theorem setState_keeps {β : Type*} (g : Task ι → β) {state : TaskState}
    (hg : ∀ task : Task ι, g {task with state} = g task) (m : TaskManager.State ι σ) (t x : ι) :
    g ((setState m t state).task x) = g (m.task x) :=
  modify_keeps g m t x (f := fun task => {task with state}) hg

theorem advanced_setState {k : TaskState} (htask : u.task = (setState m t k).task)
    (hqueue : ∀ x, x ≠ t → (TaskRun.queue u).count x = (TaskRun.queue m).count x)
    (hclosing : TaskRun.closing u = TaskRun.closing m)
    (hlog : ∃ l : List (Action × ι), u.log = m.log++l ∧
      ∀ e ∈ l, e.2 = t ∧ e.1 ≠ .finish ∧ e.1 ≠ .shutdown ∧ e.1 ≠ .finalise ∧ e.1 ≠ .release) :
    Advanced m u t := by
  refine ⟨fun x hx => ?_,fun x => ?_,fun x => ?_,fun x => ?_,fun x => ?_,hqueue,hclosing,hlog⟩
  · rw [htask,setState_state,if_neg hx]
  all_goals rw [htask]
  · exact setState_keeps Task.master (fun _ => rfl) m t x
  · exact setState_keeps Task.slaveTasks (fun _ => rfl) m t x
  · exact setState_keeps Task.slaves (fun _ => rfl) m t x
  · exact setState_keeps Task.refs (fun _ => rfl) m t x

theorem setState_self (m : TaskManager.State ι σ) (t : ι) (state : TaskState) :
    ((setState m t state).task t).state = state := by
  rw [setState_state,if_pos rfl]

/-- A task that is ready, or the slave of one that was emitted, is handed to a runner. -/
theorem Inv.push (h : Inv m) (ht : (m.task t).state = .ready ∨
    ∃ o, (m.task t).master = some o ∧ (m.task t).state = .new ∧ (m.task o).state = .running) :
    Inv (push m t) := by
  have hstate : (m.task t).state = .ready ∨ (m.task t).state = .new :=
    ht.imp_right fun ⟨_,_,hnew,_⟩ => hnew
  have hself : ((TaskManager.push m t).task t).state = .running := setState_self m t .running
  have hlog : (TaskManager.push m t).log = m.log++[(.push,t)] := rfl
  have hadvanced : Advanced m (TaskManager.push m t) t := by
    refine advanced_setState (k := .running) rfl (fun _ _ => rfl) rfl ⟨_,hlog,fun e he => ?_⟩
    obtain rfl := List.mem_singleton.mp he
    exact ⟨rfl,(fun h => by cases h),(fun h => by cases h),(fun h => by cases h),
      fun h => by cases h⟩
  have hzero : Counted .ready (m.log.count (.push,t)) (m.log.count (.done,t))
      (m.log.count (.finish,t)) ∨ Counted .new (m.log.count (.push,t)) (m.log.count (.done,t))
      (m.log.count (.finish,t)) := by
    have hcounted := h.counted t
    obtain hs | hs := hstate
    · rw [hs] at hcounted
      exact .inl hcounted
    · rw [hs] at hcounted
      exact .inr hcounted
  refine h.advanced hadvanced ?_ ?_ ?_ ?_ (fun _ => ?_) (fun o hm ho => ?_) (fun hs => ?_) fun _ =>
    List.mem_append_right _ (List.mem_singleton_self _)
  · unfold Finished
    obtain hs | hs := hstate
    all_goals
      rw [hs]
      decide
  · unfold Finished
    rw [hself]
    decide
  · have hpush : (m.log++[(Action.push,t)]).count (.push,t) = m.log.count (.push,t)+1 := by
      rw [List.count_append,List.count_singleton_self]
    have hrest : ∀ a, a ≠ Action.push → (m.log++[(Action.push,t)]).count (a,t) =
        m.log.count (a,t) := by
      intro a ha
      refine count_append_of_ne fun d hd => ?_
      obtain rfl := List.mem_singleton.mp hd
      exact fun heq => ha (congrArg Prod.fst heq).symm
    rw [hself,hlog,hpush,hrest .done (by decide),hrest .finish (by decide)]
    obtain hcounted | hcounted := hzero
    all_goals
      generalize m.log.count (.push,t) = n,m.log.count (.done,t) = n',m.log.count (.finish,t) = n''
        at hcounted ⊢
      cases hcounted
      exact .running
  · rw [hself]
    refine (h.queue t).trans ?_
    obtain hs | hs := hstate
    all_goals
      rw [hs]
      decide
  · rw [hself]
    decide
  · obtain hr | ⟨o',hm',-,hrunning⟩ := ht
    · exact absurd hr (h.slave o t hm).2.2
    · obtain rfl := Option.some.inj (hm.symm.trans hm')
      rw [hrunning] at ho
      exact absurd ho (by decide)
  · rw [hself] at hs
    exact absurd hs (by decide)

theorem push_task (m : TaskManager.State ι σ) (t x : ι) : (TaskManager.push m t).task x =
    if x = t then {m.task x with state := .running} else m.task x :=
  modify_task m t x fun task => {task with state := .running}

/-- The slaves of a task that was emitted are handed to runners. -/
theorem Inv.pushes (h : Inv m) {l : List ι} (hnodup : l.Nodup)
    (hl : ∀ x ∈ l, (m.task x).master = some t ∧ (m.task x).state = .new)
    (ht : (m.task t).state = .running) : Inv (l.foldl TaskManager.push m) := by
  induction l generalizing m with
  | nil => exact h
  | cons y l ih =>
    obtain ⟨hnot,htail⟩ := List.nodup_cons.mp hnodup
    obtain ⟨hmaster,hnew⟩ := hl y List.mem_cons_self
    have hne : t ≠ y := by
      rintro rfl
      cases hnew.symm.trans ht
    refine ih (h.push (.inr ⟨t,hmaster,hnew,ht⟩)) htail (fun x hx => ?_) ?_
    · have hxy : x ≠ y := by
        rintro rfl
        exact hnot hx
      rw [push_task,if_neg hxy]
      exact hl x (List.mem_cons_of_mem _ hx)
    · rw [push_task,if_neg hne]
      exact ht

theorem Inv.emit (h : Inv m) (ht : (m.task t).state = .ready) : Inv (TaskManager.emit m t) := by
  have hone := h.push (.inl ht)
  have hself : ((TaskManager.push m t).task t) = {m.task t with state := .running} := by
    rw [push_task,if_pos rfl]
  have hpushed : Inv (TaskManager.pushed m t) := by
    unfold TaskManager.pushed
    split_ifs
    · refine hone.pushes (hone.nodup t) (fun x hx => ?_) (by rw [hself])
      rw [hself] at hx
      have hmaster := (h.slaveTasks t x).mp hx
      have hnew := h.idle t x hmaster (.inr (.inr ht))
      have hxt : x ≠ t := by
        rintro rfl
        cases hnew.symm.trans ht
      rw [push_task,if_neg hxt]
      exact ⟨hmaster,hnew⟩
    · exact hone
  rw [emit_eq]
  exact hpushed.congr rfl

theorem count_queue_pushTask (m : TaskManager.State ι σ) (t x : ι) :
    (TaskRun.queue (pushTask m t)).count x = (TaskRun.queue m).count x+[t].count x := by
  change ((m.fifo++[t])++_).count x = (m.fifo++_).count x+_
  rw [List.count_append,List.count_append,List.count_append]
  exact Nat.add_right_comm ..

theorem Inv.flush (h : Inv m) (ht : (m.task t).state = .new) (hmaster : (m.task t).master = none) :
    Inv (TaskManager.flush m t) := by
  have hself : ((TaskManager.flush m t).task t).state = .flushed := setState_self m t .flushed
  have hqueue : ∀ x, (TaskRun.queue (TaskManager.flush m t)).count x =
      (TaskRun.queue m).count x+[t].count x := count_queue_pushTask (setState m t .flushed) t
  have hadvanced : Advanced m (TaskManager.flush m t) t := by
    refine advanced_setState (k := .flushed) rfl (fun x hx => ?_) rfl
      ⟨[],(List.append_nil _).symm,fun e he => by cases he⟩
    rw [hqueue,List.count_singleton,beq_eq_false_iff_ne.mpr hx.symm]
    rfl
  refine h.advanced hadvanced (not_finished ht (by decide)) (not_finished hself (by decide)) ?_ ?_
    (fun hm => absurd hmaster hm) (fun o hm => ?_) (fun _ => .inl ht) fun hm => absurd hmaster hm
  · have hcounted := h.counted t
    rw [ht] at hcounted
    rw [hself]
    change Counted _ (m.log.count _) (m.log.count _) (m.log.count _)
    generalize m.log.count (.push,t) = n,m.log.count (.done,t) = n',m.log.count (.finish,t) = n''
      at hcounted ⊢
    cases hcounted
    exact .flushed
  · rw [hself,hqueue,h.queue,ht,List.count_singleton_self]
    rfl
  · cases hmaster.symm.trans hm

theorem Inv.done (h : Inv m) (ht : (m.task t).state = .running) : Inv (TaskManager.done m t) := by
  have hself : ((TaskManager.done m t).task t).state = .done := setState_self m t .done
  have hlog : (TaskManager.done m t).log = m.log++[(.done,t)] := rfl
  have hqueue : ∀ x, (TaskRun.queue (TaskManager.done m t)).count x =
      (TaskRun.queue m).count x+[t].count x := count_queue_pushTask (setState m t .done) t
  have hadvanced : Advanced m (TaskManager.done m t) t := by
    refine advanced_setState (k := .done) rfl (fun x hx => ?_) rfl ⟨_,hlog,fun e he => ?_⟩
    · rw [hqueue,List.count_singleton,beq_eq_false_iff_ne.mpr hx.symm]
      rfl
    · obtain rfl := List.mem_singleton.mp he
      exact ⟨rfl,(fun h => by cases h),(fun h => by cases h),(fun h => by cases h),
        fun h => by cases h⟩
  refine h.advanced hadvanced (not_finished ht (by decide)) (not_finished hself (by decide)) ?_ ?_
    (fun _ => ?_) (fun o hm ho => ?_) (fun hs => ?_) fun hm => ?_
  · have hdone : (m.log++[(Action.done,t)]).count (.done,t) = m.log.count (.done,t)+1 := by
      rw [List.count_append,List.count_singleton_self]
    have hrest : ∀ a, a ≠ Action.done → (m.log++[(Action.done,t)]).count (a,t) =
        m.log.count (a,t) := by
      intro a ha
      refine count_append_of_ne fun d hd => ?_
      obtain rfl := List.mem_singleton.mp hd
      exact fun heq => ha (congrArg Prod.fst heq).symm
    have hcounted := h.counted t
    rw [ht] at hcounted
    rw [hself,hlog,hdone,hrest .push (by decide),hrest .finish (by decide)]
    generalize m.log.count (.push,t) = n,m.log.count (.done,t) = n',m.log.count (.finish,t) = n''
      at hcounted ⊢
    cases hcounted
    exact .done le_rfl
  · rw [hself,hqueue,h.queue,ht,List.count_singleton_self]
    rfl
  · rw [hself]
    decide
  · have hnew := h.idle o t hm ho
    cases ht.symm.trans hnew
  · rw [hself] at hs
    exact absurd hs (by decide)
  · obtain ⟨o,ho⟩ := Option.ne_none_iff_exists'.mp hm
    refine List.mem_append_left _ (h.pushed o t ho ?_)
    rw [ht]
    decide

/-- The task that `Setup()` was called for is ready. -/
theorem Inv.ready (h : Inv m) {calls : List (ι × Bool)} {ok : Bool}
    (hcontrol : m.control = .setup t calls ok) (ht : (m.task t).state = .flushed) :
    Inv (setupReady m t) := by
  have hself : ((setupReady m t).task t).state = .ready := setState_self m t .ready
  have hqueue : ∀ x, (TaskRun.queue m).count x =
      (TaskRun.queue (setupReady m t)).count x+[t].count x := by
    intro x
    unfold TaskRun.queue
    rw [hcontrol]
    change (m.fifo++[t]).count x = (m.fifo++[]).count x+_
    rw [List.count_append,List.append_nil]
  have hmaster : (m.task t).master = none := by
    cases hm : (m.task t).master with
    | none => rfl
    | some o => exact absurd ht (h.slave o t hm).2.1
  have hadvanced : Advanced m (setupReady m t) t := by
    refine advanced_setState (k := .ready) rfl (fun x hx => ?_) ?_
      ⟨[],(List.append_nil _).symm,fun e he => by cases he⟩
    · rw [hqueue,List.count_singleton,beq_eq_false_iff_ne.mpr hx.symm]
      rfl
    · unfold TaskRun.closing
      rw [hcontrol]
      rfl
  refine h.advanced hadvanced (not_finished ht (by decide)) (not_finished hself (by decide)) ?_ ?_
    (fun hm => absurd hmaster hm) (fun o hm => ?_) (fun _ => .inr (.inl ht))
    fun hm => absurd hmaster hm
  · have hcounted := h.counted t
    rw [ht] at hcounted
    rw [hself]
    change Counted _ (m.log.count _) (m.log.count _) (m.log.count _)
    generalize m.log.count (.push,t) = n,m.log.count (.done,t) = n',m.log.count (.finish,t) = n''
      at hcounted ⊢
    cases hcounted
    exact .ready
  · have hone := h.queue t
    rw [ht,hqueue,List.count_singleton_self] at hone
    rw [hself]
    exact Nat.succ.inj hone
  · cases hmaster.symm.trans hm

/-- The task whose `Setup()` has failed is treated like one that is done. -/
theorem Inv.failed (h : Inv m) (ht : (m.task t).state = .flushed) : Inv (setState m t .done) := by
  have hself := setState_self m t .done
  have hmaster : (m.task t).master = none := by
    cases hm : (m.task t).master with
    | none => rfl
    | some o => exact absurd ht (h.slave o t hm).2.1
  have hadvanced : Advanced m (setState m t .done) t :=
    advanced_setState (k := .done) rfl (fun _ _ => rfl) rfl
      ⟨[],(List.append_nil _).symm,fun e he => by cases he⟩
  refine h.advanced hadvanced (not_finished ht (by decide)) (not_finished hself (by decide)) ?_ ?_
    (fun hm => absurd hmaster hm) (fun o hm => ?_) (fun hs => ?_) fun hm => absurd hmaster hm
  · have hcounted := h.counted t
    rw [ht] at hcounted
    rw [hself]
    change Counted _ (m.log.count _) (m.log.count _) (m.log.count _)
    generalize m.log.count (.push,t) = n,m.log.count (.done,t) = n',m.log.count (.finish,t) = n''
      at hcounted ⊢
    cases hcounted
    exact .done (Nat.zero_le 1)
  · rw [hself]
    refine (h.queue t).trans ?_
    rw [ht]
    decide
  · cases hmaster.symm.trans hm
  · rw [hself] at hs
    exact absurd hs (by decide)

theorem addSlave_task (m : TaskManager.State ι σ) (o x y : ι) : (addSlave m o x).task y =
    if y = o then
      {if y = x then {m.task y with master := some o} else m.task y with
        slaves := (if y = x then {m.task y with master := some o} else m.task y).slaves+1
        slaveTasks := x::(if y = x then {m.task y with master := some o} else m.task y).slaveTasks}
    else if y = x then {m.task y with master := some o} else m.task y := by
  unfold addSlave
  dsimp only
  rw [modify_task,modify_task]

theorem Inv.addSlave (h : Inv m) {o : ι} (ho : (m.task o).state = .new ∨ (m.task o).state = .running)
    (hom : (m.task o).master = none) (hx : (m.task x).state = .new)
    (hxm : (m.task x).master = none) (hxs : (m.task x).slaves = 0) (hne : o ≠ x) :
    Inv (TaskManager.addSlave m o x) := by
  have hslave : (TaskManager.addSlave m o x).task x = {m.task x with master := some o} := by
    rw [addSlave_task,if_neg hne.symm,if_pos rfl]
  have hmaster : (TaskManager.addSlave m o x).task o = {m.task o with
      slaves := (m.task o).slaves+1
      slaveTasks := x::(m.task o).slaveTasks} := by
    rw [addSlave_task,if_pos rfl,if_neg hne]
  have hother : ∀ y, y ≠ o → y ≠ x → (TaskManager.addSlave m o x).task y = m.task y := by
    intro y hyo hyx
    rw [addSlave_task,if_neg hyo,if_neg hyx]
  have hcases : ∀ y, y = o ∨ y = x ∨ y ≠ o ∧ y ≠ x := by
    intro y
    by_cases hyo : y = o
    · exact .inl hyo
    · by_cases hyx : y = x
      · exact .inr (.inl hyx)
      · exact .inr (.inr ⟨hyo,hyx⟩)
  have hstate : ∀ y, ((TaskManager.addSlave m o x).task y).state = (m.task y).state := by
    intro y
    obtain rfl | rfl | ⟨hyo,hyx⟩ := hcases y
    · rw [hmaster]
    · rw [hslave]
    · rw [hother y hyo hyx]
  have hrefs : ∀ y, ((TaskManager.addSlave m o x).task y).refs = (m.task y).refs := by
    intro y
    obtain rfl | rfl | ⟨hyo,hyx⟩ := hcases y
    · rw [hmaster]
    · rw [hslave]
    · rw [hother y hyo hyx]
  have hfinished : ∀ y, Finished (TaskManager.addSlave m o x) y ↔ Finished m y := fun y => by
    unfold Finished
    rw [hstate]
  have hfree : ∀ y, y ≠ x → ((TaskManager.addSlave m o x).task y).master = (m.task y).master := by
    intro y hyx
    by_cases hyo : y = o
    · rw [hyo,hmaster]
    · rw [hother y hyo hyx]
  have hlive : ¬Finished m x := not_finished hx (by decide)
  have holive : ¬Finished m o := ho.elim (fun hs => not_finished hs (by decide)) fun hs =>
    not_finished hs (by decide)
  have hnot : ∀ y, ¬Finished m y → (.shutdown,y) ∉ m.log := by
    intro y hy
    rw [← List.count_eq_zero,h.shutdown,if_neg fun hand => hy hand.2.1]
  have hnil : (m.task x).slaveTasks = [] := by
    rw [h.slaves] at hxs
    refine List.eq_nil_iff_forall_not_mem.mpr fun y hy => ?_
    have hnew := h.idle x y ((h.slaveTasks x y).mp hy) (.inl hx)
    exact List.countP_eq_zero.mp hxs y hy (decide_eq_true (not_finished hnew (by decide)))
  have hclosed : ∀ y, Closed (TaskManager.addSlave m o x) y ↔ Closed m y := by
    intro y
    obtain rfl | rfl | ⟨hyo,hyx⟩ := hcases y
    · unfold Closed
      rw [hmaster]
      rfl
    · refine iff_of_false (fun hc => hnot o holive ?_) fun hc => hnot y hlive ?_
      · have hmem := hc.1
        rw [hslave] at hmem
        exact hmem
      · have hmem := hc.1
        rw [hxm] at hmem
        exact hmem
    · unfold Closed
      rw [hother y hyo hyx]
      rfl
  refine ⟨fun y => ?_,fun y => ?_,fun p y => ?_,fun p => ?_,fun p y hy => ?_,fun p y hy hp => ?_,
    fun p y hy hs => ?_,fun p => ?_,fun p => ?_,h.closing,fun y => ?_,fun y => ?_,fun y => ?_,fun y => ?_⟩
  · rw [hstate]
    exact h.counted y
  · rw [hstate]
    exact h.queue y
  · by_cases hyx : y = x
    · subst hyx
      rw [hslave]
      obtain rfl | rfl | ⟨hpo,hpx⟩ := hcases p
      · rw [hmaster]
        exact iff_of_true List.mem_cons_self rfl
      · rw [hslave]
        refine iff_of_false ?_ fun heq => hne (Option.some.inj heq)
        change _ ∉ (m.task p).slaveTasks
        rw [hnil]
        exact List.not_mem_nil
      · rw [hother p hpo hpx]
        refine iff_of_false (fun hmem => ?_) fun heq => hpo (Option.some.inj heq).symm
        cases hxm.symm.trans ((h.slaveTasks p y).mp hmem)
    · rw [hfree y hyx,← h.slaveTasks p y]
      obtain rfl | rfl | ⟨hpo,hpx⟩ := hcases p
      · rw [hmaster]
        exact List.mem_cons.trans (or_iff_right hyx)
      · rw [hslave]
      · rw [hother p hpo hpx]
  · obtain rfl | rfl | ⟨hpo,hpx⟩ := hcases p
    · rw [hmaster]
      refine List.nodup_cons.mpr ⟨fun hmem => ?_,h.nodup p⟩
      cases hxm.symm.trans ((h.slaveTasks p x).mp hmem)
    · rw [hslave]
      exact h.nodup p
    · rw [hother p hpo hpx]
      exact h.nodup p
  · rw [hstate]
    by_cases hyx : y = x
    · subst hyx
      rw [hslave,hx]
      exact ⟨hnil,by decide,by decide⟩
    · rw [hfree y hyx] at hy
      have hyo : y ≠ o := by
        rintro rfl
        cases hom.symm.trans hy
      rw [hother y hyo hyx]
      exact h.slave p y hy
  · rw [hstate] at hp ⊢
    by_cases hyx : y = x
    · subst hyx
      exact hx
    · rw [hfree y hyx] at hy
      exact h.idle p y hy hp
  · rw [hstate] at hs
    have hyx : y ≠ x := by
      rintro rfl
      exact hs hx
    rw [hfree y hyx] at hy
    exact h.pushed p y hy hs
  · simp only [hfinished]
    obtain rfl | rfl | ⟨hpo,hpx⟩ := hcases p
    · rw [hmaster]
      refine (congrArg Nat.succ (h.slaves p)).trans (List.countP_cons_of_pos ?_).symm
      exact decide_eq_true hlive
    · rw [hslave]
      exact h.slaves p
    · rw [hother p hpo hpx]
      exact h.slaves p
  · simp only [hfinished]
    refine (h.shutdown p).trans ?_
    obtain rfl | rfl | ⟨hpo,hpx⟩ := hcases p
    · rw [if_neg fun hand => holive hand.2.1,if_neg fun hand => holive hand.2.1]
    · rw [if_neg fun hand => hlive hand.2.1,if_neg fun hand => hlive hand.2.1]
    · rw [hother p hpo hpx]
  · simp only [hclosed]
    exact h.finalise y
  · simp only [hclosed]
    exact h.release y
  · rw [hstate,hclosed]
    exact h.dead y
  · rw [hrefs,hstate]
    exact h.refs y

/-- A task is finished, and counted by its master, or by itself where it has none, which is shut
down when nothing else is left. -/
structure Finishes (m u : TaskManager.State ι σ) (t : ι) (shut : Option ι) : Prop where
  self : (u.task t).state = .finish
  state : ∀ x, x ≠ t → (u.task x).state = (m.task x).state
  master : ∀ x, (u.task x).master = (m.task x).master
  slaveTasks : ∀ x, (u.task x).slaveTasks = (m.task x).slaveTasks
  refs : ∀ x, (u.task x).refs = (m.task x).refs
  slaves : ∀ x, (u.task x).slaves =
    if (m.task t).master = some x then (m.task x).slaves-1 else (m.task x).slaves
  queue : ∀ x, (TaskRun.queue m).count x = (TaskRun.queue u).count x+[t].count x
  log : u.log = m.log++(.finish,t)::shut.toList.map (Action.shutdown,·)
  before : TaskRun.closing m = none
  closing : TaskRun.closing u = shut
  shut : ∀ x, shut = some x ↔ x = (m.task t).master.getD t ∧ Finished u x ∧ (u.task x).slaves = 0

theorem countP_erase_one {l : List ι} (hnodup : l.Nodup) {p q : ι → Bool} (ht : t ∈ l)
    (hp : p t = true) (hq : q t = false) (hsame : ∀ x ∈ l, x ≠ t → q x = p x) :
    l.countP q = l.countP p-1 := by
  induction l with
  | nil => cases ht
  | cons y l ih =>
    obtain ⟨hnot,htail⟩ := List.nodup_cons.mp hnodup
    by_cases hy : y = t
    · subst hy
      rw [List.countP_cons_of_neg (by rw [hq]; decide),List.countP_cons_of_pos hp,
        Nat.add_sub_cancel]
      refine List.countP_congr fun x hx => ?_
      rw [hsame x (List.mem_cons_of_mem _ hx)]
      rintro rfl
      exact hnot hx
    · have hmem : t ∈ l := (List.mem_cons.mp ht).resolve_left (Ne.symm hy)
      have hpos : 0 < l.countP p := List.countP_pos_iff.mpr ⟨t,hmem,hp⟩
      have hrest := ih htail hmem fun x hx => hsame x (List.mem_cons_of_mem _ hx)
      have hone := hsame y List.mem_cons_self hy
      rw [List.countP_cons,List.countP_cons,hrest,hone]
      omega

theorem Inv.finishes (h : Inv m) {shut : Option ι} (hu : Finishes m u t shut)
    (ht : (m.task t).state = .done) : Inv u := by
  have hlive : ¬Finished m t := not_finished ht (by decide)
  have hself : Finished u t := .inl hu.self
  have hfinished : ∀ x, x ≠ t → (Finished u x ↔ Finished m x) := fun x hx => by
    unfold Finished
    rw [hu.state x hx]
  have hdead : ∀ x, (u.task x).state = .dead ↔ (m.task x).state = .dead := by
    intro x
    by_cases hx : x = t
    · subst hx
      rw [hu.self,ht]
      decide
    · rw [hu.state x hx]
  have hpos : ∀ o, (m.task t).master = some o → 0 < (m.task o).slaves := by
    intro o ho
    rw [h.slaves]
    exact List.countP_pos_iff.mpr ⟨t,(h.slaveTasks o t).mpr ho,decide_eq_true hlive⟩
  have hroot : ∀ x, x = (m.task t).master.getD t →
      (m.task x).master = none ∧ m.log.count (.shutdown,x) = 0 := by
    rintro x hx
    cases hm : (m.task t).master with
    | none =>
      rw [hm] at hx
      obtain rfl : x = t := hx
      exact ⟨hm,(h.shutdown x).trans (if_neg fun hand => hlive hand.2.1)⟩
    | some o =>
      rw [hm] at hx
      obtain rfl : x = o := hx
      refine ⟨?_,(h.shutdown x).trans (if_neg fun hand => ?_)⟩
      · cases ho : (m.task x).master with
        | none => rfl
        | some z =>
          have hin := (h.slaveTasks x t).mpr hm
          rw [(h.slave z x ho).1] at hin
          cases hin
      · exact Nat.ne_of_gt (hpos x hm) hand.2.2
  have hshut : ∀ x, shut = some x → (.shutdown,x) ∉ m.log := fun x hx =>
    List.count_eq_zero.mp (hroot x ((hu.shut x).mp hx).1).2
  have hmem : ∀ x, (.shutdown,x) ∈ u.log ↔ (.shutdown,x) ∈ m.log ∨ shut = some x := by
    intro x
    rw [hu.log]
    simp
  have hclosed : ∀ x, Closed u x ↔ Closed m x := by
    intro x
    unfold Closed
    rw [hu.master,hu.closing,hu.before,hmem]
    generalize (m.task x).master.getD x = o
    refine ⟨fun ⟨hor,hne⟩ => ⟨hor.resolve_right hne,by simp⟩,fun ⟨hin,_⟩ => ⟨.inl hin,fun heq => ?_⟩⟩
    exact hshut o heq hin
  have hcount : ∀ a x, a ≠ .finish → a ≠ .shutdown → u.log.count (a,x) = m.log.count (a,x) := by
    intro a x hf hs
    rw [hu.log]
    refine count_append_of_ne fun d hd => ?_
    rintro rfl
    obtain heq | hd := List.mem_cons.mp hd
    · exact hf (congrArg Prod.fst heq)
    · obtain ⟨y,-,heq⟩ := List.mem_map.mp hd
      exact hs (congrArg Prod.fst heq).symm
  have hnone : ∀ a x, a ≠ Action.shutdown →
      (shut.toList.map (Action.shutdown,·)).count (a,x) = 0 := by
    intro a x ha
    refine List.count_eq_zero.mpr fun hin => ?_
    obtain ⟨y,-,heq⟩ := List.mem_map.mp hin
    exact ha (congrArg Prod.fst heq).symm
  refine ⟨fun x => ?_,fun x => ?_,fun o x => ?_,fun x => ?_,fun o x hx => ?_,fun o x hx ho => ?_,
    fun o x hx hs => ?_,fun o => ?_,fun o => ?_,fun o ho => ?_,fun x => ?_,fun x => ?_,fun x => ?_,
    fun x => ?_⟩
  · rw [hcount .push x (by decide) (by decide),hcount .done x (by decide) (by decide),hu.log,
      List.count_append,List.count_cons,hnone .finish x (by decide)]
    have hcounted := h.counted x
    by_cases hx : x = t
    · subst hx
      rw [ht] at hcounted
      rw [hu.self,if_pos (beq_self_eq_true _)]
      generalize m.log.count (.push,x) = n,m.log.count (.done,x) = n',
        m.log.count (.finish,x) = n'' at hcounted ⊢
      cases hcounted with
      | done hn => exact .finish hn
    · rw [hu.state x hx,if_neg fun heq => hx (Prod.mk.inj (eq_of_beq heq)).2.symm]
      exact hcounted
  · have hone := hu.queue x
    rw [h.queue] at hone
    by_cases hx : x = t
    · subst hx
      rw [ht,List.count_singleton_self] at hone
      rw [hu.self]
      exact (Nat.succ.inj hone).symm
    · rw [List.count_singleton,beq_eq_false_iff_ne.mpr (Ne.symm hx)] at hone
      rw [hu.state x hx]
      exact hone.symm
  · rw [hu.slaveTasks,hu.master]
    exact h.slaveTasks o x
  · rw [hu.slaveTasks]
    exact h.nodup x
  · rw [hu.master] at hx
    rw [hu.slaveTasks]
    by_cases hxt : x = t
    · subst hxt
      rw [hu.self]
      exact ⟨(h.slave o x hx).1,by decide,by decide⟩
    · rw [hu.state x hxt]
      exact h.slave o x hx
  · rw [hu.master] at hx
    have hot : o ≠ t := by
      rintro rfl
      rw [hu.self] at ho
      exact absurd ho (by decide)
    rw [hu.state o hot] at ho
    have hnew := h.idle o x hx ho
    have hxt : x ≠ t := by
      rintro rfl
      cases hnew.symm.trans ht
    rw [hu.state x hxt]
    exact hnew
  · rw [hu.master] at hx
    rw [hu.log]
    refine List.mem_append_left _ (h.pushed o x hx ?_)
    by_cases hxt : x = t
    · rw [hxt,ht]
      decide
    · rwa [hu.state x hxt] at hs
  · rw [hu.slaves,hu.slaveTasks,h.slaves]
    split_ifs with ho
    · refine (countP_erase_one (h.nodup o) ((h.slaveTasks o t).mpr ho) (decide_eq_true hlive)
        (decide_eq_false (not_not_intro hself)) fun x _ hx => ?_).symm
      simp only [hfinished x hx]
    · refine List.countP_congr fun x hx => ?_
      have hxt : x ≠ t := by
        rintro rfl
        exact ho ((h.slaveTasks o x).mp hx)
      simp only [hfinished x hxt]
  · have hlog : u.log.count (.shutdown,o) =
        m.log.count (.shutdown,o)+if shut = some o then 1 else 0 := by
      rw [hu.log,List.count_append,List.count_cons]
      cases shut with
      | none => simp
      | some x => simp [List.count_singleton]
    rw [hlog,hu.master]
    by_cases ho : o = (m.task t).master.getD t
    · obtain ⟨hnomaster,hzero⟩ := hroot o ho
      have hiff : shut = some o ↔ Finished u o ∧ (u.task o).slaves = 0 :=
        (hu.shut o).trans (and_iff_right ho)
      rw [hzero,hnomaster,Nat.zero_add]
      simp only [hiff,true_and]
    · rw [if_neg fun heq => ho ((hu.shut o).mp heq).1,h.shutdown,Nat.add_zero]
      by_cases hot : o = t
      · subst hot
        have hsome : (m.task o).master ≠ none := fun hm => ho (by rw [hm]; rfl)
        rw [if_neg fun hand => hsome hand.1,if_neg fun hand => hsome hand.1]
      · have hsame : (u.task o).slaves = (m.task o).slaves := by
          rw [hu.slaves,if_neg fun hm => ho (by rw [hm]; rfl)]
        simp only [hfinished o hot,hsame]
  · rw [hu.closing] at ho
    exact (hmem o).mpr (.inr ho)
  · simp only [hclosed]
    rw [hcount _ _ (by decide) (by decide)]
    exact h.finalise x
  · simp only [hclosed]
    rw [hcount _ _ (by decide) (by decide)]
    exact h.release x
  · rw [hdead,hclosed]
    exact h.dead x
  · simp only [hdead]
    rw [hu.refs]
    exact h.refs x

theorem countSlave_task (m : TaskManager.State ι σ) (o x : ι) : (countSlave m o).task x =
    if x = o then {m.task x with slaves := decrement (m.task x).slaves} else m.task x :=
  modify_task m o x fun task => {task with slaves := decrement task.slaves}

theorem Inv.slaves_pos (h : Inv m) (ht : ¬Finished m t) {o : ι} (ho : (m.task t).master = some o) :
    0 < (m.task o).slaves := by
  rw [h.slaves]
  exact List.countP_pos_iff.mpr ⟨t,(h.slaveTasks o t).mpr ho,decide_eq_true ht⟩

theorem Inv.master_ne (h : Inv m) {o : ι} (ho : (m.task t).master = some o) : o ≠ t := by
  rintro rfl
  have hin := (h.slaveTasks o o).mpr ho
  rw [(h.slave o o ho).1] at hin
  cases hin

theorem Inv.not_dead (h : Inv m) (ht : ¬Finished m t) {o : ι} (ho : (m.task t).master = some o) :
    (m.task o).state ≠ .dead := by
  intro hdead
  have hmaster : (m.task o).master = none := by
    cases hz : (m.task o).master with
    | none => rfl
    | some z =>
      have hin := (h.slaveTasks o t).mpr ho
      rw [(h.slave z o hz).1] at hin
      cases hin
  have hmem := ((h.dead o).mp hdead).1
  rw [hmaster] at hmem
  have hone := List.count_pos_iff.mpr hmem
  change 0 < m.log.count (.shutdown,o) at hone
  rw [h.shutdown,if_neg fun hand => Nat.ne_of_gt (h.slaves_pos ht ho) hand.2.2] at hone
  cases hone

theorem Inv.finishes_task (h : Inv m) (ht : (m.task t).state = .done) {shut : Option ι}
    (htask : ∀ x, u.task x = if (m.task t).master = some x then
        {(beginFinish m t).task x with slaves := decrement ((beginFinish m t).task x).slaves}
      else (beginFinish m t).task x)
    (hqueue : ∀ x, (TaskRun.queue m).count x = (TaskRun.queue u).count x+[t].count x)
    (hlog : u.log = m.log++(.finish,t)::shut.toList.map (Action.shutdown,·))
    (hbefore : TaskRun.closing m = none) (hclosing : TaskRun.closing u = shut)
    (hshut : ∀ x, shut = some x ↔
      x = (m.task t).master.getD t ∧ Finished u x ∧ (u.task x).slaves = 0) : Inv u := by
  have hself : (m.task t).master ≠ some t := fun hm => h.master_ne hm rfl
  refine h.finishes ⟨?_,fun x hx => ?_,fun x => ?_,fun x => ?_,fun x => ?_,fun x => ?_,hqueue,hlog,
    hbefore,hclosing,hshut⟩ ht
  · rw [htask,if_neg hself,beginFinish_task,if_pos rfl]
  all_goals
    rw [htask,beginFinish_task]
  · split_ifs <;> rfl
  · split_ifs <;> rfl
  · split_ifs <;> rfl
  · split_ifs <;> rfl
  · by_cases hx : (m.task t).master = some x
    · rw [if_pos hx,if_pos hx,if_neg (h.master_ne hx)]
      exact if_neg (Nat.ne_of_gt (h.slaves_pos (not_finished ht (by decide)) hx))
    · rw [if_neg hx,if_neg hx]
      split_ifs <;> rfl

/-- Finishing a task that the manager has taken keeps the invariant. -/
theorem Inv.finish (h : Inv m) (ht : (m.task t).state = .done)
    (hqueue : TaskRun.queue m = m.fifo++[t]) (hclosing : TaskRun.closing m = none) :
    Inv (TaskManager.finish m t) := by
  have hlive : ¬Finished m t := not_finished ht (by decide)
  have hcount : ∀ x, (TaskRun.queue m).count x = (m.fifo++[]).count x+[t].count x := by
    intro x
    rw [hqueue,List.count_append,List.append_nil]
  have hslave : ∀ o, (m.task t).master = some o → ∀ x, (countSlave (beginFinish m t) o).task x =
      if (m.task t).master = some x then
        {(beginFinish m t).task x with slaves := decrement ((beginFinish m t).task x).slaves}
      else (beginFinish m t).task x := by
    intro o ho x
    rw [countSlave_task,ho]
    by_cases hx : x = o
    · rw [if_pos hx,if_pos (congrArg some hx.symm)]
    · rw [if_neg hx,if_neg fun heq => hx (Option.some.inj heq).symm]
  have hlog : m.log++[(Action.finish,t)] =
      m.log++(.finish,t)::(none : Option ι).toList.map (Action.shutdown,·) := rfl
  have hshutlog : ∀ o, (m.log++[(Action.finish,t)])++[(.shutdown,o)] =
      m.log++(.finish,t)::(some o).toList.map (Action.shutdown,·) := fun o =>
    List.append_assoc ..
  obtain ⟨hnot,-⟩ | ⟨-,o,ho,hslaves,hstate,heq⟩ | ⟨-,o,ho,hleft,heq⟩ | ⟨-,hnone,hslaves,heq⟩ |
    ⟨-,hnone,hslaves,heq⟩ := finish_cases m t
  · exact absurd ht hnot
  · rw [heq]
    refine h.finishes_task ht (hslave o ho) hcount (hshutlog o) hclosing rfl fun x => ?_
    rw [ho]
    refine ⟨fun hx => ?_,fun hx => congrArg some hx.1.symm⟩
    obtain rfl := Option.some.inj hx
    exact ⟨rfl,.inl hstate,hslaves⟩
  · rw [heq]
    refine h.finishes_task ht (hslave o ho) hcount hlog hclosing rfl fun x => ?_
    rw [ho]
    refine iff_of_false (fun hx => by cases hx) fun hx => ?_
    obtain ⟨rfl,hfinished,hzero⟩ := hx
    obtain hfinish | hdead := hfinished
    · exact hleft ⟨hzero,hfinish⟩
    · rw [countSlave_task,if_pos rfl,beginFinish_task,if_neg (h.master_ne ho)] at hdead
      exact h.not_dead hlive ho hdead
  · have htask : ∀ x, (beginFinish m t).task x = if (m.task t).master = some x then
        {(beginFinish m t).task x with slaves := decrement ((beginFinish m t).task x).slaves}
        else (beginFinish m t).task x := by
      intro x
      rw [hnone,if_neg fun heq => by cases heq]
    rw [heq]
    refine h.finishes_task ht htask hcount (hshutlog t) hclosing rfl fun x => ?_
    rw [hnone]
    refine ⟨fun hx => ?_,fun hx => congrArg some hx.1.symm⟩
    obtain rfl := Option.some.inj hx
    have hself : (beginFinish m t).task t = {m.task t with state := .finish} := by
      rw [beginFinish_task,if_pos rfl]
    exact ⟨rfl,.inl (congrArg Task.state hself),(congrArg Task.slaves hself).trans hslaves⟩
  · have htask : ∀ x, (beginFinish m t).task x = if (m.task t).master = some x then
        {(beginFinish m t).task x with slaves := decrement ((beginFinish m t).task x).slaves}
        else (beginFinish m t).task x := by
      intro x
      rw [hnone,if_neg fun heq => by cases heq]
    rw [heq]
    refine h.finishes_task ht htask hcount hlog hclosing rfl fun x => ?_
    rw [hnone]
    refine iff_of_false (fun hx => by cases hx) fun hx => hslaves ?_
    obtain ⟨rfl,-,hzero⟩ := hx
    rw [beginFinish_task] at hzero
    simpa using hzero

theorem count_record (l : List (Action × ι)) (a b : Action) (x t : ι) :
    (l++[(b,t)]).count (a,x) = l.count (a,x)+if a = b then [t].count x else 0 := by
  rw [List.count_append,List.count_singleton,List.count_singleton]
  by_cases ha : a = b
  · subst ha
    by_cases hx : t = x
    · subst hx
      simp
    · simp [hx]
  · simp [ha,Ne.symm ha]

/-- `Finalise()` and the last `Release()` of tasks. -/
structure Released (m u : TaskManager.State ι σ) (finalised released : List ι) : Prop where
  task : ∀ x, u.task x =
    if x ∈ released then {m.task x with refs := 0, state := .dead} else m.task x
  fifo : u.fifo = m.fifo
  control : u.control = m.control
  finalise : ∀ x, u.log.count (.finalise,x) = m.log.count (.finalise,x)+finalised.count x
  release : ∀ x, u.log.count (.release,x) = m.log.count (.release,x)+released.count x
  other : ∀ a x, a ≠ .finalise → a ≠ .release → u.log.count (a,x) = m.log.count (a,x)

theorem released_finalise (V : Methods ι σ α) (m : TaskManager.State ι σ) (t : ι) :
    Released m (TaskManager.finalise V m t) [t] [] := by
  have hlog : (TaskManager.finalise V m t).log = m.log++[(.finalise,t)] := by
    unfold TaskManager.finalise
    dsimp only
    split_ifs <;> rfl
  refine ⟨fun x => ?_,?_,finalise_control V m t,fun x => ?_,fun x => ?_,fun a x ha _ => ?_⟩
  · rw [if_neg List.not_mem_nil]
    unfold TaskManager.finalise
    dsimp only
    split_ifs <;> rfl
  · unfold TaskManager.finalise
    dsimp only
    split_ifs <;> rfl
  · rw [hlog,count_record,if_pos rfl]
  · rw [hlog,count_record,if_neg (by decide)]
    rfl
  · rw [hlog,count_record,if_neg ha]
    rfl

theorem released_release (m : TaskManager.State ι σ) (t : ι) (ht : (m.task t).refs = 1) :
    Released m (TaskManager.release m t) [] [t] := by
  have hzero : ((modify (record m .release t) t fun task =>
      {task with refs := decrement task.refs}).task t).refs = 0 := by
    rw [modify_task,if_pos rfl]
    change decrement (m.task t).refs = 0
    rw [ht]
    rfl
  have heq : TaskManager.release m t = setState (modify (record m .release t) t fun task =>
      {task with refs := decrement task.refs}) t .dead := if_pos hzero
  have hlog : (TaskManager.release m t).log = m.log++[(.release,t)] := by rw [heq]; rfl
  rw [heq] at hlog ⊢
  refine ⟨fun x => ?_,rfl,rfl,fun x => ?_,fun x => ?_,fun a x _ ha => ?_⟩
  · rw [setState,modify_task,modify_task]
    by_cases hx : x = t
    · subst hx
      rw [if_pos rfl,if_pos rfl,if_pos (List.mem_singleton_self x)]
      change {m.task x with refs := decrement (m.task x).refs, state := .dead} = _
      rw [ht]
      rfl
    · rw [if_neg hx,if_neg hx,if_neg fun hin => hx (List.mem_singleton.mp hin)]
      rfl
  · rw [hlog,count_record,if_neg (by decide)]
    rfl
  · rw [hlog,count_record,if_pos rfl]
  · rw [hlog,count_record,if_neg ha]
    rfl

theorem Released.trans {v : TaskManager.State ι σ} {f f' r r' : List ι} (h : Released m u f r)
    (h' : Released u v f' r') : Released m v (f++f') (r++r') := by
  refine ⟨fun x => ?_,h'.fifo.trans h.fifo,h'.control.trans h.control,fun x => ?_,fun x => ?_,
    fun a x ha hb => (h'.other a x ha hb).trans (h.other a x ha hb)⟩
  · rw [h'.task,h.task]
    by_cases hx : x ∈ r'
    · rw [if_pos hx,if_pos (List.mem_append_right r hx)]
      split_ifs <;> rfl
    · have hiff : x ∈ r++r' ↔ x ∈ r := List.mem_append.trans (or_iff_left hx)
      rw [if_neg hx]
      simp only [hiff]
  · rw [h'.finalise,h.finalise,List.count_append,Nat.add_assoc]
  · rw [h'.release,h.release,List.count_append,Nat.add_assoc]

theorem released_slaves (V : Methods ι σ α) {l : List ι} (hnodup : l.Nodup)
    (hl : ∀ x ∈ l, (m.task x).refs = 1) : Released m
      (l.foldl (fun s x => TaskManager.release (TaskManager.finalise V s x) x) m) l l := by
  induction l generalizing m with
  | nil =>
    exact ⟨fun x => (if_neg List.not_mem_nil).symm,rfl,rfl,fun _ => rfl,fun _ => rfl,
      fun _ _ _ _ => rfl⟩
  | cons y l ih =>
    obtain ⟨hnot,htail⟩ := List.nodup_cons.mp hnodup
    have hfinalise := released_finalise V m y
    have hrefs : ((TaskManager.finalise V m y).task y).refs = 1 := by
      rw [hfinalise.task,if_neg List.not_mem_nil]
      exact hl y List.mem_cons_self
    have hone := hfinalise.trans (released_release _ y hrefs)
    refine hone.trans (ih htail fun x hx => ?_)
    have hxy : x ∉ [y] := by
      rintro hin
      obtain rfl := List.mem_singleton.mp hin
      exact hnot hx
    rw [hone.task]
    rw [List.nil_append,if_neg hxy]
    exact hl x (List.mem_cons_of_mem _ hx)

theorem released_shutdown (V : Methods ι σ α) (hself : t ∉ (m.task t).slaveTasks)
    (hnodup : (m.task t).slaveTasks.Nodup) (ht : (m.task t).refs = 1)
    (hrefs : ∀ x ∈ (m.task t).slaveTasks, (m.task x).refs = 1) :
    Released {m with control := .handleTimedEmits} (TaskManager.shutdown V m t)
      (t::(m.task t).slaveTasks) ((m.task t).slaveTasks++[t]) := by
  have hfinalise := released_finalise V {m with control := .handleTimedEmits} t
  have htask : ∀ x, (TaskManager.finalise V {m with control := .handleTimedEmits} t).task x =
      m.task x := fun x => (hfinalise.task x).trans (if_neg List.not_mem_nil)
  unfold TaskManager.shutdown
  dsimp only
  rw [htask]
  have hslaves := released_slaves (m := TaskManager.finalise V {m with
    control := .handleTimedEmits} t) V hnodup fun x hx => by
      rw [htask]
      exact hrefs x hx
  have hrelease := released_release _ t (by rw [hslaves.task,if_neg hself,htask,ht])
  have hall := (hfinalise.trans hslaves).trans hrelease
  rwa [List.append_nil,List.nil_append] at hall

/-- A task that is being shut down is a master, and finished as all its slaves are. -/
theorem Inv.shut_root (h : Inv m) (hcontrol : m.control = .shutdown t) :
    TaskRun.closing m = some t ∧ (.shutdown,t) ∈ m.log ∧ t ∉ (m.task t).slaveTasks ∧
    (∀ x, (m.task x).master.getD x = t ↔ x ∈ t::(m.task t).slaveTasks) ∧
    ∀ x ∈ t::(m.task t).slaveTasks, (m.task x).state = .finish := by
  have hclosing : TaskRun.closing m = some t := by
    unfold TaskRun.closing
    rw [hcontrol]
  have hmem : (Action.shutdown,t) ∈ m.log := h.closing t hclosing
  obtain ⟨hnone,hfinished,hslaves⟩ : (m.task t).master = none ∧ Finished m t ∧
      (m.task t).slaves = 0 := by
    have hpos := List.count_pos_iff.mpr hmem
    rw [h.shutdown] at hpos
    by_contra hnot
    rw [if_neg hnot] at hpos
    cases hpos
  have hself : t ∉ (m.task t).slaveTasks := by
    intro hin
    cases hnone.symm.trans ((h.slaveTasks t t).mp hin)
  have hroot : ∀ x, (m.task x).master.getD x = t ↔ x ∈ t::(m.task t).slaveTasks := by
    intro x
    rw [List.mem_cons,h.slaveTasks]
    cases hx : (m.task x).master with
    | none => exact (or_iff_left fun hne => by cases hne).symm
    | some o =>
      refine ⟨fun ho => .inr (congrArg some ho),fun ho => ?_⟩
      obtain rfl | ho := ho
      · cases hnone.symm.trans hx
      · exact Option.some.inj ho
  refine ⟨hclosing,hmem,hself,hroot,fun x hx => ?_⟩
  have hdone : Finished m x := by
    obtain rfl | hx := List.mem_cons.mp hx
    · exact hfinished
    · rw [h.slaves] at hslaves
      by_contra hnot
      exact List.countP_eq_zero.mp hslaves x hx (decide_eq_true hnot)
  refine hdone.resolve_right fun hdead => ((h.dead x).mp hdead).2 ?_
  rw [(hroot x).mpr hx]
  exact hclosing

theorem Inv.shut_released (h : Inv m) (V : Methods ι σ α) (hcontrol : m.control = .shutdown t) :
    Released {m with control := .handleTimedEmits} (TaskManager.shutdown V m t)
      (t::(m.task t).slaveTasks) ((m.task t).slaveTasks++[t]) := by
  obtain ⟨-,-,hself,-,hfinish⟩ := h.shut_root hcontrol
  have hrefs : ∀ x ∈ t::(m.task t).slaveTasks, (m.task x).refs = 1 := by
    intro x hx
    rw [h.refs,hfinish x hx]
    rfl
  exact released_shutdown V hself (h.nodup t) (hrefs t List.mem_cons_self)
    fun x hx => hrefs x (List.mem_cons_of_mem _ hx)

/-- The rest of the shutdown keeps the invariant. -/
theorem Inv.shut (h : Inv m) (V : Methods ι σ α) (hcontrol : m.control = .shutdown t) :
    Inv (TaskManager.shutdown V m t) := by
  obtain ⟨hclosing,hmem,hself,hroot,hfinish⟩ := h.shut_root hcontrol
  have hnotClosed : ∀ x ∈ t::(m.task t).slaveTasks, ¬Closed m x := by
    intro x hx hc
    cases (hfinish x hx).symm.trans ((h.dead x).mpr hc)
  have hrel := h.shut_released V hcontrol
  generalize TaskManager.shutdown V m t = u at hrel
  have hreleased : ∀ x, x ∈ (m.task t).slaveTasks++[t] ↔ x ∈ t::(m.task t).slaveTasks := by
    intro x
    rw [List.mem_append,List.mem_singleton,List.mem_cons]
    exact or_comm
  have hin : ∀ x ∈ t::(m.task t).slaveTasks, u.task x = {m.task x with refs := 0, state := .dead} :=
    fun x hx => (hrel.task x).trans (if_pos ((hreleased x).mpr hx))
  have hout : ∀ x, x ∉ t::(m.task t).slaveTasks → u.task x = m.task x :=
    fun x hx => (hrel.task x).trans (if_neg fun hr => hx ((hreleased x).mp hr))
  have hdead : ∀ x ∈ t::(m.task t).slaveTasks, (u.task x).state = .dead := by
    intro x hx
    rw [hin x hx]
  have hkeeps : ∀ {β : Type} (g : Task ι → β),
      (∀ task : Task ι, g {task with refs := 0, state := .dead} = g task) →
      ∀ x, g (u.task x) = g (m.task x) := by
    intro β g hg x
    by_cases hx : x ∈ t::(m.task t).slaveTasks
    · rw [hin x hx,hg]
    · rw [hout x hx]
  have hmaster : ∀ x, (u.task x).master = (m.task x).master := by
    intro x
    by_cases hx : x ∈ t::(m.task t).slaveTasks
    · rw [hin x hx]
    · rw [hout x hx]
  have hslaveTasks : ∀ x, (u.task x).slaveTasks = (m.task x).slaveTasks := by
    intro x
    by_cases hx : x ∈ t::(m.task t).slaveTasks
    · rw [hin x hx]
    · rw [hout x hx]
  have hdone : ∀ x, Finished u x ↔ Finished m x := by
    intro x
    by_cases hx : x ∈ t::(m.task t).slaveTasks
    · exact iff_of_true (.inr (hdead x hx)) (.inl (hfinish x hx))
    · unfold Finished
      rw [hout x hx]
  have hopen : TaskRun.closing u = none := by
    unfold TaskRun.closing
    rw [hrel.control]
  have hclosed : ∀ x, Closed u x ↔ x ∈ t::(m.task t).slaveTasks ∨ Closed m x := by
    intro x
    have hsame : (.shutdown,(m.task x).master.getD x) ∈ u.log ↔
        (.shutdown,(m.task x).master.getD x) ∈ m.log := by
      rw [← List.count_pos_iff,← List.count_pos_iff,hrel.other _ _ (by decide) (by decide)]
    unfold Closed
    rw [hmaster,hopen,hclosing,hsame,← hroot]
    generalize (m.task x).master.getD x = o
    by_cases ho : o = t
    · subst ho
      exact iff_of_true ⟨hmem,fun heq => by cases heq⟩ (.inl rfl)
    · refine ⟨fun hc => .inr ⟨hc.1,fun heq => ho (Option.some.inj heq).symm⟩,fun hc => ?_⟩
      exact ⟨(hc.resolve_left ho).1,fun heq => by cases heq⟩
  have hlog : ∀ a x, a ≠ .finalise → a ≠ .release → u.log.count (a,x) = m.log.count (a,x) :=
    hrel.other
  have hnodup : (t::(m.task t).slaveTasks).Nodup := List.nodup_cons.mpr ⟨hself,h.nodup t⟩
  have hcount : ∀ x, ((m.task t).slaveTasks++[t]).count x = (t::(m.task t).slaveTasks).count x :=
    fun x => (List.perm_append_singleton t _).count_eq x
  have hreleasing : ∀ x n, n = (if Closed m x then 1 else 0) →
      n+(t::(m.task t).slaveTasks).count x = if Closed u x then 1 else 0 := by
    rintro x n rfl
    by_cases hx : x ∈ t::(m.task t).slaveTasks
    · rw [if_neg (hnotClosed x hx),if_pos ((hclosed x).mpr (.inl hx)),
        List.count_eq_one_of_mem hnodup hx]
    · have hiff : Closed u x ↔ Closed m x := (hclosed x).trans (or_iff_right hx)
      rw [List.count_eq_zero.mpr hx,Nat.add_zero]
      simp only [hiff]
  refine ⟨fun x => ?_,fun x => ?_,fun o x => ?_,fun x => ?_,fun o x hx => ?_,fun o x hx ho => ?_,
    fun o x hx hs => ?_,fun o => ?_,fun o => ?_,fun o ho => ?_,fun x => ?_,fun x => ?_,fun x => ?_,
    fun x => ?_⟩
  · rw [hlog _ x (by decide) (by decide),hlog _ x (by decide) (by decide),
      hlog _ x (by decide) (by decide)]
    have hcounted := h.counted x
    by_cases hx : x ∈ t::(m.task t).slaveTasks
    · rw [hfinish x hx] at hcounted
      rw [hin x hx]
      generalize m.log.count (.push,x) = n,m.log.count (.done,x) = n',
        m.log.count (.finish,x) = n'' at hcounted ⊢
      cases hcounted with
      | finish hn => exact .dead hn
    · rw [hout x hx]
      exact hcounted
  · have hqueue : TaskRun.queue u = TaskRun.queue m := by
      unfold TaskRun.queue
      rw [hrel.fifo,hrel.control,hcontrol]
    rw [hqueue,h.queue]
    by_cases hx : x ∈ t::(m.task t).slaveTasks
    · rw [hdead x hx,hfinish x hx]
      decide
    · rw [hout x hx]
  · rw [hslaveTasks,hmaster]
    exact h.slaveTasks o x
  · rw [hslaveTasks]
    exact h.nodup x
  · rw [hmaster] at hx
    obtain ⟨hnil,hrest⟩ := h.slave o x hx
    rw [hslaveTasks]
    refine ⟨hnil,?_⟩
    by_cases hxin : x ∈ t::(m.task t).slaveTasks
    · rw [hdead x hxin]
      exact ⟨by decide,by decide⟩
    · rw [hout x hxin]
      exact hrest
  · rw [hmaster] at hx
    by_cases hoin : o ∈ t::(m.task t).slaveTasks
    · rw [hdead o hoin] at ho
      exact absurd ho (by decide)
    · rw [hout o hoin] at ho
      have hnew := h.idle o x hx ho
      have hxout : x ∉ t::(m.task t).slaveTasks := by
        intro hxin
        cases hnew.symm.trans (hfinish x hxin)
      rw [hout x hxout]
      exact hnew
  · rw [hmaster] at hx
    rw [← List.count_pos_iff,hlog _ x (by decide) (by decide),List.count_pos_iff]
    refine h.pushed o x hx ?_
    by_cases hxin : x ∈ t::(m.task t).slaveTasks
    · rw [hfinish x hxin]
      decide
    · rwa [hout x hxin] at hs
  · simp only [hdone]
    rw [hslaveTasks,← h.slaves]
    exact hkeeps Task.slaves (fun _ => rfl) o
  · simp only [hdone]
    rw [hlog _ o (by decide) (by decide),hmaster,hkeeps Task.slaves (fun _ => rfl)]
    exact h.shutdown o
  · rw [hopen] at ho
    cases ho
  · rw [hrel.finalise]
    exact hreleasing x _ (h.finalise x)
  · rw [hrel.release]
    change m.log.count _+((m.task t).slaveTasks++[t]).count x = _
    rw [hcount]
    exact hreleasing x _ (h.release x)
  · rw [hclosed]
    by_cases hx : x ∈ t::(m.task t).slaveTasks
    · exact iff_of_true (hdead x hx) (.inl hx)
    · rw [hout x hx,or_iff_right hx]
      exact h.dead x
  · by_cases hx : x ∈ t::(m.task t).slaveTasks
    · rw [hin x hx]
      rfl
    · rw [hout x hx]
      exact h.refs x

theorem life_modify (m : TaskManager.State ι σ) (t : ι) {f : Task ι → Task ι}
    (h : ∀ task, (f task).state = task.state ∧ (f task).master = task.master ∧
      (f task).slaveTasks = task.slaveTasks ∧ (f task).slaves = task.slaves ∧
      (f task).refs = task.refs) : life (modify m t f) = life m := by
  have htask : (fun x => (((modify m t f).task x).state,((modify m t f).task x).master,
      ((modify m t f).task x).slaveTasks,((modify m t f).task x).slaves,
      ((modify m t f).task x).refs)) = fun x => ((m.task x).state,(m.task x).master,
      (m.task x).slaveTasks,(m.task x).slaves,(m.task x).refs) := by
    funext x
    rw [modify_task]
    split_ifs
    · obtain ⟨hstate,hmaster,hslaveTasks,hslaves,hrefs⟩ := h (m.task x)
      rw [hstate,hmaster,hslaveTasks,hslaves,hrefs]
    · rfl
  exact congrArg (·,fun x => (queue m).count x,closing m,m.log) htask

theorem life_addNotify (m : TaskManager.State ι σ) (p x : ι) (follow : Bool) :
    life (addNotify m p x follow) = life m := by
  obtain ⟨h,-⟩ | ⟨-,-,-,-,-,h⟩ := addNotify_cases m p x follow
  all_goals rw [h]
  unfold addEntry
  dsimp only
  rw [life_modify,life_modify]
  · exact fun _ => ⟨rfl,rfl,rfl,rfl,rfl⟩
  · exact fun _ => ⟨rfl,rfl,rfl,rfl,rfl⟩

theorem life_handleNotify (m : TaskManager.State ι σ) (t : ι) :
    life (handleNotify m t) = life m := by
  have hunblock : life (unblock m t) = life m := by
    refine life_modify m t ?_
    exact fun _ => ⟨rfl,rfl,rfl,rfl,rfl⟩
  unfold handleNotify
  dsimp only
  split_ifs
  · exact hunblock
  · exact hunblock
  · rfl

/-- A task that `Setup()` was called for is not handled otherwise. -/
def Starting (m : TaskManager.State ι σ) : Prop :=
  ∀ t calls ok, m.control = .setup t calls ok → m.stack = [] ∧ (m.task t).state = .flushed

theorem finish_control (m : TaskManager.State ι σ) (t x : ι) (calls : List (ι × Bool)) (ok : Bool) :
    (TaskManager.finish m t).control ≠ .setup x calls ok := by
  obtain ⟨-,h⟩ | ⟨-,o,-,-,-,h⟩ | ⟨-,o,-,-,h⟩ | ⟨-,-,-,h⟩ | ⟨-,-,-,h⟩ := finish_cases m t
  all_goals
    rw [h]
    exact fun heq => by cases heq

theorem addNotify_control (m : TaskManager.State ι σ) (p x : ι) (follow : Bool) :
    (addNotify m p x follow).control = m.control := by
  unfold addNotify
  split_ifs <;> rfl

theorem addNotify_stack (m : TaskManager.State ι σ) (p x : ι) (follow : Bool) :
    (addNotify m p x follow).stack = m.stack := by
  unfold addNotify
  split_ifs <;> rfl

theorem Starting.congr (h : Starting m) (hcontrol : u.control = m.control)
    (hstack : u.stack = m.stack)
    (hstate : ∀ x, (m.task x).state = .flushed → (u.task x).state = .flushed) : Starting u := by
  intro t calls ok ht
  obtain ⟨hnil,hflushed⟩ := h t calls ok (hcontrol.symm.trans ht)
  exact ⟨hstack.trans hnil,hstate t hflushed⟩

theorem Starting.stack (h : Starting m) {frame : Frame ι} {stack : List (Frame ι)}
    (hstack : m.stack = frame::stack) (hcontrol : u.control = m.control) : Starting u := by
  intro t calls ok ht
  have hnil := (h t calls ok (hcontrol.symm.trans ht)).1
  cases hstack.symm.trans hnil

theorem life_state (h : life u = life m) (x : ι) : (u.task x).state = (m.task x).state :=
  (life_eq h).1 x

/-- All that the manager and the threads that prepare tasks do keeps the invariant. -/
theorem Inv.move {V : Methods ι σ α} (h : Inv m) (hstarting : Starting m)
    {e : TaskManager.Event ι α} (he : ∀ t, e ≠ .done t) (hmove : Move V m e u) :
    Inv u ∧ Starting u := by
  cases hmove with
  | addNotify p x follow =>
    have hlife := life_addNotify m p x follow
    refine ⟨h.congr hlife,hstarting.congr ?_ ?_ fun y hy => (life_state hlife y).trans hy⟩
    · exact addNotify_control m p x follow
    · exact addNotify_stack m p x follow
  | addSlave o x ho hom hx hxm hxs hne =>
    refine ⟨h.addSlave ho hom hx hxm hxs hne,hstarting.congr rfl rfl fun y hy => ?_⟩
    rw [addSlave_task]
    split_ifs <;> exact hy
  | flush t hnew hmaster =>
    refine ⟨h.flush hnew hmaster,hstarting.congr rfl rfl fun y hy => ?_⟩
    change ((setState m t .flushed).task y).state = _
    rw [setState_state]
    split_ifs
    · rfl
    · exact hy
  | done t => exact absurd rfl (he t)
  | emit t stack hstack hready =>
    have hpopped : Inv {m with stack := stack} := h.congr rfl
    exact ⟨hpopped.emit hready,hstarting.stack hstack (emit_control _ t)⟩
  | noEmit t stack hstack => exact ⟨h.congr rfl,hstarting.stack hstack rfl⟩
  | notified t state i stack hstack => exact ⟨h.congr rfl,hstarting.stack hstack rfl⟩
  | skip t state i stack x kind hstack => exact ⟨h.congr rfl,hstarting.stack hstack rfl⟩
  | notify t state i stack x hstack =>
    have herased : life (eraseEntry m t i) = life m := by
      refine life_modify m t ?_
      exact fun _ => ⟨rfl,rfl,rfl,rfl,rfl⟩
    refine ⟨h.congr ((life_handleNotify _ x).trans herased),hstarting.stack hstack ?_⟩
    unfold handleNotify
    dsimp only
    split_ifs <;> rfl
  | timeout hstack hcontrol =>
    refine ⟨h.congr ?_,fun _ _ _ heq => by cases heq⟩
    simp only [life,TaskRun.queue,TaskRun.closing,hcontrol]
  | pull t fifo hstack hcontrol hfifo =>
    have hperm : ∀ x, (fifo++[t]).count x = ((t::fifo)++[]).count x := by
      intro x
      rw [List.append_nil]
      exact (List.perm_append_singleton t fifo).count_eq x
    refine ⟨h.congr ?_,fun _ _ _ heq => by cases heq⟩
    simp only [life,TaskRun.queue,TaskRun.closing,hcontrol,hfifo,hperm]
  | setup t hstack hcontrol hstate =>
    refine ⟨h.congr ?_,fun x calls ok heq => ?_⟩
    · simp only [life,TaskRun.queue,TaskRun.closing,hcontrol]
    · obtain rfl := (Control.setup.inj heq).1
      exact ⟨hstack,hstate⟩
  | handleReady t hstack hcontrol hstate =>
    have hzero := h.queue t
    simp [TaskRun.queue,hcontrol,hstate] at hzero
  | finish t hstack hcontrol hdone =>
    refine ⟨h.finish hdone ?_ ?_,fun x calls ok heq => absurd heq (finish_control m t x calls ok)⟩
    · simp only [TaskRun.queue,hcontrol]
    · simp only [TaskRun.closing,hcontrol]
  | ignore t hstack hcontrol hstate =>
    have hzero := h.queue t
    simp only [List.mem_cons,List.not_mem_nil,or_false,not_or] at hstate
    simp [TaskRun.queue,hcontrol,hstate.1,hstate.2.2] at hzero
  | call t p follow calls ok hstack hcontrol =>
    have hlife : life {addNotify m p t follow with control := .setup t calls ok} =
        life (addNotify m p t follow) := by
      simp only [life,TaskRun.queue,TaskRun.closing,addNotify_control,hcontrol]
    refine ⟨h.congr (hlife.trans (life_addNotify m p t follow)),fun x calls' ok' heq => ?_⟩
    obtain rfl := (Control.setup.inj heq).1
    obtain ⟨-,hflushed⟩ := hstarting t _ ok hcontrol
    exact ⟨(addNotify_stack m p t follow).trans hstack,
      (life_state (life_addNotify m p t follow) t).trans hflushed⟩
  | ready t hstack hcontrol =>
    obtain ⟨-,hflushed⟩ := hstarting t [] true hcontrol
    exact ⟨(h.ready hcontrol hflushed).congr rfl,fun _ _ _ heq => by cases heq⟩
  | wait t hstack hcontrol =>
    obtain ⟨-,hflushed⟩ := hstarting t [] true hcontrol
    have hwaiting : life (TaskManager.modify (setupReady m t) t fun task =>
        {task with waitingTimedEmit := true}) = life (setupReady m t) := by
      refine life_modify (setupReady m t) t ?_
      exact fun _ => ⟨rfl,rfl,rfl,rfl,rfl⟩
    exact ⟨(h.ready hcontrol hflushed).congr hwaiting,fun _ _ _ heq => by cases heq⟩
  | fail t hstack hcontrol =>
    obtain ⟨-,hflushed⟩ := hstarting t [] false hcontrol
    refine ⟨(h.failed hflushed).finish (setState_self m t .done) ?_ ?_,
      fun x calls ok heq => absurd heq (finish_control _ t x calls ok)⟩
    · change TaskRun.queue m = _
      simp only [TaskRun.queue,hcontrol]
      rfl
    · change TaskRun.closing m = _
      simp only [TaskRun.closing,hcontrol]
  | shutdown t hstack hcontrol =>
    refine ⟨h.shut V hcontrol,fun _ _ _ heq => ?_⟩
    rw [shutdown_control] at heq
    cases heq
  | handleTimedEmits hstack hcontrol =>
    refine ⟨h.congr ?_,fun _ _ _ heq => by cases heq⟩
    simp only [life,TaskRun.queue,TaskRun.closing,hcontrol]
  | timedEnd hstack hcontrol =>
    refine ⟨h.congr ?_,fun _ _ _ heq => by cases heq⟩
    simp only [life,TaskRun.queue,TaskRun.closing,hcontrol]
  | timedNext t emits hstack hcontrol =>
    refine ⟨h.congr ?_,fun _ _ _ heq => by cases heq⟩
    simp only [life,TaskRun.queue,TaskRun.closing,hcontrol]
  | timedDue t emits hstack hcontrol =>
    have hcleared : life (clearWaiting m t) = life m := by
      refine life_modify m t ?_
      exact fun _ => ⟨rfl,rfl,rfl,rfl,rfl⟩
    refine ⟨h.congr hcleared,fun x calls ok heq => ?_⟩
    cases hcontrol.symm.trans heq

/-- What was recorded stays, and `Done()` was not called. -/
def Grown (m u : TaskManager.State ι σ) : Prop :=
  ∃ l : List (Action × ι), u.log = m.log++l ∧ ∀ x, (.done,x) ∉ l

theorem Grown.same (h : u.log = m.log) : Grown m u :=
  ⟨[],h.trans (List.append_nil _).symm,fun _ => List.not_mem_nil⟩

theorem Grown.trans {v : TaskManager.State ι σ} (h : Grown m u) (h' : Grown u v) : Grown m v := by
  obtain ⟨l,hl,hdone⟩ := h
  obtain ⟨l',hl',hdone'⟩ := h'
  refine ⟨l++l',by rw [hl',hl,List.append_assoc],fun x hx => ?_⟩
  exact (List.mem_append.mp hx).elim (hdone x) (hdone' x)

theorem grown_record (m : TaskManager.State ι σ) {a : Action} (ha : a ≠ .done) (t : ι) :
    Grown m (record m a t) := by
  refine ⟨[(a,t)],rfl,fun x hx => ha ?_⟩
  exact (congrArg Prod.fst (List.mem_singleton.mp hx)).symm

theorem grown_push (m : TaskManager.State ι σ) (t : ι) : Grown m (TaskManager.push m t) :=
  grown_record _ (by decide) t

theorem grown_foldl {f : TaskManager.State ι σ → ι → TaskManager.State ι σ}
    (hf : ∀ m x, Grown m (f m x)) (l : List ι) (m : TaskManager.State ι σ) :
    Grown m (l.foldl f m) := by
  induction l generalizing m with
  | nil => exact .same rfl
  | cons x l ih => exact (hf m x).trans (ih (f m x))

theorem grown_emit (m : TaskManager.State ι σ) (t : ι) : Grown m (TaskManager.emit m t) := by
  have hpushed : Grown m (TaskManager.pushed m t) := by
    unfold TaskManager.pushed
    split_ifs
    · exact (grown_push m t).trans (grown_foldl grown_push _ _)
    · exact grown_push m t
  exact hpushed

theorem grown_finish (m : TaskManager.State ι σ) (t : ι) : Grown m (TaskManager.finish m t) := by
  have hbegin : Grown m (beginFinish m t) := by
    refine ⟨[(.finish,t)],rfl,fun x hx => ?_⟩
    cases List.mem_singleton.mp hx
  have hshutdown : ∀ (u : TaskManager.State ι σ) o, Grown u (beginShutdown u o) := by
    refine fun u o => ⟨[(.shutdown,o)],rfl,fun x hx => ?_⟩
    cases List.mem_singleton.mp hx
  obtain ⟨-,h⟩ | ⟨-,o,-,-,-,h⟩ | ⟨-,o,-,-,h⟩ | ⟨-,-,-,h⟩ | ⟨-,-,-,h⟩ := finish_cases m t
  all_goals rw [h]
  · exact .same rfl
  · exact hbegin.trans (hshutdown _ o)
  · exact hbegin
  · exact hbegin.trans (hshutdown _ t)
  · exact hbegin

theorem grown_finalise (V : Methods ι σ α) (m : TaskManager.State ι σ) (t : ι) :
    Grown m (TaskManager.finalise V m t) := by
  have hrecord := grown_record m (a := .finalise) (by decide) t
  unfold TaskManager.finalise
  dsimp only
  split_ifs
  · exact hrecord
  · exact hrecord

theorem grown_release (m : TaskManager.State ι σ) (t : ι) : Grown m (TaskManager.release m t) := by
  have hrecord := grown_record m (a := .release) (by decide) t
  unfold TaskManager.release
  dsimp only
  split_ifs
  · exact hrecord
  · exact hrecord

theorem grown_move {V : Methods ι σ α} {e : TaskManager.Event ι α} (he : ∀ t, e ≠ .done t)
    (hmove : Move V m e u) : Grown m u := by
  cases hmove with
  | addNotify p x follow => exact .same (life_eq (life_addNotify m p x follow)).2.2.2.2.2.2.2
  | done t => exact absurd rfl (he t)
  | emit t stack => exact grown_emit {m with stack := stack} t
  | notify t state i stack x =>
    refine .same ?_
    unfold handleNotify
    dsimp only
    split_ifs <;> rfl
  | finish t => exact grown_finish m t
  | call t p follow => exact .same (life_eq (life_addNotify m p t follow)).2.2.2.2.2.2.2
  | fail t => exact grown_finish (setState m t .done) t
  | shutdown t =>
    have hslaves := grown_foldl (fun s x => (grown_finalise V s x).trans (grown_release _ x))
      ((TaskManager.finalise V {m with control := .handleTimedEmits} t).task t).slaveTasks
      (TaskManager.finalise V {m with control := .handleTimedEmits} t)
    have hfinalise := grown_finalise V {m with control := .handleTimedEmits} t
    exact (hfinalise.trans hslaves).trans (grown_release _ t)
  | _ => exact .same rfl

theorem Inv.running_iff (h : Inv m) (t : ι) :
    (m.task t).state = .running ↔ (.push,t) ∈ m.log ∧ (.done,t) ∉ m.log := by
  have hcounted := h.counted t
  rw [← List.count_pos_iff,← List.count_eq_zero]
  generalize (m.task t).state = state,m.log.count (.push,t) = n,m.log.count (.done,t) = n',
    m.log.count (.finish,t) = n'' at hcounted ⊢
  cases hcounted with
  | running => exact iff_of_true rfl ⟨Nat.one_pos,rfl⟩
  | new => exact iff_of_false (by decide) fun hand => Nat.lt_irrefl 0 hand.1
  | flushed => exact iff_of_false (by decide) fun hand => Nat.lt_irrefl 0 hand.1
  | ready => exact iff_of_false (by decide) fun hand => Nat.lt_irrefl 0 hand.1
  | done hn => exact iff_of_false (by decide) fun hand => Nat.ne_of_gt hand.1 hand.2
  | finish hn => exact iff_of_false (by decide) fun hand => Nat.ne_of_gt hand.1 hand.2
  | dead hn => exact iff_of_false (by decide) fun hand => Nat.ne_of_gt hand.1 hand.2

theorem Inv.push_le (h : Inv m) (t : ι) : m.log.count (.push,t) ≤ 1 := by
  have hcounted := h.counted t
  generalize (m.task t).state = state,m.log.count (.push,t) = n,m.log.count (.done,t) = n',
    m.log.count (.finish,t) = n'' at hcounted ⊢
  cases hcounted with
  | running => exact le_rfl
  | new | flushed | ready => exact Nat.zero_le 1
  | done hn | finish hn | dead hn => exact hn

theorem Inv.finished_iff (h : Inv m) (t : ι) : Finished m t ↔ (.finish,t) ∈ m.log := by
  have hcounted := h.counted t
  unfold Finished
  rw [← List.count_pos_iff]
  generalize (m.task t).state = state,m.log.count (.push,t) = n,m.log.count (.done,t) = n',
    m.log.count (.finish,t) = n'' at hcounted ⊢
  cases hcounted with
  | new | flushed | ready | running | done hn => exact iff_of_false (by decide) (Nat.lt_irrefl 0)
  | finish hn => exact iff_of_true (.inl rfl) Nat.one_pos
  | dead hn => exact iff_of_true (.inr rfl) Nat.one_pos

theorem Inv.finish_le (h : Inv m) (t : ι) : m.log.count (.finish,t) ≤ 1 := by
  have hcounted := h.counted t
  generalize (m.task t).state = state,m.log.count (.push,t) = n,m.log.count (.done,t) = n',
    m.log.count (.finish,t) = n'' at hcounted ⊢
  cases hcounted with
  | new | flushed | ready | running | done hn => exact Nat.zero_le 1
  | finish hn | dead hn => exact le_rfl

theorem Inv.done_le (h : Inv m) (t : ι) : m.log.count (.done,t) ≤ m.log.count (.push,t) := by
  have hcounted := h.counted t
  generalize (m.task t).state = state,m.log.count (.push,t) = n,m.log.count (.done,t) = n',
    m.log.count (.finish,t) = n'' at hcounted ⊢
  cases hcounted with
  | running => exact Nat.zero_le 1
  | new | flushed | ready | done hn | finish hn | dead hn => exact le_rfl

/-- A task that was pushed is finished after `Done()`. -/
theorem Inv.done_of_finished (h : Inv m) (ht : Finished m t) (hpush : (.push,t) ∈ m.log) :
    m.log.count (.done,t) = 1 := by
  have hone := h.push_le t
  have hpos := List.count_pos_iff.mpr hpush
  have hcounted := h.counted t
  unfold Finished at ht
  generalize (m.task t).state = state,m.log.count (.push,t) = n,m.log.count (.done,t) = n',
    m.log.count (.finish,t) = n'' at hcounted ht hone hpos ⊢
  cases hcounted with
  | new | flushed | ready | running | done hn => exact absurd ht (by decide)
  | finish hn => exact Nat.le_antisymm hone hpos
  | dead hn => exact Nat.le_antisymm hone hpos

theorem Inv.shutdown_iff (h : Inv m) (t : ι) : (.shutdown,t) ∈ m.log ↔
    (m.task t).master = none ∧ Finished m t ∧ ∀ x, (m.task x).master = some t → Finished m x := by
  rw [← List.count_pos_iff,h.shutdown,h.slaves]
  have hzero : (m.task t).slaveTasks.countP (fun x => ¬Finished m x) = 0 ↔
      ∀ x, (m.task x).master = some t → Finished m x := by
    rw [List.countP_eq_zero]
    refine forall_congr' fun x => ?_
    rw [h.slaveTasks,decide_eq_true_eq,not_not]
  rw [← hzero]
  split_ifs with hall
  · exact iff_of_true Nat.one_pos hall
  · exact iff_of_false (Nat.lt_irrefl 0) hall

end Manager

/-- The tasks that run were not yet taken by a thread, or `Done()` is about to be called for them,
or they are shown on a layer until the next one is. -/
structure RunInv (kind : ι → Kind κ) (s : State ι σ κ) : Prop where
  manager : Inv s.manager
  starting : Starting s.manager
  ranNodup : s.ran.Nodup
  ran : ∀ t ∈ s.ran, (.push,t) ∈ s.manager.log
  done : ∀ t, (.done,t) ∈ s.manager.log → t ∈ s.ran
  callsNodup : s.calls.Nodup
  calls : ∀ t ∈ s.calls, t ∈ s.ran ∧ (.done,t) ∉ s.manager.log ∧ ∀ layer, s.prevTask layer ≠ some t
  shown : ∀ layer t, s.prevTask layer = some t →
    t ∈ s.ran ∧ (.done,t) ∉ s.manager.log ∧ kind t = .display layer
  left : ∀ t ∈ s.ran, (.done,t) ∈ s.manager.log ∨ t ∈ s.calls ∨ ∃ layer, s.prevTask layer = some t
  fault : s.fault = false

/-- The `Run()` of a `DisplayTask` does not fail. -/
def Kept (kind : ι → Kind κ) (_ : State ι σ κ) : Event ι α κ → Prop
  | .run t ret => ∀ layer, kind t = .display layer → ret = .ok
  | _ => True

section Runs
variable {V : Methods ι σ α} {kind : ι → Kind κ} {s s' : State ι σ κ} {t : ι}

/-- The manager goes on. -/
theorem RunInv.manager_step (h : RunInv kind s) {e : TaskManager.Event ι α}
    (he : ∀ t, e ≠ .done t) {u : TaskManager.State ι σ} (hu : TaskManager.step V s.manager e = some u) :
    RunInv kind {s with manager := u} := by
  have hmove := move_of_step hu
  obtain ⟨hinv,hstarting⟩ := h.manager.move h.starting he hmove
  obtain ⟨l,hlog,hl⟩ := grown_move he hmove
  have hpush : ∀ x, (.push,x) ∈ s.manager.log → (.push,x) ∈ u.log := fun x hx => by
    rw [hlog]
    exact List.mem_append_left l hx
  have hdone : ∀ x, (.done,x) ∈ u.log ↔ (.done,x) ∈ s.manager.log := fun x => by
    rw [hlog]
    exact List.mem_append.trans (or_iff_left (hl x))
  refine ⟨hinv,hstarting,h.ranNodup,fun x hx => hpush x (h.ran x hx),fun x hx => ?_,h.callsNodup,
    fun x hx => ?_,fun layer x hx => ?_,fun x hx => ?_,h.fault⟩
  · exact h.done x ((hdone x).mp hx)
  · dsimp only
    rw [hdone]
    exact h.calls x hx
  · dsimp only
    rw [hdone]
    exact h.shown layer x hx
  · dsimp only
    rw [hdone]
    exact h.left x hx

/-- What is shown on a layer is no longer: it is returned. -/
theorem RunInv.replaced (h : RunInv kind s) (layer : κ) : RunInv kind (removeRegion s layer) := by
  have hcalls : ∀ x, x ∈ (s.prevTask layer).toList++s.calls ↔
      s.prevTask layer = some x ∨ x ∈ s.calls := by
    intro x
    rw [List.mem_append,Option.mem_toList]
  have hother : ∀ layer' x, update s.prevTask layer none layer' = some x ↔
      s.prevTask layer' = some x ∧ layer' ≠ layer := by
    intro layer' x
    by_cases hl : layer' = layer
    · subst hl
      rw [update_self]
      exact iff_of_false (fun heq => by cases heq) fun hand => hand.2 rfl
    · rw [update_of_ne hl]
      exact (and_iff_left hl).symm
  refine ⟨h.manager,h.starting,h.ranNodup,h.ran,h.done,?_,fun x hx => ?_,fun layer' x hx => ?_,
    fun x hx => ?_,h.fault⟩
  · change ((s.prevTask layer).toList++s.calls).Nodup
    cases hp : s.prevTask layer with
    | none => exact h.callsNodup
    | some p => exact List.nodup_cons.mpr ⟨fun hin => (h.calls p hin).2.2 layer hp,h.callsNodup⟩
  · obtain hp | hx := (hcalls x).mp hx
    · obtain ⟨hin,hfree,hkind⟩ := h.shown layer x hp
      refine ⟨hin,hfree,fun layer' hl => ?_⟩
      obtain ⟨hp',hne⟩ := (hother layer' x).mp hl
      have hkind' := (h.shown layer' x hp').2.2
      exact hne (Kind.display.inj (hkind'.symm.trans hkind))
    · obtain ⟨hin,hfree,hrest⟩ := h.calls x hx
      exact ⟨hin,hfree,fun layer' hl => hrest layer' ((hother layer' x).mp hl).1⟩
  · exact h.shown layer' x ((hother layer' x).mp hx).1
  · obtain hdone | hin | ⟨layer',hp⟩ := h.left x hx
    · exact .inl hdone
    · exact .inr (.inl ((hcalls x).mpr (.inr hin)))
    · by_cases hl : layer' = layer
      · subst hl
        exact .inr (.inl ((hcalls x).mpr (.inl hp)))
      · exact .inr (.inr ⟨layer',(hother layer' x).mpr ⟨hp,hl⟩⟩)

/-- A task that was not run before is shown on a layer that shows nothing. -/
theorem RunInv.show (h : RunInv kind s) {layer : κ} (hkind : kind t = .display layer)
    (hprev : s.prevTask layer = none) (hnot : t ∉ s.ran) (hpush : (.push,t) ∈ s.manager.log) :
    RunInv kind {s with
      ran := t::s.ran
      prevTask := update s.prevTask layer (some t)} := by
  have hcases : ∀ layer' x, update s.prevTask layer (some t) layer' = some x ↔
      s.prevTask layer' = some x ∨ layer' = layer ∧ x = t := by
    intro layer' x
    by_cases hl : layer' = layer
    · subst hl
      rw [update_self,hprev]
      exact ⟨fun heq => .inr ⟨rfl,(Option.some.inj heq).symm⟩,fun hor =>
        hor.elim (fun heq => by cases heq) fun hand => congrArg some hand.2.symm⟩
    · rw [update_of_ne hl]
      exact (or_iff_left fun hand => hl hand.1).symm
  refine ⟨h.manager,h.starting,List.nodup_cons.mpr ⟨hnot,h.ranNodup⟩,fun x hx => ?_,fun x hx => ?_,
    h.callsNodup,fun x hx => ?_,fun layer' x hx => ?_,fun x hx => ?_,h.fault⟩
  · obtain rfl | hx := List.mem_cons.mp hx
    · exact hpush
    · exact h.ran x hx
  · exact List.mem_cons_of_mem t (h.done x hx)
  · obtain ⟨hin,hfree,hrest⟩ := h.calls x hx
    refine ⟨List.mem_cons_of_mem t hin,hfree,fun layer' hl => ?_⟩
    obtain hl | ⟨-,rfl⟩ := (hcases layer' x).mp hl
    · exact hrest layer' hl
    · exact hnot hin
  · obtain hx | ⟨rfl,rfl⟩ := (hcases layer' x).mp hx
    · obtain ⟨hin,hrest⟩ := h.shown layer' x hx
      exact ⟨List.mem_cons_of_mem t hin,hrest⟩
    · exact ⟨List.mem_cons_self,fun hdone => hnot (h.done x hdone),hkind⟩
  · obtain rfl | hx := List.mem_cons.mp hx
    · exact .inr (.inr ⟨layer,(hcases layer x).mpr (.inr ⟨rfl,rfl⟩)⟩)
    · refine (h.left x hx).imp_right (Or.imp_right fun ⟨layer',hl⟩ => ?_)
      exact ⟨layer',(hcases layer' x).mpr (.inl hl)⟩

theorem RunInv.run_step (h : RunInv kind s) {ret : DirectResult}
    (hkept : ∀ layer, kind t = .display layer → ret = .ok)
    (ht : s.ran.count t < s.manager.log.count (.push,t)) :
    RunInv kind (taskLoop kind s t ret) := by
  have hnot : t ∉ s.ran := by
    intro hin
    have hone := List.count_pos_iff.mpr hin
    have hle := h.manager.push_le t
    omega
  have hpush : (.push,t) ∈ s.manager.log := List.count_pos_iff.mp (Nat.zero_lt_of_lt ht)
  have hfree : (.done,t) ∉ s.manager.log := fun hdone => hnot (h.done t hdone)
  have hranNodup : (t::s.ran).Nodup := List.nodup_cons.mpr ⟨hnot,h.ranNodup⟩
  have hran : ∀ x ∈ t::s.ran, (.push,x) ∈ s.manager.log := fun x hx =>
    (List.mem_cons.mp hx).elim (fun heq => heq ▸ hpush) (h.ran x)
  have hdone : ∀ x, (.done,x) ∈ s.manager.log → x ∈ t::s.ran := fun x hx =>
    List.mem_cons_of_mem t (h.done x hx)
  have hcall : t ∉ s.calls := fun hin => hnot (h.calls t hin).1
  have hprev : ∀ layer, s.prevTask layer ≠ some t := fun layer hp => hnot (h.shown layer t hp).1
  -- a task other than the ones for a layer is returned once
  have hsimple : RunInv kind {s with
      ran := t::s.ran
      calls := t::s.calls} := by
    refine ⟨h.manager,h.starting,hranNodup,hran,hdone,List.nodup_cons.mpr ⟨hcall,h.callsNodup⟩,
      fun x hx => ?_,fun layer x hx => ?_,fun x hx => ?_,h.fault⟩
    · obtain rfl | hx := List.mem_cons.mp hx
      · exact ⟨List.mem_cons_self,hfree,hprev⟩
      · obtain ⟨hin,hrest⟩ := h.calls x hx
        exact ⟨List.mem_cons_of_mem t hin,hrest⟩
    · obtain ⟨hin,hrest⟩ := h.shown layer x hx
      exact ⟨List.mem_cons_of_mem t hin,hrest⟩
    · obtain rfl | hx := List.mem_cons.mp hx
      · exact .inr (.inl List.mem_cons_self)
      · exact (h.left x hx).imp_right (Or.imp_left (List.mem_cons_of_mem t))
  unfold taskLoop
  cases hkind : kind t with
  | simple => exact hsimple
  | transfer =>
    by_cases hret : ret = .ok
    · simp only [run,putPrevTask,hret,ne_eq,not_true_eq_false,if_false,List.append_nil]
      exact hsimple
    · simp only [run,putPrevTask,hret,ne_eq,not_false_eq_true,if_true,List.nil_append]
      exact hsimple
  | display layer =>
    obtain rfl := hkept layer hkind
    simp only [run,putPrevTask,ne_eq,not_true_eq_false,if_false,List.append_nil]
    have hshow := (h.replaced layer).show (t := t) hkind (update_self ..) hnot hpush
    simp only [removeRegion,update_idem] at hshow
    exact hshow

theorem RunInv.call_step (h : RunInv kind s) (ht : t ∈ s.calls) : RunInv kind (call s t) := by
  obtain ⟨hin,hfree,hprev⟩ := h.calls t ht
  have hrunning := (h.manager.running_iff t).mpr ⟨h.ran t hin,hfree⟩
  have hdead : (s.manager.task t).state ≠ .dead := by
    rw [hrunning]
    decide
  have hcall : call s t = {s with
      calls := s.calls.erase t
      manager := TaskManager.done s.manager t} := if_neg hdead
  have hlog : ∀ a x, (a,x) ∈ (TaskManager.done s.manager t).log ↔
      (a,x) ∈ s.manager.log ∨ a = .done ∧ x = t := by
    intro a x
    change (a,x) ∈ s.manager.log++[(.done,t)] ↔ _
    rw [List.mem_append,List.mem_singleton,Prod.mk.injEq]
  rw [hcall]
  refine ⟨h.manager.done hrunning,?_,h.ranNodup,fun x hx => ?_,fun x hx => ?_,h.callsNodup.erase t,
    fun x hx => ?_,fun layer x hx => ?_,fun x hx => ?_,h.fault⟩
  · refine h.starting.congr rfl rfl fun x hx => ?_
    change ((setState s.manager t .done).task x).state = _
    rw [setState_state,if_neg]
    · exact hx
    · rintro rfl
      cases hrunning.symm.trans hx
  · exact (hlog _ x).mpr (.inl (h.ran x hx))
  · obtain hx | ⟨-,rfl⟩ := (hlog _ x).mp hx
    · exact h.done x hx
    · exact hin
  · obtain ⟨hne,hx⟩ := h.callsNodup.mem_erase_iff.mp hx
    obtain ⟨hxin,hxfree,hxprev⟩ := h.calls x hx
    exact ⟨hxin,fun hd => ((hlog _ x).mp hd).elim hxfree fun hand => hne hand.2,hxprev⟩
  · obtain ⟨hxin,hxfree,hkind⟩ := h.shown layer x hx
    refine ⟨hxin,fun hd => ((hlog _ x).mp hd).elim hxfree fun hand => ?_,hkind⟩
    exact hprev layer (hand.2 ▸ hx)
  · by_cases hxt : x = t
    · exact .inl ((hlog _ x).mpr (.inr ⟨rfl,hxt⟩))
    · refine (h.left x hx).imp (fun hd => (hlog _ x).mpr (.inl hd)) (Or.imp_left fun hc => ?_)
      exact h.callsNodup.mem_erase_iff.mpr ⟨hxt,hc⟩

theorem Inv.initial {m : TaskManager.State ι σ} (h : TaskManager.Initial m) : Inv m := by
  have htask : ∀ x, (m.task x).state = .new ∧ (m.task x).master = none ∧
      (m.task x).slaveTasks = [] ∧ (m.task x).slaves = 0 ∧ (m.task x).refs = 1 := by
    intro x
    obtain ⟨emitNotifies,needSlavePush,tsEmit,hx⟩ := h.task x
    rw [hx]
    exact ⟨rfl,rfl,rfl,rfl,rfl⟩
  have hcount : ∀ e : Action × ι, m.log.count e = 0 := fun e => by
    rw [h.log]
    rfl
  have hqueue : TaskRun.queue m = [] := by
    unfold TaskRun.queue
    rw [h.fifo,h.control]
    rfl
  have hclosing : TaskRun.closing m = none := by
    unfold TaskRun.closing
    rw [h.control]
  have hclosed : ∀ x, ¬Closed m x := fun x hc => by
    have hmem := hc.1
    rw [h.log] at hmem
    cases hmem
  have hlive : ∀ x, ¬Finished m x := fun x => not_finished (htask x).1 (by decide)
  refine ⟨fun x => ?_,fun x => ?_,fun o x => ?_,fun x => ?_,fun o x hx => ?_,fun o x hx => ?_,
    fun o x hx => ?_,fun o => ?_,fun o => ?_,fun o ho => ?_,fun x => ?_,fun x => ?_,fun x => ?_,
    fun x => ?_⟩
  · rw [(htask x).1,hcount,hcount,hcount]
    exact .new
  · rw [hqueue,(htask x).1]
    rfl
  · rw [(htask o).2.2.1,(htask x).2.1]
    exact iff_of_false List.not_mem_nil fun heq => by cases heq
  · rw [(htask x).2.2.1]
    exact List.nodup_nil
  · cases (htask x).2.1.symm.trans hx
  · cases (htask x).2.1.symm.trans hx
  · cases (htask x).2.1.symm.trans hx
  · rw [(htask o).2.2.2.1,(htask o).2.2.1]
    rfl
  · rw [hcount,if_neg fun hand => hlive o hand.2.1]
  · cases hclosing.symm.trans ho
  · rw [hcount,if_neg (hclosed x)]
  · rw [hcount,if_neg (hclosed x)]
  · rw [(htask x).1]
    exact iff_of_false (by decide) (hclosed x)
  · rw [(htask x).1]
    exact (htask x).2.2.2.2

theorem RunInv.initial (h : Initial s) : RunInv kind s := by
  refine ⟨Inv.initial h.manager,fun t calls ok ht => ?_,?_,fun t ht => ?_,fun t ht => ?_,?_,
    fun t ht => ?_,fun layer t ht => ?_,fun t ht => ?_,h.fault⟩
  · cases h.manager.control.symm.trans ht
  · rw [h.ran]
    exact List.nodup_nil
  · rw [h.ran] at ht
    cases ht
  · rw [h.manager.log] at ht
    cases ht
  · rw [h.calls]
    exact List.nodup_nil
  · rw [h.calls] at ht
    cases ht
  · cases (h.prevTask layer).symm.trans ht
  · rw [h.ran] at ht
    cases ht

theorem RunInv.step (h : RunInv kind s) {e : Event ι α κ} (hkept : Kept kind s e)
    (hs : step V kind s e = some s') : RunInv kind s' := by
  cases e with
  | manager e =>
    cases e with
    | done t => cases hs
    | addNotify p x follow =>
      obtain ⟨u,hu,rfl⟩ := Option.map_eq_some_iff.mp hs
      exact h.manager_step (fun _ heq => by cases heq) hu
    | addSlave o x =>
      obtain ⟨u,hu,rfl⟩ := Option.map_eq_some_iff.mp hs
      exact h.manager_step (fun _ heq => by cases heq) hu
    | flush t =>
      obtain ⟨u,hu,rfl⟩ := Option.map_eq_some_iff.mp hs
      exact h.manager_step (fun _ heq => by cases heq) hu
    | manager now a =>
      obtain ⟨u,hu,rfl⟩ := Option.map_eq_some_iff.mp hs
      exact h.manager_step (fun _ heq => by cases heq) hu
  | run t ret =>
    unfold TaskRun.step at hs
    dsimp only at hs
    split_ifs at hs with ht
    rw [← Option.some.inj hs]
    exact h.run_step hkept ht
  | call t =>
    unfold TaskRun.step at hs
    dsimp only at hs
    split_ifs at hs with ht
    rw [← Option.some.inj hs]
    exact h.call_step ht
  | removeRegion layer =>
    rw [← Option.some.inj hs]
    exact h.replaced layer

end Runs

/-- Nothing is left to do: the manager waits, and all tasks that were pushed were run, and returned
unless they are shown. -/
structure Idle (s : State ι σ κ) : Prop where
  control : s.manager.control = .pull
  fifo : s.manager.fifo = []
  ran : ∀ t, (.push,t) ∈ s.manager.log → t ∈ s.ran
  calls : s.calls = []

def Returned (s : State ι σ κ) (t : ι) : Prop :=
  (.push,t) ∈ s.manager.log ∧ ∀ layer, s.prevTask layer ≠ some t

/-- `Done()` is called once for a task that was pushed, which is finished once, and shut down,
finalised and released once with its slaves when it and all of them are. The slaves that are left
are counted. Once nothing is left to do, all that has happened. -/
structure Completed (s : State ι σ κ) : Prop where
  done : ∀ t, s.manager.log.count (.done,t) ≤ s.manager.log.count (.push,t) ∧
    s.manager.log.count (.push,t) ≤ 1
  finish : ∀ t, s.manager.log.count (.finish,t) ≤ 1 ∧ ((.finish,t) ∈ s.manager.log →
    (.push,t) ∈ s.manager.log → (.done,t) ∈ s.manager.log)
  shutdown : ∀ t, s.manager.log.count (.shutdown,t) ≤ 1 ∧ ((.shutdown,t) ∈ s.manager.log →
    (.finish,t) ∈ s.manager.log ∧ ∀ x, (s.manager.task x).master = some t →
      (.done,x) ∈ s.manager.log ∧ (.finish,x) ∈ s.manager.log)
  release : ∀ t, s.manager.log.count (.finalise,t) ≤ 1 ∧ s.manager.log.count (.release,t) ≤ 1 ∧
    ((.finalise,t) ∈ s.manager.log ∨ (.release,t) ∈ s.manager.log →
      (.shutdown,(s.manager.task t).master.getD t) ∈ s.manager.log)
  slaves : ∀ t, ∃ l : List ι, l.Nodup ∧ (s.manager.task t).slaves = l.length ∧
    ∀ x, x ∈ l ↔ (s.manager.task x).master = some t ∧ (.finish,x) ∉ s.manager.log
  fault : s.fault = false
  idle : Idle s → ∀ t, Returned s t →
    s.manager.log.count (.done,t) = 1 ∧ s.manager.log.count (.finish,t) = 1
  idleMaster : Idle s → ∀ t, (s.manager.task t).master = none → Returned s t →
    (∀ x, (s.manager.task x).master = some t → Returned s x) →
    s.manager.log.count (.shutdown,t) = 1 ∧ ∀ x, x = t ∨ (s.manager.task x).master = some t →
      s.manager.log.count (.finalise,x) = 1 ∧ s.manager.log.count (.release,x) = 1

section Completion
variable {kind : ι → Kind κ} {s : State ι σ κ}

/-- When nothing is left to do, a task that was pushed and is not shown is finished. -/
theorem RunInv.finished_of_idle (h : RunInv kind s) (hidle : Idle s) {t : ι} (ht : Returned s t) :
    Finished s.manager t := by
  have hin := hidle.ran t ht.1
  have hdone : (.done,t) ∈ s.manager.log := by
    obtain hd | hc | ⟨layer,hp⟩ := h.left t hin
    · exact hd
    · rw [hidle.calls] at hc
      cases hc
    · exact absurd hp (ht.2 layer)
  have hqueue : queue s.manager = [] := by
    unfold queue
    rw [hidle.control,hidle.fifo]
    rfl
  have hcounted := h.manager.counted t
  have hzero := h.manager.queue t
  have hpos := List.count_pos_iff.mpr hdone
  rw [hqueue] at hzero
  unfold Finished
  generalize (s.manager.task t).state = state,s.manager.log.count (.push,t) = n,
    s.manager.log.count (.done,t) = n',s.manager.log.count (.finish,t) = n'' at *
  cases hcounted with
  | new | flushed | ready | running => exact absurd hpos (Nat.lt_irrefl 0)
  | done hn => cases hzero
  | finish hn => exact .inl rfl
  | dead hn => exact .inr rfl

theorem RunInv.completed (h : RunInv kind s) : Completed s := by
  have hm := h.manager
  have hslave : ∀ t x, (s.manager.task x).master = some t → Finished s.manager x →
      (.done,x) ∈ s.manager.log ∧ (.finish,x) ∈ s.manager.log := by
    intro t x hx hfinished
    have hnew : (s.manager.task x).state ≠ .new := by
      intro hnew
      exact not_finished hnew (by decide) hfinished
    refine ⟨List.count_pos_iff.mp ?_,(hm.finished_iff x).mp hfinished⟩
    rw [hm.done_of_finished hfinished (hm.pushed t x hx hnew)]
    exact Nat.one_pos
  have hone : ∀ (P : Prop) [Decidable P], (if P then 1 else 0) ≤ 1 := fun P _ => by
    split_ifs
    · exact le_rfl
    · exact Nat.zero_le 1
  refine ⟨fun t => ⟨hm.done_le t,hm.push_le t⟩,fun t => ⟨hm.finish_le t,fun hf hp => ?_⟩,
    fun t => ⟨?_,fun hs => ?_⟩,fun t => ⟨?_,?_,fun hor => ?_⟩,fun t => ?_,h.fault,
    fun hidle t ht => ?_,fun hidle t hnone ht hall => ?_⟩
  · refine List.count_pos_iff.mp ?_
    rw [hm.done_of_finished ((hm.finished_iff t).mpr hf) hp]
    exact Nat.one_pos
  · rw [hm.shutdown]
    exact hone _
  · obtain ⟨-,hfinished,hall⟩ := (hm.shutdown_iff t).mp hs
    exact ⟨(hm.finished_iff t).mp hfinished,fun x hx => hslave t x hx (hall x hx)⟩
  · rw [hm.finalise]
    exact hone _
  · rw [hm.release]
    exact hone _
  · have hclosed : Closed s.manager t := by
      rw [← List.count_pos_iff,← List.count_pos_iff,hm.finalise,hm.release] at hor
      by_contra hnot
      rw [if_neg hnot] at hor
      exact hor.elim (Nat.lt_irrefl 0) (Nat.lt_irrefl 0)
    exact hclosed.1
  · refine ⟨(s.manager.task t).slaveTasks.filter fun x => ¬Finished s.manager x,
      (hm.nodup t).filter _,?_,fun x => ?_⟩
    · rw [← List.countP_eq_length_filter]
      exact hm.slaves t
    · rw [List.mem_filter,hm.slaveTasks,decide_eq_true_eq,hm.finished_iff]
  · have hfinished := h.finished_of_idle hidle ht
    refine ⟨hm.done_of_finished hfinished ht.1,Nat.le_antisymm (hm.finish_le t) ?_⟩
    exact List.count_pos_iff.mpr ((hm.finished_iff t).mp hfinished)
  · have hshutdown : (.shutdown,t) ∈ s.manager.log := (hm.shutdown_iff t).mpr
      ⟨hnone,h.finished_of_idle hidle ht,fun x hx => h.finished_of_idle hidle (hall x hx)⟩
    have hopen : closing s.manager = none := by
      unfold closing
      rw [hidle.control]
    refine ⟨Nat.le_antisymm ?_ (List.count_pos_iff.mpr hshutdown),fun x hx => ?_⟩
    · rw [hm.shutdown]
      exact hone _
    · have hroot : (s.manager.task x).master.getD x = t := by
        obtain rfl | hx := hx
        · rw [hnone]
          rfl
        · rw [hx]
          rfl
      have hclosed : Closed s.manager x := by
        refine ⟨hroot.symm ▸ hshutdown,fun heq => ?_⟩
        cases hopen.symm.trans heq
      rw [hm.finalise,hm.release,if_pos hclosed]
      exact ⟨rfl,rfl⟩

end Completion

/-- As long as no `Run()` of a `DisplayTask` fails, each task completes exactly once. -/
theorem completes_once (V : Methods ι σ α) (kind : ι → Kind κ) {s : State ι σ κ}
    (h : Reaches (step V kind) (Kept kind) Initial s) : Completed s :=
  RunInv.completed (h.invariant (RunInv kind) (fun _ => RunInv.initial) fun _ _ _ hinv hkept hs =>
    hinv.step hkept hs)

section Runs

def independent : Methods ℕ Unit Unit where
  setup _ _ _ := ([],true,())
  finalise _ _ := ()

def kinds (t : ℕ) : Kind ℕ := if t = 2 then .display 0 else .simple

def prepared : State ℕ Unit ℕ where
  manager := ⟨fun t => new false (t = 0) 0,[],[],0,[],.pull,(),[]⟩
  ran := []
  calls := []
  prevTask _ := none
  fault := false

theorem prepared_initial : Initial prepared :=
  ⟨⟨fun t => ⟨false,t = 0,0,rfl⟩,rfl,rfl,rfl,rfl,rfl,rfl⟩,rfl,rfl,fun _ => rfl,rfl⟩

def manage (n : ℕ) : List (Event ℕ Unit ℕ) := List.replicate n (.manager (.manager 0 ()))

theorem kept_manage (n : ℕ) : ∀ e ∈ manage n, ∀ s : State ℕ Unit ℕ, Kept kinds s e := by
  intro e he s
  rw [List.eq_of_mem_replicate he]
  trivial

/-- A master with a slave and a task for a layer, which is removed, complete. -/
theorem completed_with_slave : ∃ s, Reaches (step independent kinds) (Kept kinds) Initial s ∧
    Completed s ∧ Idle s ∧ s.manager.log = [(.push,0),(.push,1),(.push,2),(.done,1),(.done,0),
      (.finish,1),(.finish,0),(.shutdown,0),(.finalise,0),(.finalise,1),(.release,1),(.release,0),
      (.done,2),(.finish,2),(.shutdown,2),(.finalise,2),(.release,2)] := by
  have h0 : Reaches (step independent kinds) (Kept kinds) Initial _ := .init prepared_initial
  have h1 : Reaches (step independent kinds) (Kept kinds) Initial _ :=
    .step (.manager (.addSlave 0 1)) h0 trivial rfl
  have h2 : Reaches (step independent kinds) (Kept kinds) Initial _ :=
    .step (.manager (.flush 0)) h1 trivial rfl
  have h3 : Reaches (step independent kinds) (Kept kinds) Initial _ :=
    .step (.manager (.flush 2)) h2 trivial rfl
  have h4 : Reaches (step independent kinds) (Kept kinds) Initial _ :=
    h3.exec_of (kept_manage 14) rfl
  have h5 : Reaches (step independent kinds) (Kept kinds) Initial _ :=
    .step (.run 0 .ok) h4 (fun _ _ => rfl) rfl
  have h6 : Reaches (step independent kinds) (Kept kinds) Initial _ :=
    .step (.run 1 .ok) h5 (fun _ _ => rfl) rfl
  have h7 : Reaches (step independent kinds) (Kept kinds) Initial _ :=
    .step (.run 2 .ok) h6 (fun _ _ => rfl) rfl
  have h8 : Reaches (step independent kinds) (Kept kinds) Initial _ :=
    .step (.call 1) h7 trivial rfl
  have h9 : Reaches (step independent kinds) (Kept kinds) Initial _ :=
    .step (.call 0) h8 trivial rfl
  have h10 : Reaches (step independent kinds) (Kept kinds) Initial _ :=
    h9.exec_of (kept_manage 10) rfl
  have h11 : Reaches (step independent kinds) (Kept kinds) Initial _ :=
    .step (.removeRegion 0) h10 trivial rfl
  have h12 : Reaches (step independent kinds) (Kept kinds) Initial _ :=
    .step (.call 2) h11 trivial rfl
  have h13 : Reaches (step independent kinds) (Kept kinds) Initial _ :=
    h12.exec_of (kept_manage 6) rfl
  refine ⟨_,h13,completes_once independent kinds h13,⟨rfl,rfl,fun t ht => ?_,rfl⟩,rfl⟩
  have hpushed : (Action.push,t) ∈ [(Action.push,0),(.push,1),(.push,2),(.done,1),(.done,0),
      (.finish,1),(.finish,0),(.shutdown,0),(.finalise,0),(.finalise,1),(.release,1),(.release,0),
      (.done,2),(.finish,2),(.shutdown,2),(.finalise,2),(.release,2)] := ht
  have ht : t = 0 ∨ t = 1 ∨ t = 2 := by simpa using hpushed
  change t ∈ [2,1,0]
  obtain rfl | rfl | rfl := ht <;> decide

/-- A `DisplayTask` that fails is returned by its `Run()` and by the loop of the thread, so that it
is handed to the manager twice, or accessed after it was deleted. -/
theorem display_done_twice :
    (∃ s, Reaches (step independent kinds) (fun _ _ => True) Initial s ∧ ¬ Completed s ∧
      s.manager.log = [(.push,2),(.done,2),(.done,2)] ∧ s.manager.fifo = [2,2]) ∧
    ∃ s, Reaches (step independent kinds) (fun _ _ => True) Initial s ∧ ¬ Completed s ∧
      s.manager.log = [(.push,2),(.done,2),(.finish,2),(.shutdown,2),(.finalise,2),(.release,2)] ∧
      s.fault = true := by
  have hinit : Reaches (step independent kinds) (fun _ _ => True) Initial prepared :=
    .init prepared_initial
  constructor
  · have h := hinit.exec (fun _ _ => trivial) (show exec (step independent kinds) prepared
      ([.manager (.flush 2)]++manage 7++[.run 2 .suspended,.call 2,.call 2]) = some _ from rfl)
    refine ⟨_,h,fun hcompleted => ?_,rfl,rfl⟩
    exact absurd (hcompleted.done 2).1 (by decide)
  · have h := hinit.exec (fun _ _ => trivial) (show exec (step independent kinds) prepared
      ([.manager (.flush 2)]++manage 7++[.run 2 .suspended,.call 2]++manage 6++[.call 2]) =
        some _ from rfl)
    exact ⟨_,h,fun hcompleted => Bool.noConfusion hcompleted.fault,rfl,rfl⟩

end Runs

end DirectFB.TaskRun
