import DirectFB.Reaches
import DirectFB.Types

/-! Tasks and the thread that manages them. The manager makes one step at a time, what
it has yet to do being on a stack, and other threads come in between. -/
set_option linter.unusedSectionVars false
namespace DirectFB

/-- The fields of `Task`, with the chain of `next_slave` as a list. -/
structure Task (ι : Type*) where
  state : TaskState
  emitNotifies : Bool
  needSlavePush : Bool
  waitingTimedEmit : Bool
  refs : ℕ
  notifies : List (ι × TaskState)
  blockCount : ℕ
  slaves : ℕ
  master : Option ι
  slaveTasks : List ι
  tsEmit : ℤ

namespace TaskManager
open Transition

/-- What the manager has yet to do for tasks that are emitted: `checkEmit()`, or the loop of
`notifyAll( state )` from an index on. -/
inductive Frame (ι : Type*)
  | checkEmit (task : ι)
  | notifyAll (task : ι) (state : TaskState) (i : ℕ)
  deriving DecidableEq

/-- Where `managerLoop` goes on when nothing is left on the stack. `calls` are the calls of
`AddNotify` that a `Setup()` has yet to make. -/
inductive Control (ι : Type*)
  | pull
  | handle (task : ι)
  | setup (task : ι) (calls : List (ι × Bool)) (ok : Bool)
  | shutdown (task : ι)
  | handleTimedEmits
  | timedLoop (now : ℤ)
  deriving DecidableEq

/-- What is kept of the past: who called what for a task. -/
inductive Action
  | push | done | finish | shutdown | finalise | release
  deriving DecidableEq

/-- The virtual methods of the tasks, on data of their own. `Setup()` may be influenced
from outside, and answers with its calls of `task->AddNotify( this, follow )`. -/
structure Methods (ι σ α : Type*) where
  setup : σ → ι → α → List (ι × Bool) × Bool × σ
  finalise : σ → ι → σ

/-- The tasks, the static members of `TaskManager`, and the data of the methods. -/
structure State (ι σ : Type*) where
  task : ι → Task ι
  fifo : List ι
  timedEmits : List ι
  pullTimeout : ℤ
  stack : List (Frame ι)
  control : Control ι
  data : σ
  log : List (Action × ι)

variable {ι σ α : Type*} [DecidableEq ι]

def modify (s : State ι σ) (t : ι) (f : Task ι → Task ι) : State ι σ :=
  {s with task := Function.update s.task t (f (s.task t))}

def setState (s : State ι σ) (t : ι) (state : TaskState) : State ι σ :=
  modify s t fun task => {task with state := state}

def record (s : State ι σ) (action : Action) (t : ι) : State ι σ :=
  {s with log := s.log++[(action,t)]}

/-- A decrement of an `unsigned int`. -/
def decrement (n : ℕ) : ℕ := if n = 0 then 2^32-1 else n-1

/-- `TaskManager::pushTask`. -/
def pushTask (s : State ι σ) (t : ι) : State ι σ := {s with fifo := s.fifo++[t]}

/-- The end of `Task::AddNotify`. -/
def addEntry (s : State ι σ) (p notified : ι) (kind : TaskState) : State ι σ :=
  let s := modify s p fun task => {task with notifies := task.notifies++[(notified,kind)]}
  modify s notified fun task => {task with blockCount := task.blockCount+1}

/-- `Task::AddNotify`, called for `p`. -/
def addNotify (s : State ι σ) (p notified : ι) (follow : Bool) : State ι σ :=
  if notified = p then s
  else if (s.task p).state = .flushed then s
  else if follow ∧ (s.task p).state ∈ [.running,.done,.finish] then s
  else if (s.task p).state ∈ [.running,.done] ∧ (s.task p).emitNotifies then s
  else if (s.task p).state = .finish ∧ (s.task p).slaves = 0 then s
  else addEntry s p notified (if follow then .running else .finish)

/-- `Task::AddSlave`, called for `m`. -/
def addSlave (s : State ι σ) (m slave : ι) : State ι σ :=
  let s := modify s slave fun task => {task with master := some m}
  modify s m fun task => {task with
    slaves := task.slaves+1
    slaveTasks := slave::task.slaveTasks}

/-- `Task::Flush`. -/
def flush (s : State ι σ) (t : ι) : State ι σ := pushTask (setState s t .flushed) t

/-- `Task::Done`. -/
def done (s : State ι σ) (t : ι) : State ι σ :=
  record (pushTask (setState s t .done) t) .done t

/-- `Push()` of a task in state `TASK_RUNNING`, which hands it to some runner. -/
def push (s : State ι σ) (t : ι) : State ι σ := record (setState s t .running) .push t

/-- `Task::emit`, with the two calls of `notifyAll` at its end on the stack. -/
def emit (s : State ι σ) (t : ι) : State ι σ :=
  let s := push s t
  let s := if (s.task t).needSlavePush then (s.task t).slaveTasks.foldl push s else s
  let notifyAll := if (s.task t).emitNotifies then [.notifyAll t .running 0,.notifyAll t .finish 0]
    else [.notifyAll t .running 0]
  {s with stack := notifyAll++s.stack}

/-- `Task::checkEmit`. -/
def checkEmit (s : State ι σ) (t : ι) : State ι σ :=
  if (s.task t).state = .ready ∧ (s.task t).blockCount = 0 ∧ !(s.task t).waitingTimedEmit then
    emit s t
  else s

/-- `--block_count`. -/
def unblock (s : State ι σ) (t : ι) : State ι σ :=
  modify s t fun task => {task with blockCount := decrement task.blockCount}

/-- `Task::handleNotify`, with a call of `checkEmit` at its end on the stack. -/
def handleNotify (s : State ι σ) (t : ι) : State ι σ :=
  if (s.task t).state = .ready then
    let s := unblock s t
    if (s.task t).blockCount = 0 then {s with stack := .checkEmit t::s.stack} else s
  else s

/-- `notifies.erase( it )`. -/
def eraseEntry (s : State ι σ) (t : ι) (i : ℕ) : State ι σ :=
  modify s t fun task => {task with notifies := task.notifies.eraseIdx i}

/-- One round of the loop in `Task::notifyAll`. The entry is erased before the `checkEmit` of
the notified task, which does not see it, and not after. -/
def notifyAll (s : State ι σ) (t : ι) (state : TaskState) (i : ℕ) : State ι σ :=
  match (s.task t).notifies[i]? with
  | none => s
  | some (notified,kind) =>
    if kind = state then
      handleNotify {eraseEntry s t i with stack := .notifyAll t state i::s.stack} notified
    else {s with stack := .notifyAll t state (i+1)::s.stack}

def runFrame (s : State ι σ) : Frame ι → State ι σ
  | .checkEmit t => checkEmit s t
  | .notifyAll t state i => notifyAll s t state i

/-- The part of `Task::finish` under `if (shutdown)`, up to the end of `notifyAll`. -/
def beginShutdown (s : State ι σ) (t : ι) : State ι σ :=
  {record s .shutdown t with
    stack := .notifyAll t .finish 0::s.stack
    control := .shutdown t}

/-- The beginning of `Task::finish`. -/
def beginFinish (s : State ι σ) (t : ι) : State ι σ :=
  record (setState {s with control := .handleTimedEmits} t .finish) .finish t

/-- `--(master->slaves)`. -/
def countSlave (s : State ι σ) (m : ι) : State ι σ :=
  modify s m fun task => {task with slaves := decrement task.slaves}

/-- `Task::finish`, with what `handleTask` makes of its error. -/
def finish (s : State ι σ) (t : ι) : State ι σ :=
  if (s.task t).state = .done then
    let s := beginFinish s t
    match (s.task t).master with
    | some m =>
      let s := countSlave s m
      if (s.task m).slaves = 0 ∧ (s.task m).state = .finish then beginShutdown s m else s
    | none => if (s.task t).slaves ≠ 0 then s else beginShutdown s t
  else setState {s with control := .handleTimedEmits} t .invalid

/-- `Finalise()`, which the classes leave at once in a wrong state. -/
def finalise (V : Methods ι σ α) (s : State ι σ) (t : ι) : State ι σ :=
  let s := record s .finalise t
  if (s.task t).state = .finish then {s with data := V.finalise s.data t} else s

/-- `Task::Release`, called by the manager, which deletes the task without references. -/
def release (s : State ι σ) (t : ι) : State ι σ :=
  let s := modify (record s .release t) t fun task => {task with refs := decrement task.refs}
  if (s.task t).refs = 0 then setState s t .dead else s

/-- The rest of `Task::finish`, for the slaves and at last the task itself. -/
def shutdown (V : Methods ι σ α) (s : State ι σ) (t : ι) : State ι σ :=
  let s := finalise V {s with control := .handleTimedEmits} t
  release ((s.task t).slaveTasks.foldl (fun s slave => release (finalise V s slave) slave) s) t

/-- Inserts into `timed_emits`, a set ordered by the time stamps. -/
def insertTimed (tsEmit : ι → ℤ) (t : ι) : List ι → List ι
  | [] => [t]
  | x::l =>
    if tsEmit t < tsEmit x then t::x::l
    else if tsEmit x < tsEmit t then x::insertTimed tsEmit t l
    else x::l

/-- The end of `Task::Setup`. -/
def setupReady (s : State ι σ) (t : ι) : State ι σ :=
  {setState s t .ready with control := .handleTimedEmits}

/-- The branch of `TaskManager::handleTask` for a task that is to be emitted later. -/
def waitTimedEmit (s : State ι σ) (t : ι) : State ι σ :=
  {modify s t fun task => {task with waitingTimedEmit := true} with
    timedEmits := insertTimed (fun x => (s.task x).tsEmit) t s.timedEmits
    pullTimeout :=
      if (s.task t).tsEmit < s.pullTimeout ∨ s.pullTimeout = 0 then (s.task t).tsEmit
      else s.pullTimeout}

/-- `TaskManager::handleTask` after the calls of a `Setup()`. -/
def setupDone (s : State ι σ) (t : ι) (ok : Bool) (now : ℤ) : State ι σ :=
  if ok then
    if (s.task t).tsEmit ≠ 0 ∧ now < (s.task t).tsEmit then waitTimedEmit (setupReady s t) t
    else {setupReady s t with stack := [.checkEmit t]}
  else finish (setState s t .done) t

/-- `TaskManager::handleTask` up to the `Setup()` of a task. -/
def handleTask (V : Methods ι σ α) (s : State ι σ) (t : ι) (a : α) : State ι σ :=
  match (s.task t).state with
  | .flushed =>
    let r := V.setup s.data t a
    {s with
      control := .setup t r.1 r.2.1
      data := r.2.2}
  | .ready => {s with
      stack := [.checkEmit t]
      control := .handleTimedEmits}
  | .done => finish s t
  | _ => {s with control := .handleTimedEmits}

/-- `D_FLAGS_CLEAR( task->flags, TASK_FLAG_WAITING_TIMED_EMIT )`. -/
def clearWaiting (s : State ι σ) (t : ι) : State ι σ :=
  modify s t fun task => {task with waitingTimedEmit := false}

/-- One round of the loop in `TaskManager::handleTimedEmits`. The task is erased from the
set before its `checkEmit`, which does not look there, and not after. -/
def timedLoop (s : State ι σ) (now : ℤ) : State ι σ :=
  match s.timedEmits with
  | [] => {s with
      pullTimeout := 0
      control := .pull}
  | t::timedEmits =>
    if now < (s.task t).tsEmit then
      {s with
        pullTimeout := (s.task t).tsEmit
        control := .pull}
    else
      {clearWaiting s t with
        timedEmits := timedEmits
        stack := [.checkEmit t]}

/-- A step of the manager thread, which may look at the clock and be influenced from
outside; `none` when it waits for a task. -/
def manage (V : Methods ι σ α) (s : State ι σ) (now : ℤ) (a : α) : Option (State ι σ) :=
  match s.stack with
  | frame::stack => some (runFrame {s with stack := stack} frame)
  | [] =>
    match s.control with
    | .pull =>
      if s.pullTimeout ≠ 0 ∧ s.pullTimeout ≤ now then some {s with control := .handleTimedEmits}
      else match s.fifo with
        | [] => none
        | t::fifo => some {s with
            fifo := fifo
            control := .handle t}
    | .handle t => some (handleTask V s t a)
    | .setup t ((p,follow)::calls) ok =>
      some {addNotify s p t follow with control := .setup t calls ok}
    | .setup t [] ok => some (setupDone s t ok now)
    | .shutdown t => some (shutdown V s t)
    | .handleTimedEmits => some {s with control := .timedLoop now}
    | .timedLoop now => some (timedLoop s now)

inductive Event (ι α : Type*)
  | addNotify (p notified : ι) (follow : Bool)
  | addSlave (m slave : ι)
  | flush (t : ι)
  | done (t : ι)
  | manager (now : ℤ) (a : α)

/-- A step of any thread. Other threads add to tasks that are new and flush those; slaves are
neither flushed nor do they have slaves. -/
def step (V : Methods ι σ α) (s : State ι σ) : Event ι α → Option (State ι σ)
  | .addNotify p notified follow =>
    if (s.task p).state = .new ∧ (s.task notified).state = .new then
      some (addNotify s p notified follow)
    else none
  | .addSlave m slave =>
    if (s.task m).state ∈ [.new,.running] ∧ (s.task m).master = none ∧
        (s.task slave).state = .new ∧ (s.task slave).master = none ∧
        (s.task slave).slaves = 0 ∧ m ≠ slave then
      some (addSlave s m slave)
    else none
  | .flush t =>
    if (s.task t).state = .new ∧ (s.task t).master = none then some (flush s t) else none
  | .done t => if (s.task t).state ≠ .dead then some (done s t) else none
  | .manager now a => manage V s now a

/-- `Task::Task`, for a task with the given flags and time stamp. -/
def new (emitNotifies needSlavePush : Bool) (tsEmit : ℤ) : Task ι where
  state := .new
  emitNotifies := emitNotifies
  needSlavePush := needSlavePush
  waitingTimedEmit := false
  refs := 1
  notifies := []
  blockCount := 0
  slaves := 0
  master := none
  slaveTasks := []
  tsEmit := tsEmit

structure Initial (s : State ι σ) : Prop where
  task : ∀ t, ∃ emitNotifies needSlavePush tsEmit, s.task t = new emitNotifies needSlavePush tsEmit
  fifo : s.fifo = []
  timedEmits : s.timedEmits = []
  pullTimeout : s.pullTimeout = 0
  stack : s.stack = []
  control : s.control = .pull
  log : s.log = []

section Fields

theorem modify_task (s : State ι σ) (t x : ι) (f : Task ι → Task ι) :
    (modify s t f).task x = if x = t then f (s.task x) else s.task x := by
  by_cases hx : x = t <;> simp [modify,hx]

@[simp] theorem modify_fifo (s : State ι σ) (t : ι) (f : Task ι → Task ι) :
    (modify s t f).fifo = s.fifo := rfl

@[simp] theorem modify_timedEmits (s : State ι σ) (t : ι) (f : Task ι → Task ι) :
    (modify s t f).timedEmits = s.timedEmits := rfl

@[simp] theorem modify_pullTimeout (s : State ι σ) (t : ι) (f : Task ι → Task ι) :
    (modify s t f).pullTimeout = s.pullTimeout := rfl

@[simp] theorem modify_stack (s : State ι σ) (t : ι) (f : Task ι → Task ι) :
    (modify s t f).stack = s.stack := rfl

@[simp] theorem modify_control (s : State ι σ) (t : ι) (f : Task ι → Task ι) :
    (modify s t f).control = s.control := rfl

@[simp] theorem modify_data (s : State ι σ) (t : ι) (f : Task ι → Task ι) :
    (modify s t f).data = s.data := rfl

@[simp] theorem modify_log (s : State ι σ) (t : ι) (f : Task ι → Task ι) :
    (modify s t f).log = s.log := rfl

/-- A field that `f` keeps is kept for every task. -/
theorem modify_keeps {β : Type*} (g : Task ι → β) (s : State ι σ) (t x : ι)
    {f : Task ι → Task ι} (h : ∀ task, g (f task) = g task) :
    g ((modify s t f).task x) = g (s.task x) := by
  rw [modify_task]
  split_ifs
  · exact h _
  · rfl

theorem setState_state (s : State ι σ) (t x : ι) (state : TaskState) :
    ((setState s t state).task x).state = if x = t then state else (s.task x).state := by
  rw [setState,modify_task]
  split_ifs <;> rfl

end Fields

/-- `AddNotify` adds an entry unless that would be too late, or is not needed. -/
theorem addNotify_cases (s : State ι σ) (p notified : ι) (follow : Bool) :
    (addNotify s p notified follow = s ∧ (notified = p ∨ (s.task p).state = .flushed ∨
      (follow ∧ (s.task p).state ∈ [.running,.done,.finish]) ∨
      ((s.task p).state ∈ [.running,.done] ∧ (s.task p).emitNotifies) ∨
      ((s.task p).state = .finish ∧ (s.task p).slaves = 0))) ∨
    (notified ≠ p ∧ (s.task p).state ≠ .flushed ∧
      ¬(follow ∧ (s.task p).state ∈ [.running,.done,.finish]) ∧
      ¬((s.task p).state ∈ [.running,.done] ∧ (s.task p).emitNotifies) ∧
      ¬((s.task p).state = .finish ∧ (s.task p).slaves = 0) ∧
      addNotify s p notified follow =
        addEntry s p notified (if follow then .running else .finish)) := by
  rw [addNotify]
  by_cases h₁ : notified = p
  · exact .inl ⟨if_pos h₁,.inl h₁⟩
  rw [if_neg h₁]
  by_cases h₂ : (s.task p).state = .flushed
  · exact .inl ⟨if_pos h₂,.inr (.inl h₂)⟩
  rw [if_neg h₂]
  by_cases h₃ : follow ∧ (s.task p).state ∈ [.running,.done,.finish]
  · exact .inl ⟨if_pos h₃,.inr (.inr (.inl h₃))⟩
  rw [if_neg h₃]
  by_cases h₄ : (s.task p).state ∈ [.running,.done] ∧ (s.task p).emitNotifies
  · exact .inl ⟨if_pos h₄,.inr (.inr (.inr (.inl h₄)))⟩
  rw [if_neg h₄]
  by_cases h₅ : (s.task p).state = .finish ∧ (s.task p).slaves = 0
  · exact .inl ⟨if_pos h₅,.inr (.inr (.inr (.inr h₅)))⟩
  rw [if_neg h₅]
  exact .inr ⟨h₁,h₂,h₃,h₄,h₅,rfl⟩

/-- All that a step can do. -/
inductive Move (V : Methods ι σ α) (s : State ι σ) : Event ι α → State ι σ → Prop
  | addNotify (p x : ι) (follow : Bool) : (s.task p).state = .new → (s.task x).state = .new →
      Move V s (.addNotify p x follow) (addNotify s p x follow)
  | addSlave (m x : ι) : (s.task m).state = .new ∨ (s.task m).state = .running →
      (s.task m).master = none → (s.task x).state = .new → (s.task x).master = none →
      (s.task x).slaves = 0 → m ≠ x → Move V s (.addSlave m x) (addSlave s m x)
  | flush (t : ι) : (s.task t).state = .new → (s.task t).master = none →
      Move V s (.flush t) (flush s t)
  | done (t : ι) : (s.task t).state ≠ .dead → Move V s (.done t) (done s t)
  | emit {now : ℤ} {a : α} (t : ι) (stack : List (Frame ι)) : s.stack = .checkEmit t::stack →
      (s.task t).state = .ready → (s.task t).blockCount = 0 →
      (s.task t).waitingTimedEmit = false →
      Move V s (.manager now a) (emit {s with stack := stack} t)
  | noEmit {now : ℤ} {a : α} (t : ι) (stack : List (Frame ι)) : s.stack = .checkEmit t::stack →
      ¬((s.task t).state = .ready ∧ (s.task t).blockCount = 0 ∧
        (s.task t).waitingTimedEmit = false) →
      Move V s (.manager now a) {s with stack := stack}
  | notified {now : ℤ} {a : α} (t : ι) (state : TaskState) (i : ℕ) (stack : List (Frame ι)) :
      s.stack = .notifyAll t state i::stack → (s.task t).notifies[i]? = none →
      Move V s (.manager now a) {s with stack := stack}
  | skip {now : ℤ} {a : α} (t : ι) (state : TaskState) (i : ℕ) (stack : List (Frame ι)) (x : ι)
      (kind : TaskState) : s.stack = .notifyAll t state i::stack →
      (s.task t).notifies[i]? = some (x,kind) → kind ≠ state →
      Move V s (.manager now a) {s with stack := .notifyAll t state (i+1)::stack}
  | notify {now : ℤ} {a : α} (t : ι) (state : TaskState) (i : ℕ) (stack : List (Frame ι)) (x : ι) :
      s.stack = .notifyAll t state i::stack → (s.task t).notifies[i]? = some (x,state) →
      Move V s (.manager now a)
        (handleNotify {eraseEntry s t i with stack := .notifyAll t state i::stack} x)
  | timeout {now : ℤ} {a : α} : s.stack = [] → s.control = .pull →
      Move V s (.manager now a) {s with control := .handleTimedEmits}
  | pull {now : ℤ} {a : α} (t : ι) (fifo : List ι) : s.stack = [] → s.control = .pull →
      s.fifo = t::fifo → Move V s (.manager now a) {s with
        fifo := fifo
        control := .handle t}
  | setup {now : ℤ} {a : α} (t : ι) : s.stack = [] → s.control = .handle t →
      (s.task t).state = .flushed → Move V s (.manager now a) {s with
        control := .setup t (V.setup s.data t a).1 (V.setup s.data t a).2.1
        data := (V.setup s.data t a).2.2}
  | handleReady {now : ℤ} {a : α} (t : ι) : s.stack = [] → s.control = .handle t →
      (s.task t).state = .ready → Move V s (.manager now a) {s with
        stack := [.checkEmit t]
        control := .handleTimedEmits}
  | finish {now : ℤ} {a : α} (t : ι) : s.stack = [] → s.control = .handle t →
      (s.task t).state = .done → Move V s (.manager now a) (finish s t)
  | ignore {now : ℤ} {a : α} (t : ι) : s.stack = [] → s.control = .handle t →
      (s.task t).state ∉ [.flushed,.ready,.done] →
      Move V s (.manager now a) {s with control := .handleTimedEmits}
  | call {now : ℤ} {a : α} (t p : ι) (follow : Bool) (calls : List (ι × Bool)) (ok : Bool) :
      s.stack = [] → s.control = .setup t ((p,follow)::calls) ok →
      Move V s (.manager now a) {addNotify s p t follow with control := .setup t calls ok}
  | ready {now : ℤ} {a : α} (t : ι) : s.stack = [] → s.control = .setup t [] true →
      ¬((s.task t).tsEmit ≠ 0 ∧ now < (s.task t).tsEmit) →
      Move V s (.manager now a) {setupReady s t with stack := [.checkEmit t]}
  | wait {now : ℤ} {a : α} (t : ι) : s.stack = [] → s.control = .setup t [] true →
      (s.task t).tsEmit ≠ 0 → now < (s.task t).tsEmit →
      Move V s (.manager now a) (waitTimedEmit (setupReady s t) t)
  | fail {now : ℤ} {a : α} (t : ι) : s.stack = [] → s.control = .setup t [] false →
      Move V s (.manager now a) (TaskManager.finish (setState s t .done) t)
  | shutdown {now : ℤ} {a : α} (t : ι) : s.stack = [] → s.control = .shutdown t →
      Move V s (.manager now a) (shutdown V s t)
  | handleTimedEmits {now : ℤ} {a : α} : s.stack = [] → s.control = .handleTimedEmits →
      Move V s (.manager now a) {s with control := .timedLoop now}
  | timedEnd {time now : ℤ} {a : α} : s.stack = [] → s.control = .timedLoop now →
      s.timedEmits = [] → Move V s (.manager time a) {s with
        pullTimeout := 0
        control := .pull}
  | timedNext {time now : ℤ} {a : α} (t : ι) (timedEmits : List ι) : s.stack = [] →
      s.control = .timedLoop now → s.timedEmits = t::timedEmits → now < (s.task t).tsEmit →
      Move V s (.manager time a) {s with
        pullTimeout := (s.task t).tsEmit
        control := .pull}
  | timedDue {time now : ℤ} {a : α} (t : ι) (timedEmits : List ι) : s.stack = [] →
      s.control = .timedLoop now → s.timedEmits = t::timedEmits → ¬now < (s.task t).tsEmit →
      Move V s (.manager time a) {clearWaiting s t with
        timedEmits := timedEmits
        stack := [.checkEmit t]}

/-- Each step is a move. -/
theorem move_of_step {V : Methods ι σ α} {s u : State ι σ} {e : Event ι α}
    (h : step V s e = some u) : Move V s e u := by
  cases e with
  | addNotify p x follow =>
    simp only [step] at h
    split_ifs at h with hnew
    exact Option.some.inj h ▸ .addNotify p x follow hnew.1 hnew.2
  | addSlave m x =>
    simp only [step] at h
    split_ifs at h with hok
    obtain ⟨hm,hmm,hx,hxm,hxs,hne⟩ := hok
    exact Option.some.inj h ▸ .addSlave m x (by simpa using hm) hmm hx hxm hxs hne
  | flush t =>
    simp only [step] at h
    split_ifs at h with hnew
    exact Option.some.inj h ▸ .flush t hnew.1 hnew.2
  | done t =>
    simp only [step] at h
    split_ifs at h with hdead
    exact Option.some.inj h ▸ .done t hdead
  | manager now a =>
    simp only [step,manage] at h
    cases hstack : s.stack with
    | cons frame stack =>
      rw [hstack] at h
      obtain rfl := Option.some.inj h
      cases frame with
      | checkEmit t =>
        simp only [runFrame,checkEmit]
        split_ifs with hok
        · exact .emit t stack hstack hok.1 hok.2.1 (by simpa using hok.2.2)
        · exact .noEmit t stack hstack (by simpa using hok)
      | notifyAll t state i =>
        simp only [runFrame,TaskManager.notifyAll]
        split
        · rename_i hnone
          exact .notified t state i stack hstack hnone
        · rename_i x kind hsome
          split_ifs with hkind
          · exact .notify t state i stack x hstack (hkind ▸ hsome)
          · exact .skip t state i stack x kind hstack hsome hkind
    | nil =>
      rw [hstack] at h
      cases hcontrol : s.control with
      | pull =>
        simp only [hcontrol] at h
        split_ifs at h
        · obtain rfl := Option.some.inj h
          rw [← hstack]
          exact .timeout hstack hcontrol
        · cases hfifo : s.fifo with
          | nil => simp [hfifo] at h
          | cons t fifo =>
            simp only [hfifo] at h
            obtain rfl := Option.some.inj h
            rw [← hstack]
            exact .pull t fifo hstack hcontrol hfifo
      | handle t =>
        simp only [hcontrol] at h
        obtain rfl := Option.some.inj h
        rw [handleTask]
        split
        · rename_i hs
          exact .setup t hstack hcontrol hs
        · rename_i hs
          exact .handleReady t hstack hcontrol hs
        · rename_i hs
          exact .finish t hstack hcontrol hs
        · rename_i hf hr hd
          refine .ignore t hstack hcontrol fun hmem => ?_
          simp only [List.mem_cons,List.not_mem_nil,or_false] at hmem
          obtain hmem | hmem | hmem := hmem
          · exact hf hmem
          · exact hr hmem
          · exact hd hmem
      | setup t calls ok =>
        simp only [hcontrol] at h
        cases calls with
        | cons call calls =>
          obtain rfl := Option.some.inj h
          exact .call t call.1 call.2 calls ok hstack hcontrol
        | nil =>
          obtain rfl := Option.some.inj h
          cases ok with
          | false => exact .fail t hstack hcontrol
          | true =>
            simp only [setupDone,if_true]
            split_ifs with hwait
            · exact .wait t hstack hcontrol hwait.1 hwait.2
            · exact .ready t hstack hcontrol hwait
      | shutdown t =>
        simp only [hcontrol] at h
        exact Option.some.inj h ▸ .shutdown t hstack hcontrol
      | handleTimedEmits =>
        simp only [hcontrol] at h
        obtain rfl := Option.some.inj h
        rw [← hstack]
        exact .handleTimedEmits hstack hcontrol
      | timedLoop time =>
        simp only [hcontrol] at h
        obtain rfl := Option.some.inj h
        simp only [timedLoop]
        split
        · rename_i hnil
          exact .timedEnd hstack hcontrol hnil
        · rename_i t timedEmits hcons
          split_ifs with hnow
          · exact .timedNext t timedEmits hstack hcontrol hcons hnow
          · exact .timedDue t timedEmits hstack hcontrol hcons hnow

theorem beginFinish_task (s : State ι σ) (t x : ι) : (beginFinish s t).task x =
      if x = t then {s.task x with state := .finish} else s.task x := by
  simp only [beginFinish,record,setState,modify_task]

/-- All that finishing a task can do: the task may be in a wrong state, the last slave
running of a finished master, some other slave, alone, or a master with slaves running. -/
theorem finish_cases (s : State ι σ) (t : ι) : ((s.task t).state ≠ .done ∧
      finish s t = setState {s with control := .handleTimedEmits} t .invalid) ∨
    ((s.task t).state = .done ∧ ∃ m, (s.task t).master = some m ∧
      ((countSlave (beginFinish s t) m).task m).slaves = 0 ∧
      ((countSlave (beginFinish s t) m).task m).state = .finish ∧
      finish s t = beginShutdown (countSlave (beginFinish s t) m) m) ∨
    ((s.task t).state = .done ∧ ∃ m, (s.task t).master = some m ∧
      ¬(((countSlave (beginFinish s t) m).task m).slaves = 0 ∧
        ((countSlave (beginFinish s t) m).task m).state = .finish) ∧
      finish s t = countSlave (beginFinish s t) m) ∨
    ((s.task t).state = .done ∧ (s.task t).master = none ∧ (s.task t).slaves = 0 ∧
      finish s t = beginShutdown (beginFinish s t) t) ∨
    ((s.task t).state = .done ∧ (s.task t).master = none ∧ (s.task t).slaves ≠ 0 ∧
      finish s t = beginFinish s t) := by
  have hslaves : ((beginFinish s t).task t).slaves = (s.task t).slaves := by
    rw [beginFinish_task,if_pos rfl]
  have hmaster : ((beginFinish s t).task t).master = (s.task t).master := by
    rw [beginFinish_task,if_pos rfl]
  by_cases hdone : (s.task t).state = .done
  · simp only [finish,if_pos hdone,hmaster,hslaves]
    cases hm : (s.task t).master with
    | none =>
      by_cases hzero : (s.task t).slaves = 0
      · simp [hdone,hzero]
      · simp [hdone,hzero]
    | some m =>
      by_cases hlast : ((countSlave (beginFinish s t) m).task m).slaves = 0 ∧
          ((countSlave (beginFinish s t) m).task m).state = .finish
      · exact .inr (.inl ⟨hdone,m,rfl,hlast.1,hlast.2,if_pos hlast⟩)
      · exact .inr (.inr (.inl ⟨hdone,m,rfl,hlast,if_neg hlast⟩))
  · exact .inl ⟨hdone,if_neg hdone⟩

section Drain

def managerEvents (inputs : ℕ → ℤ × α) : ℕ → List (Event ι α)
  | 0 => []
  | n+1 => .manager (inputs 0).1 (inputs 0).2::managerEvents (fun i => inputs (i+1)) n

def frameCost (task : ι → Task ι) : Frame ι → ℕ
  | .checkEmit _ => 1
  | .notifyAll t _ i => 2*((task t).notifies.length-i)+1

def readyCost (task : ι → Task ι) (t : ι) : ℕ :=
  if (task t).state = .ready then 4*(task t).notifies.length+2 else 0

def stackCost [Fintype ι] (s : State ι σ) : ℕ :=
  ∑ t, readyCost s.task t+(s.stack.map (frameCost s.task)).sum

def Cheaper (u s : ι → Task ι) : Prop :=
  ∀ t, (u t).notifies.length ≤ (s t).notifies.length ∧ ((u t).state = .ready → (s t).state = .ready)

theorem Cheaper.refl (s : ι → Task ι) : Cheaper s s := fun _ => ⟨le_rfl,id⟩

theorem Cheaper.trans {s t u : ι → Task ι} (h : Cheaper u t) (h' : Cheaper t s) : Cheaper u s :=
  fun x => ⟨(h x).1.trans (h' x).1,fun hr => (h' x).2 ((h x).2 hr)⟩

theorem Cheaper.readyCost_le {u s : ι → Task ι} (h : Cheaper u s) (t : ι) :
    readyCost u t ≤ readyCost s t := by
  obtain ⟨hlen,hready⟩ := h t
  simp only [readyCost]
  split_ifs with hu hs
  · omega
  · exact absurd (hready hu) hs
  · exact Nat.zero_le _
  · exact le_rfl

theorem Cheaper.frameCost_le {u s : ι → Task ι} (h : Cheaper u s) (l : List (Frame ι)) :
    (l.map (frameCost u)).sum ≤ (l.map (frameCost s)).sum := by
  refine List.sum_le_sum fun frame _ => ?_
  cases frame with
  | checkEmit t => exact le_rfl
  | notifyAll t state i =>
    have hlen := (h t).1
    simp only [frameCost]
    omega

theorem Cheaper.sum_le [Fintype ι] {u s : ι → Task ι} (h : Cheaper u s) :
    ∑ t, readyCost u t ≤ ∑ t, readyCost s t :=
  Finset.sum_le_sum fun t _ => h.readyCost_le t

theorem Cheaper.sum_add_le [Fintype ι] {u s : ι → Task ι} (h : Cheaper u s) {t : ι}
    (ht : (u t).state ≠ .ready) :
    ∑ x, readyCost u x+readyCost s t ≤ ∑ x, readyCost s x := by
  have hsum : ∑ x, (readyCost u x+if x = t then readyCost s t else 0) ≤ ∑ x, readyCost s x := by
    refine Finset.sum_le_sum fun x _ => ?_
    split_ifs with hx
    · have hzero : readyCost u x = 0 := by
        rw [hx,readyCost,if_neg ht]
      rw [hzero,hx,Nat.zero_add]
    · exact h.readyCost_le x
  rwa [Finset.sum_add_distrib,Finset.sum_ite_eq',if_pos (Finset.mem_univ t)] at hsum

theorem cheaper_modify (s : State ι σ) (t : ι) {f : Task ι → Task ι}
    (hlen : ∀ task, (f task).notifies.length ≤ task.notifies.length)
    (hready : ∀ task, (f task).state = .ready → task.state = .ready) :
    Cheaper (modify s t f).task s.task := by
  intro x
  rw [modify_task]
  split_ifs
  · exact ⟨hlen _,hready _⟩
  · exact ⟨le_rfl,id⟩

theorem cheaper_push (s : State ι σ) (t : ι) : Cheaper (push s t).task s.task :=
  cheaper_modify s t (f := fun task => {task with state := .running}) (fun _ => le_rfl) (by simp)

theorem cheaper_pushes (l : List ι) (s : State ι σ) : Cheaper (l.foldl push s).task s.task := by
  induction l generalizing s with
  | nil => exact .refl s.task
  | cons t l ih => exact (ih _).trans (cheaper_push s t)

theorem push_ne_ready {s : State ι σ} {t : ι} (h : (s.task t).state ≠ .ready) (l : List ι) :
    ((l.foldl push s).task t).state ≠ .ready := fun hr => h ((cheaper_pushes l s t).2 hr)

@[simp] theorem push_stack (s : State ι σ) (t : ι) : (push s t).stack = s.stack := rfl

@[simp] theorem push_control (s : State ι σ) (t : ι) : (push s t).control = s.control := rfl

@[simp] theorem push_timedEmits (s : State ι σ) (t : ι) :
    (push s t).timedEmits = s.timedEmits := rfl

def pushed (s : State ι σ) (t : ι) : State ι σ :=
  if ((push s t).task t).needSlavePush then ((push s t).task t).slaveTasks.foldl push (push s t)
  else push s t

theorem pushed_keeps {β : Type*} (g : State ι σ → β) (h : ∀ s x, g (push s x) = g s)
    (s : State ι σ) (t : ι) : g (pushed s t) = g s := by
  rw [pushed]
  split_ifs
  · rw [foldl_keeps g h,h]
  · exact h s t

theorem emit_eq (s : State ι σ) (t : ι) : emit s t = {pushed s t with
    stack := (if ((pushed s t).task t).emitNotifies then
      [.notifyAll t .running 0,.notifyAll t .finish 0]
    else [.notifyAll t .running 0])++(pushed s t).stack} := rfl

theorem cheaper_pushed (s : State ι σ) (t : ι) : Cheaper (pushed s t).task s.task := by
  rw [pushed]
  split_ifs
  · exact (cheaper_pushes _ _).trans (cheaper_push s t)
  · exact cheaper_push s t

theorem pushed_ne_ready (s : State ι σ) (t : ι) : ((pushed s t).task t).state ≠ .ready := by
  have hne : ((push s t).task t).state ≠ .ready := by
    simp [push,record,setState_state]
  rw [pushed]
  split_ifs
  · exact push_ne_ready hne _
  · exact hne

theorem emit_cost [Fintype ι] {s : State ι σ} {t : ι} (h : (s.task t).state = .ready) :
    stackCost (emit s t) ≤ stackCost s := by
  have hcheap := cheaper_pushed s t
  have hready := hcheap.sum_add_le (pushed_ne_ready s t)
  have hstack : (pushed s t).stack = s.stack := pushed_keeps State.stack push_stack s t
  have hold := hcheap.frameCost_le s.stack
  have hlen := (hcheap t).1
  have hcost : readyCost s.task t = 4*(s.task t).notifies.length+2 := by
    rw [readyCost,if_pos h]
  rw [emit_eq]
  simp only [stackCost,hstack]
  split_ifs <;> simp only [List.cons_append,List.nil_append,List.map_cons,List.sum_cons,frameCost]
  · omega
  · omega

theorem handleNotify_cost [Fintype ι] (s : State ι σ) (t : ι) :
    stackCost (handleNotify s t) ≤ stackCost s+1 := by
  rw [handleNotify]
  split_ifs
  · set u := unblock s t with hu
    have hcheap : Cheaper u.task s.task := cheaper_modify s t (fun _ => le_rfl) (fun _ => id)
    have hsum := hcheap.sum_le
    have hframes := hcheap.frameCost_le s.stack
    have hstack : u.stack = s.stack := rfl
    simp only [stackCost]
    split_ifs
    · simp only [hstack,List.map_cons,List.sum_cons,frameCost]
      omega
    · rw [hstack]
      omega
  · omega

theorem runFrame_cost [Fintype ι] {s : State ι σ} {frame : Frame ι} {stack : List (Frame ι)}
    (h : s.stack = frame::stack) :
    stackCost (runFrame {s with stack := stack} frame) < stackCost s := by
  have htop : stackCost s = frameCost s.task frame+stackCost {s with stack := stack} := by
    simp only [stackCost,h,List.map_cons,List.sum_cons]
    omega
  cases frame with
  | checkEmit t =>
    have hone : frameCost s.task (.checkEmit t) = 1 := rfl
    simp only [runFrame,checkEmit]
    split_ifs with hready
    · have := emit_cost (s := {s with stack := stack}) hready.1
      omega
    · omega
  | notifyAll t state i =>
    simp only [runFrame,notifyAll]
    simp only [frameCost] at htop
    split
    · omega
    · rename_i x kind hentry
      have hi : i < (s.task t).notifies.length := (List.getElem?_eq_some_iff.mp hentry).1
      split_ifs
      · set u := eraseEntry {s with stack := stack} t i with hu
        have hcheap : Cheaper u.task s.task :=
          cheaper_modify _ t (fun _ => List.length_eraseIdx_le ..) (fun _ => id)
        have hlen : (u.task t).notifies.length = (s.task t).notifies.length-1 := by
          rw [hu,eraseEntry,modify_task,if_pos rfl]
          exact List.length_eraseIdx_of_lt hi
        have hnotify := handleNotify_cost {u with stack := .notifyAll t state i::u.stack} x
        have hstack : u.stack = stack := rfl
        have hsum := hcheap.sum_le
        have hframes := hcheap.frameCost_le stack
        simp only [stackCost,hstack,List.map_cons,List.sum_cons,frameCost,hlen] at hnotify htop ⊢
        omega
      · simp only [stackCost,List.map_cons,List.sum_cons,frameCost] at htop ⊢
        omega

theorem emit_control (s : State ι σ) (t : ι) : (emit s t).control = s.control :=
  pushed_keeps State.control push_control s t

theorem emit_timedEmits (s : State ι σ) (t : ι) : (emit s t).timedEmits = s.timedEmits :=
  pushed_keeps State.timedEmits push_timedEmits s t

theorem runFrame_control (s : State ι σ) (frame : Frame ι) :
    (runFrame s frame).control = s.control ∧ (runFrame s frame).timedEmits = s.timedEmits := by
  cases frame with
  | checkEmit t =>
    simp only [runFrame,checkEmit]
    split_ifs
    · exact ⟨emit_control s t,emit_timedEmits s t⟩
    · exact ⟨rfl,rfl⟩
  | notifyAll t state i =>
    simp only [runFrame,notifyAll]
    split
    · exact ⟨rfl,rfl⟩
    · split_ifs
      · simp only [handleNotify]
        split_ifs <;> exact ⟨rfl,rfl⟩
      · exact ⟨rfl,rfl⟩

/-- How far `managerLoop` is from its next pull. -/
def Control.rank : Control ι → ℕ
  | .pull => 0
  | .timedLoop _ => 1
  | .handleTimedEmits => 2
  | .shutdown _ => 3
  | .setup _ _ _ => 4
  | .handle _ => 5

def rounds (s : State ι σ) : ℕ :=
  match s.control with
  | .timedLoop _ => s.timedEmits.length
  | .setup _ calls _ => calls.length
  | _ => 0

theorem finalise_control (V : Methods ι σ α) (s : State ι σ) (t : ι) :
    (finalise V s t).control = s.control := by
  simp only [finalise]
  split_ifs <;> rfl

theorem release_control (s : State ι σ) (t : ι) : (release s t).control = s.control := by
  simp only [release]
  split_ifs <;> rfl

theorem shutdown_control (V : Methods ι σ α) (s : State ι σ) (t : ι) :
    (shutdown V s t).control = .handleTimedEmits := by
  rw [shutdown,release_control,foldl_keeps State.control,finalise_control]
  intro u x
  rw [release_control,finalise_control]

theorem finish_rank (s : State ι σ) (t : ι) : (finish s t).control.rank ≤ 3 := by
  obtain ⟨-,h⟩ | ⟨-,m,-,-,-,h⟩ | ⟨-,m,-,-,h⟩ | ⟨-,-,-,h⟩ | ⟨-,-,-,h⟩ := finish_cases s t
  all_goals rw [h]
  · exact Nat.le_succ 2
  · exact le_rfl
  · exact Nat.le_succ 2
  · exact le_rfl
  · exact Nat.le_succ 2

theorem manage_descends [Fintype ι] (V : Methods ι σ α) (s : State ι σ) (now : ℤ) (a : α)
    (h : ¬(s.control = .pull ∧ s.stack = [])) :
    ∃ t, manage V s now a = some t ∧
      Prod.Lex (· < ·) (Prod.Lex (· < ·) (· < ·)) (t.control.rank,rounds t,stackCost t)
        (s.control.rank,rounds s,stackCost s) := by
  cases hstack : s.stack with
  | cons frame stack =>
    refine ⟨_,by rw [manage,hstack],?_⟩
    obtain ⟨hcontrol,htimed⟩ := runFrame_control {s with stack := stack} frame
    have hcontrol' : (runFrame {s with stack := stack} frame).control = s.control := hcontrol
    have htimed' : (runFrame {s with stack := stack} frame).timedEmits = s.timedEmits := htimed
    have hrounds : rounds (runFrame {s with stack := stack} frame) = rounds s := by
      rw [rounds,rounds,hcontrol',htimed']
    rw [hcontrol',hrounds]
    exact .right _ (.right _ (runFrame_cost hstack))
  | nil =>
    cases hcontrol : s.control with
    | pull => exact absurd ⟨hcontrol,hstack⟩ h
    | handle t =>
      refine ⟨_,by rw [manage,hstack,hcontrol],.left _ _ ?_⟩
      rw [handleTask]
      split
      · exact (by decide : 4 < 5)
      · exact (by decide : 2 < 5)
      · exact (finish_rank s t).trans_lt (by decide : 3 < 5)
      · exact (by decide : 2 < 5)
    | setup t calls ok =>
      cases calls with
      | nil =>
        refine ⟨_,by rw [manage,hstack,hcontrol],.left _ _ ?_⟩
        rw [setupDone]
        split_ifs
        · exact (by decide : 2 < 4)
        · exact (by decide : 2 < 4)
        · exact (finish_rank _ t).trans_lt (by decide : 3 < 4)
      | cons call calls =>
        obtain ⟨p,follow⟩ := call
        refine ⟨_,by rw [manage,hstack,hcontrol],?_⟩
        simp only [rounds,hcontrol,Control.rank]
        exact .right _ (.left _ _ (Nat.lt_succ_self _))
    | shutdown t =>
      refine ⟨_,by rw [manage,hstack,hcontrol],.left _ _ ?_⟩
      rw [shutdown_control]
      exact (by decide : 2 < 3)
    | handleTimedEmits =>
      exact ⟨_,by rw [manage,hstack,hcontrol],.left _ _ (by exact (by decide : 1 < 2))⟩
    | timedLoop now =>
      cases htimed : s.timedEmits with
      | nil =>
        refine ⟨_,by rw [manage,hstack,hcontrol],.left _ _ ?_⟩
        simp only [timedLoop,htimed]
        exact (by decide : 0 < 1)
      | cons t timedEmits =>
        by_cases hnow : now < (s.task t).tsEmit
        · refine ⟨_,by rw [manage,hstack,hcontrol],.left _ _ ?_⟩
          simp only [timedLoop,htimed,if_pos hnow]
          exact (by decide : 0 < 1)
        · refine ⟨_,by rw [manage,hstack,hcontrol],?_⟩
          simp only [timedLoop,htimed,if_neg hnow,clearWaiting,modify_control,hcontrol,rounds,
            Control.rank]
          exact .right _ (.left _ _ (Nat.lt_succ_self _))

theorem drains [Fintype ι] (V : Methods ι σ α) (inputs : ℕ → ℤ × α) (s : State ι σ) :
    ∃ n u, exec (step V) s (managerEvents inputs n) = some u ∧ u.control = .pull ∧
      u.stack = [] := by
  by_cases hdone : s.control = .pull ∧ s.stack = []
  · exact ⟨0,s,rfl,hdone⟩
  · obtain ⟨t,ht,hless⟩ := manage_descends V s (inputs 0).1 (inputs 0).2 hdone
    obtain ⟨n,u,hu,hend⟩ := drains V (fun i => inputs (i+1)) t
    refine ⟨n+1,u,?_,hend⟩
    simp only [managerEvents,exec,step,ht,Option.bind_some]
    exact hu
termination_by (s.control.rank,rounds s,stackCost s)
decreasing_by exact hless

end Drain

end TaskManager

end DirectFB
