import DirectFB.Reaches
import DirectFB.Types

/-! Runner threads that serve task queues. Tasks of one queue are handed on one by
one, by the runner that saw the successor in time or else by the manager. -/
set_option linter.unusedSectionVars false
namespace DirectFB
open Function (update update_of_ne update_self)
namespace TaskThreadsQ
open Transition

/-- Where a runner is in `taskLoop`, with its local variables. -/
inductive Phase (ι : Type*)
  | idle
  | loaded (task : ι)
  | noNext (task : ι)
  | ready (task : ι) (next : Option ι)
  | running (task : ι) (next : Option ι)
  | returned (task next : ι)

def Phase.task {ι : Type*} : Phase ι → Option ι
  | .idle => none
  | .loaded t | .noNext t | .ready t _ | .running t _ | .returned t _ => some t

/-- The shared fields of the tasks, the FIFO, the map of queues and the runners;
the last four keep what has happened. -/
structure State (ι Q ρ : Type*) where
  next : ι → Option ι
  lastInQueue : ι → Bool
  state : ι → TaskState
  fifo : List ι
  queues : Q → Option ι
  runners : ρ → Phase ι
  pushed : List ι
  ran : List ι
  returned : List ι
  finalised : List ι

variable {ι Q ρ : Type*} [DecidableEq ι] [DecidableEq Q] [DecidableEq ρ]

/-- `Task::append`, which wants both tasks in the right state. -/
def append (s : State ι Q ρ) (last task : ι) : State ι Q ρ :=
  if s.state last ∈ [.running,.done,.finish] ∧ s.state task = .running then
    {s with next := update s.next last (some task)}
  else s

/-- `TaskThreadsQ::Push`. -/
def push (qid : ι → Q) (s : State ι Q ρ) (task : ι) : State ι Q ρ :=
  let s' := {s with queues := update s.queues (qid task) (some task)}
  match s.queues (qid task) with
  | some last => append s' last task
  | none => {s' with fifo := s.fifo++[task]}

/-- `TaskThreadsQ::Finalise`. -/
def finalise (qid : ι → Q) (s : State ι Q ρ) (task : ι) : State ι Q ρ :=
  if s.lastInQueue task then
    match s.next task with
    | some next => {s with fifo := s.fifo++[next]}
    | none => {s with queues := update s.queues (qid task) none}
  else s

/-- One access of a runner to what it shares with others; `none` while it waits
for the FIFO. `Run()` is entered and left in two steps. -/
def taskLoop (s : State ι Q ρ) (r : ρ) : Option (State ι Q ρ) :=
  let goto (s : State ι Q ρ) (phase : Phase ι) : State ι Q ρ :=
    {s with runners := update s.runners r phase}
  match s.runners r with
  | .idle =>
    match s.fifo with
    | [] => none
    | task::fifo => some (goto {s with fifo := fifo} (.loaded task))
  | .loaded task =>
    match s.next task with
    | none => some (goto s (.noNext task))
    | some next => some (goto s (.ready task (some next)))
  | .noNext task =>
    some (goto {s with lastInQueue := update s.lastInQueue task true} (.ready task none))
  | .ready task next => some (goto {s with ran := s.ran++[task]} (.running task next))
  | .running task next =>
    let s := {s with
      returned := s.returned++[task]
      state := update s.state task .done}
    match next with
    | none => some (goto s .idle)
    | some next => some (goto s (.returned task next))
  | .returned _ next => some (goto {s with fifo := s.fifo++[next]} .idle)

inductive Event (ι ρ : Type*)
  | push (task : ι)
  | finalise (task : ι)
  | runner (r : ρ)

def Event.isPush : Event ι ρ → Bool
  | .push _ => true
  | _ => false

/-- The manager emits a new task, or shuts one down that was run; or a runner goes on. -/
def step (qid : ι → Q) (s : State ι Q ρ) : Event ι ρ → Option (State ι Q ρ)
  | .push task =>
    if s.state task = .new then
      some (push qid {s with
        state := update s.state task .running
        pushed := s.pushed++[task]} task)
    else none
  | .finalise task =>
    if task ∈ s.returned ∧ task ∉ s.finalised then
      some {finalise qid s task with
        state := update s.state task .dead
        finalised := s.finalised++[task]}
    else none
  | .runner r => taskLoop s r

def start : State ι Q ρ where
  next _ := none
  lastInQueue _ := false
  state _ := .new
  fifo := []
  queues _ := none
  runners _ := .idle
  pushed := []
  ran := []
  returned := []
  finalised := []

def ofQueue (qid : ι → Q) (q : Q) (l : List ι) : List ι := l.filter fun t => qid t = q

def Linked (next : ι → Option ι) : List ι → Prop
  | [] => True
  | t::l => next t = l.head? ∧ Linked next l

/-- Where a task is: not pushed, linked behind another one, in the FIFO, with a
runner, run while it was last in its queue, or handed over. -/
inductive Stage (ρ : Type*)
  | unpushed | waiting | queued | held (r : ρ) | resting | past
  deriving DecidableEq

def Stage.Active : Stage ρ → Prop
  | .queued | .held _ | .resting => True
  | _ => False

def LinkOk (s : State ι Q ρ) (t : ι) : Option ι → Prop
  | none => s.lastInQueue t = true
  | some n => s.next t = some n ∧ s.lastInQueue t = false

structure Pending (s : State ι Q ρ) (t : ι) : Prop where
  pushed : t ∈ s.pushed
  state : s.state t = .running
  not_ran : t ∉ s.ran
  not_returned : t ∉ s.returned
  not_finalised : t ∉ s.finalised

/-- A task with a runner in some phase. -/
def Holding (s : State ι Q ρ) (t : ι) : Phase ι → Prop
  | .idle => False
  | .loaded u | .noNext u => u = t ∧ Pending s t ∧ s.lastInQueue t = false
  | .ready u next => u = t ∧ Pending s t ∧ LinkOk s t next
  | .running u next => u = t ∧ t ∈ s.pushed ∧ s.state t = .running ∧ t ∈ s.ran ∧
      t ∉ s.returned ∧ t ∉ s.finalised ∧ LinkOk s t next
  | .returned u next => u = t ∧ t ∈ s.pushed ∧ s.state t ≠ .new ∧ t ∈ s.ran ∧
      t ∈ s.returned ∧ (t ∉ s.finalised → s.state t = .done) ∧ LinkOk s t (some next)

/-- What is known of a task by its stage. -/
def Facts (s : State ι Q ρ) (t : ι) : Stage ρ → Prop
  | .unpushed => t ∉ s.pushed ∧ s.state t = .new ∧ s.next t = none ∧ s.lastInQueue t = false ∧
      t ∉ s.ran ∧ t ∉ s.returned ∧ t ∉ s.finalised
  | .waiting | .queued => Pending s t ∧ s.lastInQueue t = false
  | .held r => Holding s t (s.runners r)
  | .resting => t ∈ s.pushed ∧ s.state t = .done ∧ s.lastInQueue t = true ∧ t ∈ s.ran ∧
      t ∈ s.returned ∧ t ∉ s.finalised
  | .past => t ∈ s.pushed ∧ s.state t ≠ .new ∧ t ∈ s.ran ∧ t ∈ s.returned ∧
      (s.lastInQueue t = true → t ∈ s.finalised)

def started (s : State ι Q ρ) (l : List ι) : List ι := l.head?.toList.filter fun t => t ∈ s.ran

/-- The tasks of each queue that were handed over, and those that were not, in the
order they were pushed. -/
structure Inv (qid : ι → Q) (s : State ι Q ρ) (stage : ι → Stage ρ) (A B : Q → List ι) : Prop where
  facts : ∀ t, Facts s t (stage t)
  queued : ∀ t, t ∈ s.fifo ↔ stage t = .queued
  held : ∀ r t, (s.runners r).task = some t ↔ stage t = .held r
  split : ∀ q, ofQueue qid q s.pushed = A q++B q
  handed : ∀ q, ∀ a ∈ A q, stage a = .past
  head : ∀ q t l, B q = t::l → (stage t).Active ∧ ∀ w ∈ l, stage w = .waiting
  linked : ∀ q, Linked s.next (B q)
  queue : ∀ q, s.queues q = (B q).getLast?
  closed : ∀ q, B q = [] → ∀ a ∈ (A q).getLast?, s.lastInQueue a = true ∧ a ∈ s.finalised
  ran_eq : ∀ q, ofQueue qid q s.ran = A q++started s (B q)
  fifo_nodup : s.fifo.Nodup
  pushed_nodup : s.pushed.Nodup
  finalised_nodup : s.finalised.Nodup
  finalised_returned : ∀ t ∈ s.finalised, t ∈ s.returned

/-- What is known of a task only depends on what is its own. -/
theorem Facts.frame {s s' : State ι Q ρ} {t : ι} {x : Stage ρ} (h : Facts s t x)
    (hnext : s'.next t = s.next t) (hlast : s'.lastInQueue t = s.lastInQueue t)
    (hstate : s'.state t = s.state t) (hpushed : t ∈ s'.pushed ↔ t ∈ s.pushed)
    (hran : t ∈ s'.ran ↔ t ∈ s.ran) (hreturned : t ∈ s'.returned ↔ t ∈ s.returned)
    (hfinalised : t ∈ s'.finalised ↔ t ∈ s.finalised)
    (hrunner : ∀ r, x = .held r → s'.runners r = s.runners r) : Facts s' t x := by
  have hpending : Pending s t → Pending s' t := fun hp =>
    ⟨hpushed.mpr hp.pushed,hstate ▸ hp.state,mt hran.mp hp.not_ran,
      mt hreturned.mp hp.not_returned,mt hfinalised.mp hp.not_finalised⟩
  have hlink (n : Option ι) : LinkOk s t n → LinkOk s' t n := by
    cases n <;> simp only [LinkOk,hlast,hnext] <;> exact id
  cases x with
  | held r =>
    rw [Facts,hrunner r rfl]
    simp only [Facts] at h
    cases hphase : s.runners r <;> rw [hphase] at h <;>
      simp only [Holding,hstate,hlast,hpushed,hran,hreturned,hfinalised] at h ⊢ <;> tauto
  | waiting => exact ⟨hpending h.1,hlast ▸ h.2⟩
  | queued => exact ⟨hpending h.1,hlast ▸ h.2⟩
  | unpushed => simpa only [Facts,hstate,hlast,hnext,hpushed,hran,hreturned,hfinalised] using h
  | resting => simpa only [Facts,hstate,hlast,hpushed,hran,hreturned,hfinalised] using h
  | past => simpa only [Facts,hstate,hlast,hpushed,hran,hreturned,hfinalised] using h

theorem Linked.congr {next next' : ι → Option ι} {l : List ι} (h : Linked next l)
    (hn : ∀ t ∈ l, next' t = next t) : Linked next' l := by
  induction l with
  | nil => trivial
  | cons t l ih =>
    exact ⟨(hn t (by simp)).trans h.1,ih h.2 fun u hu => hn u (List.mem_cons_of_mem _ hu)⟩

theorem Linked.next_last {next : ι → Option ι} {l : List ι} (h : Linked next l) {a : ι}
    (ha : a ∈ l.getLast?) : next a = none := by
  induction l with
  | nil => simp at ha
  | cons t l ih =>
    cases l with
    | nil =>
      obtain rfl : t = a := by simpa using ha
      exact h.1
    | cons u l => exact ih h.2 (by rwa [List.getLast?_cons_cons] at ha)

/-- A new task is linked behind the last one. -/
theorem Linked.snoc {next : ι → Option ι} {l : List ι} (h : Linked next l) (hnodup : l.Nodup)
    {a t : ι} (ha : a ∈ l.getLast?) (ht : t ∉ l) (hnext : next t = none) :
    Linked (update next a (some t)) (l++[t]) := by
  induction l with
  | nil => simp at ha
  | cons u l ih =>
    rw [List.nodup_cons] at hnodup
    rw [List.mem_cons,not_or] at ht
    cases l with
    | nil =>
      obtain rfl : u = a := by simpa using ha
      exact ⟨by simp,by simpa [ht.1] using hnext,trivial⟩
    | cons v l =>
      rw [List.getLast?_cons_cons] at ha
      have hua : u ≠ a := by
        rintro rfl
        exact hnodup.1 (List.mem_of_mem_getLast? ha)
      exact ⟨by rw [update_of_ne hua]; exact h.1,ih h.2 hnodup.2 ha ht.2⟩

/-- The successor of a task is nobody's business until it is read. -/
theorem Facts.setNext {s : State ι Q ρ} {t : ι} {x : Stage ρ} (h : Facts s t x)
    (hx : x ≠ .unpushed) (hnone : s.next t = none) (next : ι → Option ι) :
    Facts {s with next := next} t x := by
  cases x with
  | unpushed => contradiction
  | waiting => exact ⟨⟨h.1.pushed,h.1.state,h.1.not_ran,h.1.not_returned,h.1.not_finalised⟩,h.2⟩
  | queued => exact ⟨⟨h.1.pushed,h.1.state,h.1.not_ran,h.1.not_returned,h.1.not_finalised⟩,h.2⟩
  | resting => exact h
  | past => exact h
  | held r =>
    rw [Facts] at h ⊢
    have hpending (hp : Pending s t) : Pending {s with next := next} t :=
      ⟨hp.pushed,hp.state,hp.not_ran,hp.not_returned,hp.not_finalised⟩
    have hlink (n : Option ι) (hl : LinkOk s t n) : LinkOk {s with next := next} t n := by
      cases n with
      | none => exact hl
      | some n =>
        rw [LinkOk,hnone] at hl
        simp at hl
    cases hphase : s.runners r <;> rw [hphase] at h <;> simp only [Holding] at h ⊢
    · exact ⟨h.1,hpending h.2.1,h.2.2⟩
    · exact ⟨h.1,hpending h.2.1,h.2.2⟩
    · exact ⟨h.1,hpending h.2.1,hlink _ h.2.2⟩
    · exact ⟨h.1,h.2.1,h.2.2.1,h.2.2.2.1,h.2.2.2.2.1,h.2.2.2.2.2.1,hlink _ h.2.2.2.2.2.2⟩
    · exact ⟨h.1,h.2.1,h.2.2.1,h.2.2.2.1,h.2.2.2.2.1,h.2.2.2.2.2.1,hlink _ h.2.2.2.2.2.2⟩

section Steps

variable {qid : ι → Q} {s : State ι Q ρ} {stage : ι → Stage ρ} {A B : Q → List ι}

theorem Inv.mem_pushed (h : Inv qid s stage A B) {t : ι} (ht : stage t ≠ .unpushed) :
    t ∈ s.pushed := by
  have hf := h.facts t
  cases hx : stage t with
  | unpushed => contradiction
  | waiting => rw [hx] at hf; exact hf.1.pushed
  | queued => rw [hx] at hf; exact hf.1.pushed
  | held r =>
    rw [hx] at hf
    simp only [Facts] at hf
    cases hphase : s.runners r <;> rw [hphase] at hf <;> simp only [Holding] at hf
    · exact hf.2.1.pushed
    · exact hf.2.1.pushed
    · exact hf.2.1.pushed
    · exact hf.2.1
    · exact hf.2.1
  | resting => rw [hx] at hf; exact hf.1
  | past => rw [hx] at hf; exact hf.1

/-- A task that is somewhere is the first one of its queue. -/
theorem Inv.head_of_active (h : Inv qid s stage A B) {t : ι} (ht : (stage t).Active) :
    ∃ l, B (qid t) = t::l := by
  have hpushed : t ∈ s.pushed := h.mem_pushed (by rintro hx; rw [hx] at ht; exact ht)
  have hmem : t ∈ A (qid t)++B (qid t) := by
    rw [← h.split]
    simp [ofQueue,hpushed]
  rcases List.mem_append.mp hmem with hA | hB
  · rw [h.handed _ t hA] at ht
    exact ht.elim
  · cases hB' : B (qid t) with
    | nil => simp [hB'] at hB
    | cons u l =>
      rw [hB'] at hB
      rcases List.mem_cons.mp hB with rfl | hl
      · exact ⟨l,rfl⟩
      · rw [(h.head _ u l hB').2 t hl] at ht
        exact ht.elim

theorem Inv.qid_of_mem (h : Inv qid s stage A B) {q : Q} {t : ι} (ht : t ∈ B q) : qid t = q := by
  have hmem : t ∈ ofQueue qid q s.pushed := by rw [h.split]; simp [ht]
  simpa using (List.mem_filter.mp hmem).2

theorem started_congr {s' : State ι Q ρ} {l : List ι} (h : ∀ t ∈ l.head?, t ∈ s'.ran ↔ t ∈ s.ran) :
    started s' l = started s l := by
  cases l with
  | nil => rfl
  | cons t l => simp [started,List.filter_cons,h t rfl]

/-- A runner's step on its task, in which it keeps it. -/
theorem Inv.keep (h : Inv qid s stage A B) {s' : State ι Q ρ} {r : ρ} {t : ι} {phase : Phase ι}
    (hr : (s.runners r).task = some t) (hphase : phase.task = some t)
    (hrunners : s'.runners = update s.runners r phase) (hholding : Holding s' t phase)
    (hnext : s'.next = s.next) (hfifo : s'.fifo = s.fifo) (hqueues : s'.queues = s.queues)
    (hpushed : s'.pushed = s.pushed) (hfinalised : s'.finalised = s.finalised)
    (hlast : ∀ u ≠ t, s'.lastInQueue u = s.lastInQueue u)
    (hstate : ∀ u ≠ t, s'.state u = s.state u)
    (hran : s'.ran = s.ran ∨ s'.ran = s.ran++[t] ∧ t ∉ s.ran)
    (hreturned : s'.returned = s.returned ∨ s'.returned = s.returned++[t]) :
    Inv qid s' stage A B := by
  have hstage : stage t = .held r := (h.held r t).mp hr
  obtain ⟨l,hB⟩ := h.head_of_active (t := t) (by rw [hstage]; trivial)
  have hother {q : Q} (a : ι) (ha : a ∈ A q) : a ≠ t := by
    rintro rfl
    rw [h.handed q a ha] at hstage
    contradiction
  refine ⟨?_,by rw [hfifo]; exact h.queued,?_,by rw [hpushed]; exact h.split,h.handed,h.head,
    by rw [hnext]; exact h.linked,by rw [hqueues]; exact h.queue,?_,?_,by rw [hfifo]; exact h.fifo_nodup,
    by rw [hpushed]; exact h.pushed_nodup,by rw [hfinalised]; exact h.finalised_nodup,?_⟩
  · intro u
    by_cases hu : u = t
    · subst hu
      rw [hstage,Facts,hrunners,update_self]
      exact hholding
    · refine (h.facts u).frame (by rw [hnext]) (hlast u hu) (hstate u hu) (by rw [hpushed]) ?_ ?_
        (by rw [hfinalised]) ?_
      · rcases hran with hran | ⟨hran,-⟩ <;> simp [hran,hu]
      · rcases hreturned with hret | hret <;> simp [hret,hu]
      · intro r' hr'
        rw [hrunners,update_of_ne]
        rintro rfl
        have := (h.held r' u).mpr hr'
        rw [hr] at this
        exact hu (Option.some.inj this).symm
  · intro r' u
    by_cases hrr : r' = r
    · subst hrr
      rw [hrunners,update_self,hphase,← h.held r' u,hr]
    · rw [hrunners,update_of_ne hrr]
      exact h.held r' u
  · intro q hq a ha
    rw [hlast a (hother a (List.mem_of_mem_getLast? ha)),hfinalised]
    exact h.closed q hq a ha
  · intro q
    rcases hran with hran | ⟨hran,hnot⟩
    · rw [hran,h.ran_eq,started_congr (fun u _ => by rw [hran])]
    · by_cases hq : qid t = q
      · subst hq
        have hs : started s (B (qid t)) = [] := by simp [started,hB,hnot]
        have hs' : started s' (B (qid t)) = [t] := by simp [started,hB,hran]
        have hran' := h.ran_eq (qid t)
        rw [hs,List.append_nil] at hran'
        rw [hs',hran,← hran']
        simp [ofQueue]
      · have hfil : ofQueue qid q s'.ran = ofQueue qid q s.ran := by simp [ofQueue,hran,hq]
        rw [hfil,h.ran_eq,started_congr fun u hu => ?_]
        have : u ≠ t := by
          rintro rfl
          exact hq (h.qid_of_mem (List.mem_of_mem_head? hu))
        simp [hran,this]
  · intro u hu
    rw [hfinalised] at hu
    have := h.finalised_returned u hu
    rcases hreturned with hret | hret <;> simp [hret,this]

theorem Inv.held_of_ne (h : Inv qid s stage A B) {r : ρ} {phase : Phase ι} {t : ι} {x : Stage ρ}
    (hphase : ∀ u, phase.task = some u ↔ u = t ∧ x = .held r)
    (hx : ∀ r', x = .held r' → r' = r) (hr : ∀ u, (s.runners r).task = some u → u = t) (r' : ρ) (u : ι)
    (ht : ∀ r', stage t = .held r' → r' = r) :
    (update s.runners r phase r').task = some u ↔ update stage t x u = .held r' := by
  by_cases hu : u = t
  · subst hu
    rw [update_self]
    by_cases hrr : r' = r
    · subst hrr
      rw [update_self,hphase]
      simp
    · rw [update_of_ne hrr,h.held]
      exact ⟨fun h' => absurd (ht r' h') hrr,fun h' => absurd (hx r' h') hrr⟩
  · rw [update_of_ne hu]
    by_cases hrr : r' = r
    · subst hrr
      rw [update_self,hphase,← h.held]
      exact ⟨fun h' => absurd h'.1 hu,fun h' => absurd (hr u h') hu⟩
    · rw [update_of_ne hrr]
      exact h.held r' u

theorem Inv.head_update (h : Inv qid s stage A B) {t : ι} {x : Stage ρ} (hx : x.Active)
    (ht : (stage t).Active) (q : Q) (u : ι) (l : List ι) (hB : B q = u::l) :
    (update stage t x u).Active ∧ ∀ w ∈ l, update stage t x w = .waiting := by
  constructor
  · by_cases hu : u = t
    · subst hu
      rwa [update_self]
    · rw [update_of_ne hu]
      exact (h.head q u l hB).1
  · intro w hw
    have hwait := (h.head q u l hB).2 w hw
    rw [update_of_ne,hwait]
    rintro rfl
    rw [hwait] at ht
    exact ht

theorem Inv.handed_update (h : Inv qid s stage A B) {t : ι} (x : Stage ρ) (ht : (stage t).Active)
    (q : Q) (a : ι) (ha : a ∈ A q) : update stage t x a = .past := by
  rw [update_of_ne,h.handed q a ha]
  rintro rfl
  rw [h.handed q a ha] at ht
  exact ht

/-- A runner gets the first task of the FIFO. -/
theorem Inv.pull (h : Inv qid s stage A B) {r : ρ} {t : ι} {fifo : List ι}
    (hr : s.runners r = .idle) (hfifo : s.fifo = t::fifo) :
    Inv qid {s with fifo := fifo, runners := update s.runners r (.loaded t)}
      (update stage t (.held r)) A B := by
  have hstage : stage t = .queued := (h.queued t).mp (by simp [hfifo])
  have hact : (stage t).Active := by rw [hstage]; trivial
  have hnodup := h.fifo_nodup
  rw [hfifo,List.nodup_cons] at hnodup
  have hfacts := h.facts t
  rw [hstage] at hfacts
  refine ⟨?_,?_,?_,h.split,h.handed_update _ hact,h.head_update trivial hact,h.linked,h.queue,
    h.closed,h.ran_eq,hnodup.2,h.pushed_nodup,h.finalised_nodup,h.finalised_returned⟩
  · intro u
    by_cases hu : u = t
    · subst hu
      simp only [update_self,Facts,Holding]
      exact ⟨trivial,⟨hfacts.1.pushed,hfacts.1.state,hfacts.1.not_ran,hfacts.1.not_returned,
        hfacts.1.not_finalised⟩,hfacts.2⟩
    · rw [update_of_ne hu]
      refine (h.facts u).frame rfl rfl rfl Iff.rfl Iff.rfl Iff.rfl Iff.rfl fun r' hr' => ?_
      refine update_of_ne ?_ _ _
      rintro rfl
      have := (h.held r' u).mpr hr'
      simp [hr,Phase.task] at this
  · intro u
    by_cases hu : u = t
    · subst hu
      simp [hnodup.1]
    · rw [update_of_ne hu,← h.queued u,hfifo]
      simp [hu]
  · refine fun r' u => h.held_of_ne ?_ ?_ ?_ r' u ?_
    · intro v
      simp [Phase.task,eq_comm]
    · intro r'' hr''
      simpa [eq_comm] using hr''
    · intro v hv
      simp [hr,Phase.task] at hv
    · intro r'' hr''
      rw [hstage] at hr''
      contradiction

/-- A runner is done with a task that was last in its queue. -/
theorem Inv.rest (h : Inv qid s stage A B) {r : ρ} {t : ι} (hr : s.runners r = .running t none) :
    Inv qid {s with
        returned := s.returned++[t]
        state := update s.state t .done
        runners := update s.runners r .idle}
      (update stage t .resting) A B := by
  have hstage : stage t = .held r := (h.held r t).mp (by simp [hr,Phase.task])
  have hact : (stage t).Active := by rw [hstage]; trivial
  have hfacts := h.facts t
  rw [hstage,Facts,hr] at hfacts
  obtain ⟨-,hpushed,hstate,hran,hreturned,hfinalised,hlink⟩ := hfacts
  refine ⟨?_,?_,?_,h.split,h.handed_update _ hact,h.head_update trivial hact,h.linked,h.queue,
    h.closed,h.ran_eq,h.fifo_nodup,h.pushed_nodup,h.finalised_nodup,
    fun u hu => List.mem_append_left _ (h.finalised_returned u hu)⟩
  · intro u
    by_cases hu : u = t
    · subst hu
      rw [update_self]
      exact ⟨hpushed,update_self _ _ _,hlink,hran,by simp,hfinalised⟩
    · rw [update_of_ne hu]
      refine (h.facts u).frame rfl rfl (update_of_ne hu _ _) Iff.rfl Iff.rfl (by simp [hu])
        Iff.rfl fun r' hr' => update_of_ne ?_ _ _
      rintro rfl
      have := (h.held r' u).mpr hr'
      simp only [hr,Phase.task,Option.some.injEq] at this
      exact hu this.symm
  · intro u
    by_cases hu : u = t
    · subst hu
      simp [h.queued,hstage]
    · rw [update_of_ne hu]
      exact h.queued u
  · refine fun r' u => h.held_of_ne ?_ ?_ ?_ r' u ?_
    · simp [Phase.task]
    · simp
    · intro v hv
      simpa [hr,Phase.task,eq_comm] using hv
    · intro r'' hr''
      rw [hstage] at hr''
      simpa [eq_comm] using hr''

theorem Inv.nodup_queue (h : Inv qid s stage A B) (q : Q) : (A q++B q).Nodup := by
  rw [← h.split]
  exact h.pushed_nodup.filter _

/-- The first task of a queue, having been run, gives way to its successor. -/
theorem Inv.handOver (h : Inv qid s stage A B) {s' : State ι Q ρ} {t n : ι} {l : List ι}
    (hB : B (qid t) = t::n::l) (hqueued : stage t ≠ .queued) (hpast : Facts s' t (.past : Stage ρ))
    (hnext : s'.next = s.next) (hlast : s'.lastInQueue = s.lastInQueue)
    (hstate : ∀ u ≠ t, s'.state u = s.state u) (hfifo : s'.fifo = s.fifo++[n])
    (hqueues : s'.queues = s.queues) (hpushed : s'.pushed = s.pushed) (hran : s'.ran = s.ran)
    (hreturned : s'.returned = s.returned)
    (hfinalised : s'.finalised = s.finalised ∨ s'.finalised = s.finalised++[t] ∧ t ∉ s.finalised)
    (hheld : ∀ r u, (s'.runners r).task = some u ↔ u ≠ t ∧ (s.runners r).task = some u)
    (hrunners : ∀ r, (s.runners r).task ≠ some t → s'.runners r = s.runners r) :
    Inv qid s' (update (update stage t .past) n .queued)
      (update A (qid t) (A (qid t)++[t])) (update B (qid t) (n::l)) := by
  have hnodup := h.nodup_queue (qid t)
  rw [hB,List.nodup_append] at hnodup
  obtain ⟨-,hnodup,-⟩ := hnodup
  simp only [List.nodup_cons,List.mem_cons,not_or] at hnodup
  have hn : stage n = .waiting := (h.head _ t _ hB).2 n (by simp)
  have hl : ∀ w ∈ l, stage w = .waiting := fun w hw => (h.head _ t _ hB).2 w (by simp [hw])
  have hqn : qid n = qid t := h.qid_of_mem (q := qid t) (by simp [hB])
  have hfin {u : ι} (hu : u ≠ t) : u ∈ s'.finalised ↔ u ∈ s.finalised := by
    rcases hfinalised with hf | ⟨hf,-⟩ <;> simp [hf,hu]
  have hframe {u : ι} (hu : u ≠ t) {x : Stage ρ} (hf : Facts s u x) (hx : x = stage u ∨ x = .queued) :
      Facts s' u x := by
    refine hf.frame (by rw [hnext]) (by rw [hlast]) (hstate u hu) (by rw [hpushed]) (by rw [hran])
      (by rw [hreturned]) (hfin hu) fun r hr => hrunners r ?_
    rcases hx with rfl | rfl
    · rw [(h.held r u).mpr hr]
      simpa using hu
    · contradiction
  refine ⟨?_,?_,?_,?_,?_,?_,?_,?_,?_,?_,?_,by rw [hpushed]; exact h.pushed_nodup,?_,?_⟩
  · intro u
    by_cases hun : u = n
    · subst hun
      rw [update_self]
      have hf := h.facts u
      rw [hn] at hf
      exact hframe (Ne.symm hnodup.1.1) (x := .queued) hf (.inr rfl)
    · rw [update_of_ne hun]
      by_cases hut : u = t
      · subst hut
        rw [update_self]
        exact hpast
      · rw [update_of_ne hut]
        exact hframe hut (h.facts u) (.inl rfl)
  · intro u
    rw [hfifo,List.mem_append,List.mem_singleton]
    by_cases hun : u = n
    · simp [hun]
    · rw [update_of_ne hun]
      by_cases hut : u = t
      · subst hut
        simp [hun,h.queued,hqueued]
      · rw [update_of_ne hut,← h.queued]
        simp [hun]
  · intro r u
    rw [hheld]
    by_cases hun : u = n
    · subst hun
      rw [update_self,h.held,hn]
      simp
    · rw [update_of_ne hun]
      by_cases hut : u = t
      · subst hut
        simp
      · rw [update_of_ne hut,h.held]
        simp [hut]
  · intro q
    rw [hpushed]
    by_cases hq : q = qid t
    · subst hq
      rw [h.split,hB]
      simp
    · rw [update_of_ne hq,update_of_ne hq]
      exact h.split q
  · intro q a ha
    have hpastA {q : Q} (ha : a ∈ A q) : a ≠ n := by
      rintro rfl
      rw [h.handed q a ha] at hn
      contradiction
    by_cases hut : a = t
    · subst hut
      rw [update_of_ne hnodup.1.1,update_self]
    · have haA : ∃ q, a ∈ A q := by
        by_cases hq : q = qid t
        · subst hq
          rw [update_self,List.mem_append,List.mem_singleton] at ha
          exact ⟨_,ha.resolve_right hut⟩
        · rw [update_of_ne hq] at ha
          exact ⟨q,ha⟩
      obtain ⟨q',hq'⟩ := haA
      rw [update_of_ne (hpastA hq'),update_of_ne hut]
      exact h.handed q' a hq'
  · intro q u k hBq
    by_cases hq : q = qid t
    · subst hq
      rw [update_self,List.cons.injEq] at hBq
      obtain ⟨rfl,rfl⟩ := hBq
      refine ⟨by rw [update_self]; trivial,fun w hw => ?_⟩
      rw [update_of_ne (by rintro rfl; exact hnodup.2.1 hw),
        update_of_ne (by rintro rfl; exact hnodup.1.2 hw)]
      exact hl w hw
    · rw [update_of_ne hq] at hBq
      have hother (w : ι) (hw : w ∈ u::k) : w ≠ n ∧ w ≠ t := by
        have hqw := h.qid_of_mem (q := q) (by rw [hBq]; exact hw)
        constructor
        · rintro rfl; exact hq (hqw.symm.trans hqn)
        · rintro rfl; exact hq hqw.symm
      obtain ⟨hun,hut⟩ := hother u (by simp)
      refine ⟨by rw [update_of_ne hun,update_of_ne hut]; exact (h.head q u k hBq).1, fun w hw => ?_⟩
      obtain ⟨hwn,hwt⟩ := hother w (by simp [hw])
      rw [update_of_ne hwn,update_of_ne hwt]
      exact (h.head q u k hBq).2 w hw
  · intro q
    rw [hnext]
    by_cases hq : q = qid t
    · subst hq
      have hlinked := h.linked (qid t)
      rw [hB] at hlinked
      rw [update_self]
      exact hlinked.2
    · rw [update_of_ne hq]
      exact h.linked q
  · intro q
    rw [hqueues,h.queue]
    by_cases hq : q = qid t
    · subst hq
      rw [update_self,hB,List.getLast?_cons_cons]
    · rw [update_of_ne hq]
  · intro q hBq a ha
    by_cases hq : q = qid t
    · subst hq
      rw [update_self] at hBq
      contradiction
    · rw [update_of_ne hq] at hBq ha
      obtain ⟨hla,hfa⟩ := h.closed q hBq a ha
      rw [hlast]
      refine ⟨hla,?_⟩
      rcases hfinalised with hf | ⟨hf,-⟩ <;> simp [hf,hfa]
  · intro q
    rw [hran,h.ran_eq]
    by_cases hq : q = qid t
    · subst hq
      have htran : t ∈ s.ran := by rw [← hran]; exact hpast.2.2.1
      have hnran : n ∉ s.ran := by
        have hf := h.facts n
        rw [hn] at hf
        exact hf.1.not_ran
      rw [update_self,update_self,hB]
      simp [started,hran,htran,hnran]
    · rw [update_of_ne hq,update_of_ne hq,started_congr fun u _ => by rw [hran]]
  · rw [hfifo,List.nodup_append]
    refine ⟨h.fifo_nodup,by simp,?_⟩
    rintro a ha b hb rfl
    obtain rfl : a = n := by simpa using hb
    rw [h.queued,hn] at ha
    contradiction
  · rcases hfinalised with hf | ⟨hf,hnot⟩
    · rw [hf]; exact h.finalised_nodup
    · rw [hf,List.nodup_append]
      refine ⟨h.finalised_nodup,by simp,?_⟩
      rintro a ha b hb rfl
      obtain rfl : a = t := by simpa using hb
      exact hnot ha
  · intro u hu
    rw [hreturned]
    by_cases hut : u = t
    · subst hut
      rw [← hreturned]
      exact hpast.2.2.2.1
    · exact h.finalised_returned u ((hfin hut).mp hu)

/-- The last task of a queue is shut down and the queue with it. -/
theorem Inv.close (h : Inv qid s stage A B) {t : ι} (hstage : stage t = .resting)
    (hB : B (qid t) = [t]) :
    Inv qid {s with
        queues := update s.queues (qid t) none
        state := update s.state t .dead
        finalised := s.finalised++[t]}
      (update stage t .past) (update A (qid t) (A (qid t)++[t]))
      (update B (qid t) []) := by
  have hfacts := h.facts t
  rw [hstage] at hfacts
  obtain ⟨hpushed,hstate,hlast,hran,hreturned,hnot⟩ := hfacts
  have hactive : (stage t).Active := by rw [hstage]; trivial
  refine ⟨?_,?_,?_,?_,?_,?_,?_,?_,?_,?_,h.fifo_nodup,h.pushed_nodup,?_,?_⟩
  · intro u
    by_cases hu : u = t
    · subst hu
      rw [update_self]
      refine ⟨hpushed,?_,hran,hreturned,fun _ => by simp⟩
      simp
    · rw [update_of_ne hu]
      exact (h.facts u).frame rfl rfl (update_of_ne hu _ _) Iff.rfl Iff.rfl Iff.rfl
        (by simp [hu]) fun _ _ => rfl
  · intro u
    by_cases hu : u = t
    · subst hu
      simp [h.queued,hstage]
    · rw [update_of_ne hu]
      exact h.queued u
  · intro r u
    by_cases hu : u = t
    · subst hu
      simp [h.held,hstage]
    · rw [update_of_ne hu]
      exact h.held r u
  · intro q
    by_cases hq : q = qid t
    · subst hq
      simp [h.split,hB]
    · rw [update_of_ne hq,update_of_ne hq]
      exact h.split q
  · intro q a ha
    by_cases hat : a = t
    · subst hat
      rw [update_self]
    · have haA : ∃ q, a ∈ A q := by
        by_cases hq : q = qid t
        · subst hq
          rw [update_self,List.mem_append,List.mem_singleton] at ha
          exact ⟨_,ha.resolve_right hat⟩
        · rw [update_of_ne hq] at ha
          exact ⟨q,ha⟩
      obtain ⟨q',hq'⟩ := haA
      rw [update_of_ne hat]
      exact h.handed q' a hq'
  · intro q u l hBq
    by_cases hq : q = qid t
    · subst hq
      rw [update_self] at hBq
      contradiction
    · rw [update_of_ne hq] at hBq
      have hother (w : ι) (hw : w ∈ u::l) : w ≠ t := by
        rintro rfl
        exact hq (h.qid_of_mem (q := q) (by rw [hBq]; exact hw)).symm
      refine ⟨by rw [update_of_ne (hother u (by simp))]; exact (h.head q u l hBq).1, fun w hw => ?_⟩
      rw [update_of_ne (hother w (by simp [hw]))]
      exact (h.head q u l hBq).2 w hw
  · intro q
    by_cases hq : q = qid t
    · subst hq
      rw [update_self]
      trivial
    · rw [update_of_ne hq]
      exact h.linked q
  · intro q
    by_cases hq : q = qid t
    · subst hq
      simp
    · simp only [update_of_ne hq]
      exact h.queue q
  · intro q hBq a ha
    by_cases hq : q = qid t
    · subst hq
      rw [update_self] at ha
      obtain rfl : t = a := by simpa using ha
      exact ⟨hlast,by simp⟩
    · rw [update_of_ne hq] at hBq ha
      obtain ⟨hla,hfa⟩ := h.closed q hBq a ha
      exact ⟨hla,List.mem_append_left _ hfa⟩
  · intro q
    by_cases hq : q = qid t
    · subst hq
      rw [update_self,update_self,h.ran_eq,hB]
      simp [started,hran]
    · rw [update_of_ne hq,update_of_ne hq]
      exact h.ran_eq q
  · refine List.nodup_append.mpr ⟨h.finalised_nodup,by simp,?_⟩
    rintro a ha b hb rfl
    obtain rfl : a = t := by simpa using hb
    exact hnot ha
  · intro u hu
    rcases List.mem_append.mp hu with hu | hu
    · exact h.finalised_returned u hu
    · obtain rfl : u = t := by simpa using hu
      exact hreturned

/-- A task that was not the last in its queue is shut down. -/
theorem Inv.release (h : Inv qid s stage A B) {t : ι} (hreturned : t ∈ s.returned)
    (hnot : t ∉ s.finalised) (hlast : s.lastInQueue t = false) :
    Inv qid {s with
        state := update s.state t .dead
        finalised := s.finalised++[t]} stage A B := by
  refine ⟨?_,h.queued,h.held,h.split,h.handed,h.head,h.linked,h.queue,?_,h.ran_eq,h.fifo_nodup,
    h.pushed_nodup,?_,?_⟩
  · intro u
    by_cases hu : u = t
    · subst hu
      have hfacts := h.facts u
      cases hstage : stage u with
      | unpushed => rw [hstage] at hfacts; exact absurd hreturned hfacts.2.2.2.2.2.1
      | waiting => rw [hstage] at hfacts; exact absurd hreturned hfacts.1.not_returned
      | queued => rw [hstage] at hfacts; exact absurd hreturned hfacts.1.not_returned
      | resting =>
        rw [hstage] at hfacts
        rw [hfacts.2.2.1] at hlast
        contradiction
      | past =>
        rw [hstage] at hfacts
        exact ⟨hfacts.1,by simp,hfacts.2.2.1,hreturned,fun _ => by simp⟩
      | held r =>
        rw [hstage,Facts] at hfacts
        rw [Facts]
        cases hphase : s.runners r with
        | idle => rw [hphase] at hfacts; exact hfacts.elim
        | loaded v => rw [hphase] at hfacts; exact absurd hreturned hfacts.2.1.not_returned
        | noNext v => rw [hphase] at hfacts; exact absurd hreturned hfacts.2.1.not_returned
        | ready v n => rw [hphase] at hfacts; exact absurd hreturned hfacts.2.1.not_returned
        | running v n => rw [hphase] at hfacts; exact absurd hreturned hfacts.2.2.2.2.1
        | returned v n =>
          rw [hphase] at hfacts
          obtain ⟨rfl,hp,-,hran,-,-,hlink⟩ := hfacts
          exact ⟨rfl,hp,by simp,hran,hreturned,fun hf => absurd (by simp) hf,hlink⟩
    · exact (h.facts u).frame rfl rfl (update_of_ne hu _ _) Iff.rfl Iff.rfl Iff.rfl
        (by simp [hu]) fun _ _ => rfl
  · intro q hq a ha
    obtain ⟨hla,hfa⟩ := h.closed q hq a ha
    exact ⟨hla,List.mem_append_left _ hfa⟩
  · refine List.nodup_append.mpr ⟨h.finalised_nodup,by simp,?_⟩
    rintro a ha b hb rfl
    obtain rfl : a = t := by simpa using hb
    exact hnot ha
  · intro u hu
    rcases List.mem_append.mp hu with hu | hu
    · exact h.finalised_returned u hu
    · obtain rfl : u = t := by simpa using hu
      exact hreturned

theorem Inv.stage_new (h : Inv qid s stage A B) {t : ι} (ht : s.state t = .new) :
    stage t = .unpushed := by
  have hfacts := h.facts t
  cases hstage : stage t with
  | unpushed => rfl
  | waiting => rw [hstage] at hfacts; simp [hfacts.1.state] at ht
  | queued => rw [hstage] at hfacts; simp [hfacts.1.state] at ht
  | resting => rw [hstage] at hfacts; simp [hfacts.2.1] at ht
  | past => rw [hstage] at hfacts; exact absurd ht hfacts.2.1
  | held r =>
    rw [hstage,Facts] at hfacts
    cases hphase : s.runners r <;> rw [hphase] at hfacts <;> simp only [Holding] at hfacts
    · simp [hfacts.2.1.state] at ht
    · simp [hfacts.2.1.state] at ht
    · simp [hfacts.2.1.state] at ht
    · simp [hfacts.2.2.1] at ht
    · exact absurd ht hfacts.2.2.1

/-- A new task in its queue, which is in the FIFO at once or has to wait. -/
theorem Inv.pushed (h : Inv qid s stage A B) {s' : State ι Q ρ} {t : ι} {x : Stage ρ}
    (hnew : s.state t = .new) (hx : x = if B (qid t) = [] then .queued else .waiting)
    (hstate : s'.state = update s.state t .running)
    (hlast : s'.lastInQueue = s.lastInQueue) (hpushed : s'.pushed = s.pushed++[t])
    (hran : s'.ran = s.ran) (hreturned : s'.returned = s.returned)
    (hfinalised : s'.finalised = s.finalised) (hrunners : s'.runners = s.runners)
    (hqueues : s'.queues = update s.queues (qid t) (some t))
    (hfifo : s'.fifo = if B (qid t) = [] then s.fifo++[t] else s.fifo)
    (hnext : s'.next = match (B (qid t)).getLast? with
      | none => s.next
      | some last => update s.next last (some t)) :
    Inv qid s' (update stage t x) A (update B (qid t) (B (qid t)++[t])) := by
  have hstage := h.stage_new hnew
  have hfacts := h.facts t
  rw [hstage] at hfacts
  obtain ⟨hnotpushed,-,hnextt,hlastt,hnotran,hnotreturned,hnotfinalised⟩ := hfacts
  have hmem {q : Q} {u : ι} (hu : u ∈ A q++B q) : u ≠ t := by
    rintro rfl
    rw [← h.split] at hu
    exact hnotpushed (List.mem_filter.mp hu).1
  have hother {u : ι} (hu : u ≠ t) : Facts s' u (stage u) := by
    have hbase : Facts {s with next := s'.next} u (stage u) := by
      by_cases hun : s'.next u = s.next u
      · exact (h.facts u).frame hun rfl rfl Iff.rfl Iff.rfl Iff.rfl Iff.rfl fun _ _ => rfl
      · cases hl : (B (qid t)).getLast? with
        | none => simp [hnext,hl] at hun
        | some last =>
          have hnext' : s'.next = update s.next last (some t) := by rw [hnext,hl]
          have hul : u = last := by
            by_contra hne
            rw [hnext',update_of_ne hne] at hun
            exact hun rfl
          subst hul
          have huB := List.mem_of_mem_getLast? hl
          refine (h.facts u).setNext ?_ ((h.linked _).next_last hl) _
          intro hunp
          cases hB : B (qid t) with
          | nil => simp [hB] at huB
          | cons v l =>
            rw [hB] at huB
            rcases List.mem_cons.mp huB with rfl | hul
            · have := (h.head _ _ l hB).1
              rw [hunp] at this
              exact this
            · have := (h.head _ _ l hB).2 u hul
              rw [hunp] at this
              contradiction
    refine hbase.frame rfl (by rw [hlast]) (by rw [hstate,update_of_ne hu])
      (by simp [hpushed,hu]) (by rw [hran]) (by rw [hreturned]) (by rw [hfinalised])
      fun r _ => by rw [hrunners]
  have hpending : Pending s' t := ⟨by simp [hpushed],by simp [hstate],by rwa [hran],
    by rwa [hreturned],by rwa [hfinalised]⟩
  refine ⟨?_,?_,?_,?_,?_,?_,?_,?_,?_,?_,?_,?_,by rw [hfinalised]; exact h.finalised_nodup,
    by rw [hfinalised,hreturned]; exact h.finalised_returned⟩
  · intro u
    by_cases hu : u = t
    · subst hu
      rw [update_self,hx]
      split_ifs <;> exact ⟨hpending,by rwa [hlast]⟩
    · rw [update_of_ne hu]
      exact hother hu
  · intro u
    rw [hfifo,hx]
    by_cases hu : u = t
    · subst hu
      rw [update_self]
      have : u ∉ s.fifo := by rw [h.queued,hstage]; simp
      split_ifs <;> simp [this]
    · rw [update_of_ne hu,← h.queued]
      split_ifs <;> simp [hu]
  · intro r u
    rw [hrunners,h.held]
    by_cases hu : u = t
    · subst hu
      rw [update_self,hstage,hx]
      split_ifs <;> simp
    · rw [update_of_ne hu]
  · intro q
    rw [hpushed]
    have hsplit := h.split q
    by_cases hq : q = qid t
    · subst hq
      rw [update_self,← List.append_assoc,← hsplit]
      simp [ofQueue]
    · rw [update_of_ne hq,← hsplit]
      simp [ofQueue,Ne.symm hq]
  · intro q a ha
    rw [update_of_ne (hmem (q := q) (by simp [ha]))]
    exact h.handed q a ha
  · intro q u l hBq
    by_cases hq : q = qid t
    · subst hq
      rw [update_self] at hBq
      cases hB : B (qid t) with
      | nil =>
        rw [hB] at hBq hx
        simp only [List.nil_append,List.cons.injEq] at hBq
        obtain ⟨rfl,rfl⟩ := hBq
        rw [update_self,hx]
        exact ⟨trivial,by simp⟩
      | cons v k =>
        rw [hB] at hBq hx
        rw [List.cons_append,List.cons.injEq] at hBq
        obtain ⟨rfl,rfl⟩ := hBq
        have hhead := h.head _ _ k hB
        refine ⟨by rw [update_of_ne (hmem (q := qid t) (by simp [hB]))]; exact hhead.1,
          fun w hw => ?_⟩
        rcases List.mem_append.mp hw with hw | hw
        · rw [update_of_ne (hmem (q := qid t) (by simp [hB,hw]))]
          exact hhead.2 w hw
        · obtain rfl : w = t := by simpa using hw
          rw [update_self,hx]
          simp
    · rw [update_of_ne hq] at hBq
      have hhead := h.head q u l hBq
      refine ⟨by rw [update_of_ne (hmem (q := q) (by simp [hBq]))]; exact hhead.1, fun w hw => ?_⟩
      rw [update_of_ne (hmem (q := q) (by simp [hBq,hw]))]
      exact hhead.2 w hw
  · intro q
    have htB : t ∉ B (qid t) := fun ht => hmem (q := qid t) (by simp [ht]) rfl
    by_cases hq : q = qid t
    · subst hq
      rw [update_self,hnext]
      cases hl : (B (qid t)).getLast? with
      | none =>
        rw [List.getLast?_eq_none_iff] at hl
        simpa [hl,Linked] using hnextt
      | some last =>
        have hnodup := (List.nodup_append.mp (h.nodup_queue (qid t))).2.1
        exact (h.linked _).snoc hnodup hl htB hnextt
    · rw [update_of_ne hq,hnext]
      cases hl : (B (qid t)).getLast? with
      | none => exact h.linked q
      | some last =>
        refine (h.linked q).congr fun u hu => update_of_ne ?_ _ _
        rintro rfl
        have hqu := h.qid_of_mem hu
        rw [h.qid_of_mem (List.mem_of_mem_getLast? hl)] at hqu
        exact hq hqu.symm
  · intro q
    rw [hqueues]
    by_cases hq : q = qid t
    · subst hq
      simp
    · rw [update_of_ne hq,update_of_ne hq]
      exact h.queue q
  · intro q hBq a ha
    rw [hlast,hfinalised]
    by_cases hq : q = qid t
    · subst hq
      simp at hBq
    · rw [update_of_ne hq] at hBq
      exact h.closed q hBq a ha
  · intro q
    rw [hran,h.ran_eq]
    have hstarted {l : List ι} : started s' l = started s l := started_congr fun u _ => by rw [hran]
    by_cases hq : q = qid t
    · subst hq
      rw [update_self,hstarted]
      cases hB : B (qid t) <;> simp [started,hnotran,List.filter_cons]
    · rw [update_of_ne hq,hstarted]
  · rw [hfifo]
    split_ifs
    · refine List.nodup_append.mpr ⟨h.fifo_nodup,by simp,?_⟩
      rintro a ha b hb rfl
      obtain rfl : a = t := by simpa using hb
      rw [h.queued,hstage] at ha
      contradiction
    · exact h.fifo_nodup
  · rw [hpushed]
    refine List.nodup_append.mpr ⟨h.pushed_nodup,by simp,?_⟩
    rintro a ha b hb rfl
    obtain rfl : a = t := by simpa using hb
    exact hnotpushed ha

theorem Inv.stage_of_mem (h : Inv qid s stage A B) {q : Q} {u : ι} (hu : u ∈ B q) :
    (stage u).Active ∨ stage u = .waiting := by
  cases hB : B q with
  | nil => simp [hB] at hu
  | cons v l =>
    rw [hB] at hu
    rcases List.mem_cons.mp hu with rfl | hl
    · exact .inl (h.head q _ l hB).1
    · exact .inr ((h.head q _ l hB).2 u hl)

/-- A task in its queue that nobody follows yet may be followed. -/
theorem Inv.state_last (h : Inv qid s stage A B) {q : Q} {u : ι} (hu : u ∈ (B q).getLast?) :
    s.state u = .running ∨ s.state u = .done := by
  have hnone := (h.linked q).next_last hu
  have hfacts := h.facts u
  have hstage := h.stage_of_mem (List.mem_of_mem_getLast? hu)
  cases hs : stage u with
  | unpushed => rw [hs] at hstage; simp [Stage.Active] at hstage
  | past => rw [hs] at hstage; simp [Stage.Active] at hstage
  | waiting => rw [hs] at hfacts; exact .inl hfacts.1.state
  | queued => rw [hs] at hfacts; exact .inl hfacts.1.state
  | resting => rw [hs] at hfacts; exact .inr hfacts.2.1
  | held r =>
    rw [hs,Facts] at hfacts
    cases hphase : s.runners r <;> rw [hphase] at hfacts <;> simp only [Holding] at hfacts
    · exact .inl hfacts.2.1.state
    · exact .inl hfacts.2.1.state
    · exact .inl hfacts.2.1.state
    · exact .inl hfacts.2.2.1
    · rw [LinkOk,hnone] at hfacts
      simp at hfacts

theorem Inv.resting_of_last (h : Inv qid s stage A B) {t : ι} (hreturned : t ∈ s.returned)
    (hnot : t ∉ s.finalised) (hlast : s.lastInQueue t = true) : stage t = .resting := by
  have hfacts := h.facts t
  cases hs : stage t with
  | resting => rfl
  | unpushed => rw [hs] at hfacts; exact absurd hreturned hfacts.2.2.2.2.2.1
  | waiting => rw [hs] at hfacts; exact absurd hreturned hfacts.1.not_returned
  | queued => rw [hs] at hfacts; exact absurd hreturned hfacts.1.not_returned
  | past => rw [hs] at hfacts; exact absurd (hfacts.2.2.2.2 hlast) hnot
  | held r =>
    rw [hs,Facts] at hfacts
    cases hphase : s.runners r <;> rw [hphase] at hfacts <;> simp only [Holding] at hfacts
    · exact absurd hreturned hfacts.2.1.not_returned
    · exact absurd hreturned hfacts.2.1.not_returned
    · exact absurd hreturned hfacts.2.1.not_returned
    · exact absurd hreturned hfacts.2.2.2.2.1
    · rw [LinkOk,hlast] at hfacts
      simp at hfacts

theorem Inv.runner (h : Inv qid s stage A B) {r : ρ} {s' : State ι Q ρ} (hs : taskLoop s r = some s') :
    ∃ stage A B, Inv qid s' stage A B := by
  cases hr : s.runners r with
  | idle =>
    cases hfifo : s.fifo with
    | nil => simp [taskLoop,hr,hfifo] at hs
    | cons t fifo =>
      obtain rfl : _ = s' := by simpa [taskLoop,hr,hfifo] using hs
      exact ⟨_,_,_,h.pull hr hfifo⟩
  | loaded t =>
    have hstage : stage t = .held r := (h.held r t).mp (by simp [hr,Phase.task])
    have hfacts := h.facts t
    rw [hstage,Facts,hr] at hfacts
    obtain ⟨-,hpending,hlast⟩ := hfacts
    have hpending' : Pending s t := hpending
    obtain ⟨hp,hst,hran,hret,hfin⟩ := hpending
    cases hnext : s.next t with
    | none =>
      obtain rfl : _ = s' := by simpa [taskLoop,hr,hnext] using hs
      exact ⟨_,_,_,h.keep (by simp [hr,Phase.task]) rfl rfl ⟨rfl,⟨hp,hst,hran,hret,hfin⟩,hlast⟩ rfl rfl
        rfl rfl rfl (fun _ _ => rfl) (fun _ _ => rfl) (.inl rfl) (.inl rfl)⟩
    | some n =>
      obtain rfl : _ = s' := by simpa [taskLoop,hr,hnext] using hs
      exact ⟨_,_,_,h.keep (by simp [hr,Phase.task]) rfl rfl
        ⟨rfl,⟨hp,hst,hran,hret,hfin⟩,hnext,hlast⟩ rfl rfl rfl rfl rfl (fun _ _ => rfl)
        (fun _ _ => rfl) (.inl rfl) (.inl rfl)⟩
  | noNext t =>
    have hstage : stage t = .held r := (h.held r t).mp (by simp [hr,Phase.task])
    have hfacts := h.facts t
    rw [hstage,Facts,hr] at hfacts
    obtain ⟨-,⟨hp,hst,hran,hret,hfin⟩,-⟩ := hfacts
    obtain rfl : _ = s' := by simpa [taskLoop,hr] using hs
    exact ⟨_,_,_,h.keep (by simp [hr,Phase.task]) rfl rfl
      ⟨rfl,⟨hp,hst,hran,hret,hfin⟩,update_self _ _ _⟩ rfl rfl rfl rfl rfl
      (fun u hu => update_of_ne hu _ _) (fun _ _ => rfl) (.inl rfl) (.inl rfl)⟩
  | ready t n =>
    have hstage : stage t = .held r := (h.held r t).mp (by simp [hr,Phase.task])
    have hfacts := h.facts t
    rw [hstage,Facts,hr] at hfacts
    obtain ⟨-,⟨hp,hst,hran,hret,hfin⟩,hlink⟩ := hfacts
    obtain rfl : _ = s' := by simpa [taskLoop,hr] using hs
    have hlink' : LinkOk {s with
        ran := s.ran++[t]
        runners := update s.runners r (.running t n)} t n := by
      cases n <;> exact hlink
    exact ⟨_,_,_,h.keep (by simp [hr,Phase.task]) rfl rfl
      ⟨rfl,hp,hst,by simp,hret,hfin,hlink'⟩ rfl rfl rfl rfl rfl
      (fun _ _ => rfl) (fun _ _ => rfl) (.inr ⟨rfl,hran⟩) (.inl rfl)⟩
  | running t n =>
    cases n with
    | none =>
      obtain rfl : _ = s' := by simpa [taskLoop,hr] using hs
      exact ⟨_,_,_,h.rest hr⟩
    | some n =>
      have hstage : stage t = .held r := (h.held r t).mp (by simp [hr,Phase.task])
      have hfacts := h.facts t
      rw [hstage,Facts,hr] at hfacts
      obtain ⟨-,hp,hst,hran,hret,hfin,hlink⟩ := hfacts
      obtain rfl : _ = s' := by simpa [taskLoop,hr] using hs
      exact ⟨_,_,_,h.keep (by simp [hr,Phase.task]) rfl rfl
        ⟨rfl,hp,by simp,hran,by simp,fun _ => update_self _ _ _,hlink⟩ rfl rfl rfl rfl rfl
        (fun _ _ => rfl) (fun u hu => update_of_ne hu _ _) (.inl rfl) (.inr rfl)⟩
  | returned t n =>
    have hstage : stage t = .held r := (h.held r t).mp (by simp [hr,Phase.task])
    have hfacts := h.facts t
    rw [hstage,Facts,hr] at hfacts
    obtain ⟨-,hp,hst,hran,hret,-,hnext,hlast⟩ := hfacts
    obtain ⟨l,hB⟩ := h.head_of_active (t := t) (by rw [hstage]; trivial)
    have hlinked := h.linked (qid t)
    rw [hB] at hlinked
    obtain ⟨k,rfl⟩ : ∃ k, l = n::k := by
      have hhead := hlinked.1
      rw [hnext] at hhead
      cases l with
      | nil => simp at hhead
      | cons m k =>
        obtain rfl : n = m := by simpa using hhead
        exact ⟨k,rfl⟩
    obtain rfl : _ = s' := by simpa [taskLoop,hr] using hs
    refine ⟨_,_,_,h.handOver hB (by rw [hstage]; simp)
      ⟨hp,hst,hran,hret,fun hl => absurd hl (by simp [hlast])⟩ rfl rfl (fun _ _ => rfl) rfl rfl rfl
      rfl rfl (.inl rfl) ?_ ?_⟩
    · intro r' u
      by_cases hrr : r' = r
      · subst hrr
        simp only [update_self,hr,Phase.task,Option.some.injEq]
        constructor
        · intro hf; contradiction
        · rintro ⟨hu,rfl⟩; exact absurd rfl hu
      · simp only [update_of_ne hrr]
        refine ⟨fun hu => ⟨?_,hu⟩,And.right⟩
        rintro rfl
        have := (h.held r' u).mp hu
        rw [hstage,Stage.held.injEq] at this
        exact hrr this.symm
    · intro r' hne
      refine update_of_ne ?_ _ _
      rintro rfl
      simp [hr,Phase.task] at hne

theorem Inv.step (h : Inv qid s stage A B) {e : Event ι ρ} {s' : State ι Q ρ}
    (hs : step qid s e = some s') : ∃ stage A B, Inv qid s' stage A B := by
  cases e with
  | runner r => exact h.runner hs
  | push t =>
    simp only [TaskThreadsQ.step] at hs
    split_ifs at hs with hnew
    obtain rfl := Option.some.inj hs
    cases hB : (B (qid t)).getLast? with
    | none =>
      have hnil := List.getLast?_eq_none_iff.mp hB
      have hpush : push qid {s with
          state := update s.state t .running
          pushed := s.pushed++[t]} t = {s with
          state := update s.state t .running
          pushed := s.pushed++[t]
          queues := update s.queues (qid t) (some t)
          fifo := s.fifo++[t]} := by
        simp only [push,h.queue,hB]
      rw [hpush]
      exact ⟨_,_,_,h.pushed hnew rfl rfl rfl rfl rfl rfl rfl rfl rfl (by simp [hnil]) (by simp [hB])⟩
    | some last =>
      have hlast : last ≠ t := by
        rintro rfl
        rcases h.state_last hB with hf | hf <;> rw [hnew] at hf <;> contradiction
      have hstate : update s.state t .running last ∈ [TaskState.running,.done,.finish] := by
        rw [update_of_ne hlast]
        rcases h.state_last hB with hf | hf <;> simp [hf]
      have hpush : push qid {s with
          state := update s.state t .running
          pushed := s.pushed++[t]} t = {s with
          state := update s.state t .running
          pushed := s.pushed++[t]
          queues := update s.queues (qid t) (some t)
          next := update s.next last (some t)} := by
        simp only [push,h.queue,hB,append]
        rw [if_pos ⟨hstate,update_self _ _ _⟩]
      have hne : B (qid t) ≠ [] := by
        rintro hnil
        simp [hnil] at hB
      rw [hpush]
      exact ⟨_,_,_,h.pushed hnew rfl rfl rfl rfl rfl rfl rfl rfl rfl (by simp [hne]) (by simp [hB])⟩
  | finalise t =>
    simp only [TaskThreadsQ.step] at hs
    split_ifs at hs with hcond
    obtain ⟨hret,hnot⟩ := hcond
    obtain rfl := Option.some.inj hs
    cases hlast : s.lastInQueue t with
    | false =>
      have hfin : finalise qid s t = s := by simp [finalise,hlast]
      rw [hfin]
      exact ⟨_,_,_,h.release hret hnot hlast⟩
    | true =>
      have hstage := h.resting_of_last hret hnot hlast
      obtain ⟨l,hB⟩ := h.head_of_active (t := t) (by rw [hstage]; trivial)
      have hnext := (hB ▸ h.linked (qid t)).1
      have hfacts := h.facts t
      rw [hstage] at hfacts
      cases l with
      | nil =>
        have hfin : finalise qid s t = {s with queues := update s.queues (qid t) none} := by
          simp [finalise,hlast,hnext]
        rw [hfin]
        exact ⟨_,_,_,h.close hstage hB⟩
      | cons n k =>
        have hfin : finalise qid s t = {s with fifo := s.fifo++[n]} := by
          simp [finalise,hlast,hnext]
        rw [hfin]
        refine ⟨_,_,_,h.handOver hB (by rw [hstage]; simp)
          ⟨hfacts.1,by simp,hfacts.2.2.2.1,hret,fun _ => by simp⟩ rfl rfl
          (fun u hu => update_of_ne hu _ _) rfl rfl rfl rfl rfl (.inr ⟨rfl,hnot⟩) ?_
          fun _ _ => rfl⟩
        intro r u
        refine ⟨fun hu => ⟨?_,hu⟩,And.right⟩
        rintro rfl
        have := (h.held r u).mp hu
        rw [hstage] at this
        contradiction

end Steps

section Results

variable {qid : ι → Q} {s : State ι Q ρ} {stage : ι → Stage ρ} {A B : Q → List ι}

theorem Inv.ran_prefix (h : Inv qid s stage A B) (q : Q) :
    ofQueue qid q s.ran <+: ofQueue qid q s.pushed := by
  rw [h.ran_eq,h.split,List.prefix_append_right_inj]
  cases B q with
  | nil => simp [started]
  | cons t l => by_cases ht : t ∈ s.ran <;> simp [started,ht]

theorem Inv.ran_nodup (h : Inv qid s stage A B) : s.ran.Nodup := by
  refine List.nodup_iff_count_le_one.mpr fun t => ?_
  have hnodup : (ofQueue qid (qid t) s.ran).Nodup :=
    (h.pushed_nodup.filter _).sublist (h.ran_prefix (qid t)).sublist
  have hcount := List.nodup_iff_count_le_one.mp hnodup t
  rwa [ofQueue,List.count_filter (by simp)] at hcount

theorem Inv.ran_pushed (h : Inv qid s stage A B) {t : ι} (ht : t ∈ s.ran) : t ∈ s.pushed := by
  have hmem : t ∈ ofQueue qid (qid t) s.ran := by simp [ofQueue,ht]
  exact (List.mem_filter.mp ((h.ran_prefix (qid t)).subset hmem)).1

theorem Inv.returned_pushed (h : Inv qid s stage A B) {t : ι} (ht : t ∈ s.returned) :
    t ∈ s.pushed := by
  refine h.mem_pushed fun hstage => ?_
  have hfacts := h.facts t
  rw [hstage] at hfacts
  exact hfacts.2.2.2.2.2.1 ht

/-- What comes before a task that has left the waiting line was run to its end. -/
theorem Inv.before_active (h : Inv qid s stage A B) {u t : ι} (hut : [u,t].Sublist s.pushed)
    (hqid : qid u = qid t) (ht : (stage t).Active) : u ∈ s.returned := by
  obtain ⟨l,hB⟩ := h.head_of_active ht
  have hnodup := h.nodup_queue (qid t)
  rw [hB,List.nodup_append,List.nodup_cons] at hnodup
  have hsub : [u,t].Sublist (A (qid t)++t::l) := by
    rw [← hB,← h.split]
    simpa [ofQueue,hqid] using hut.filter fun v => decide (qid v = qid t)
  have hu : u ∈ A (qid t) := by
    obtain ⟨x,y,hxy,hx,hy⟩ := List.sublist_append_iff.mp hsub
    cases x with
    | nil =>
      obtain rfl : y = [u,t] := by simpa using hxy.symm
      cases hy with
      | cons _ hy => exact absurd (hy.subset (by simp)) hnodup.2.1.1
      | cons_cons _ hy => exact absurd (hy.subset (by simp)) hnodup.2.1.1
    | cons v x =>
      rw [List.cons_append,List.cons.injEq] at hxy
      obtain ⟨rfl,-⟩ := hxy
      exact hx.subset (by simp)
  have hfacts := h.facts u
  rw [h.handed _ u hu] at hfacts
  exact hfacts.2.2.2.1

theorem Inv.not_closed (h : Inv qid s stage A B) {q : Q} {t : ι} (ht : t ∈ B q)
    (hlast : s.lastInQueue t = true) : t ∉ s.finalised := by
  have hstage := h.stage_of_mem ht
  have hfacts := h.facts t
  cases hs : stage t with
  | unpushed => rw [hs] at hstage; simp [Stage.Active] at hstage
  | past => rw [hs] at hstage; simp [Stage.Active] at hstage
  | waiting => rw [hs] at hfacts; exact hfacts.1.not_finalised
  | queued => rw [hs] at hfacts; exact hfacts.1.not_finalised
  | resting => rw [hs] at hfacts; exact hfacts.2.2.2.2.2
  | held r =>
    rw [hs,Facts] at hfacts
    cases hphase : s.runners r <;> rw [hphase] at hfacts <;> simp only [Holding] at hfacts
    · exact hfacts.2.1.not_finalised
    · exact hfacts.2.1.not_finalised
    · exact hfacts.2.1.not_finalised
    · exact hfacts.2.2.2.2.2.1
    · rw [LinkOk,hlast] at hfacts
      simp at hfacts

theorem Inv.queues_eq (h : Inv qid s stage A B) (q : Q) : s.queues q =
    (ofQueue qid q s.pushed).getLast?.filter fun t => !(s.lastInQueue t && t ∈ s.finalised) := by
  rw [h.queue,h.split]
  cases hl : (B q).getLast? with
  | none =>
    have hnil := List.getLast?_eq_none_iff.mp hl
    rw [hnil,List.append_nil]
    cases ha : (A q).getLast? with
    | none => rfl
    | some a =>
      obtain ⟨hlast,hfin⟩ := h.closed q hnil a ha
      simp [Option.filter,hlast,hfin]
  | some t =>
    have hne : B q ≠ [] := by
      intro hnil
      simp [hnil] at hl
    have hopen : (s.lastInQueue t && decide (t ∈ s.finalised)) = false := by
      cases hlast : s.lastInQueue t with
      | false => rfl
      | true => simpa using h.not_closed (List.mem_of_mem_getLast? hl) hlast
    rw [List.getLast?_append_of_ne_nil _ hne,hl,Option.filter_some_pos (by rw [hopen]; rfl)]

def phaseWork : Phase ι → ℕ
  | .idle => 4
  | .loaded _ => 3
  | .noNext _ => 2
  | .ready _ _ => 1
  | .running _ _ => 8
  | .returned _ _ => 5

def work [Fintype ρ] (s : State ι Q ρ) : ℕ :=
  10*(s.pushed.length-s.ran.length)+∑ r, phaseWork (s.runners r)+
    (s.pushed.length-s.finalised.length)

theorem Inv.ran_length_le (h : Inv qid s stage A B) : s.ran.length ≤ s.pushed.length :=
  (List.subperm_of_subset h.ran_nodup fun _ ht => h.ran_pushed ht).length_le

theorem Inv.finalised_length_le (h : Inv qid s stage A B) : s.finalised.length ≤ s.pushed.length :=
  (List.subperm_of_subset h.finalised_nodup
    fun _ ht => h.returned_pushed (h.finalised_returned _ ht)).length_le

theorem sum_phaseWork [Fintype ρ] (runners : ρ → Phase ι) (r : ρ) (phase : Phase ι) :
    ∑ r', phaseWork (update runners r phase r')+phaseWork (runners r) =
      ∑ r', phaseWork (runners r')+phaseWork phase := by
  rw [← Finset.add_sum_erase _ _ (Finset.mem_univ r),← Finset.add_sum_erase _ _ (Finset.mem_univ r)]
  have hrest : ∑ r' ∈ Finset.univ.erase r, phaseWork (update runners r phase r') =
      ∑ r' ∈ Finset.univ.erase r, phaseWork (runners r') := by
    refine Finset.sum_congr rfl fun r' hr' => ?_
    rw [update_of_ne (Finset.ne_of_mem_erase hr')]
  rw [hrest,update_self]
  omega

/-- Every step but a push uses up some of the work. -/
theorem Inv.work_lt [Fintype ρ] (h : Inv qid s stage A B) {e : Event ι ρ} {s' : State ι Q ρ}
    (he : e.isPush = false) (hs : TaskThreadsQ.step qid s e = some s') : work s' < work s := by
  obtain ⟨stage',A',B',h'⟩ := h.step hs
  have hran := h'.ran_length_le
  have hfin := h'.finalised_length_le
  cases e with
  | push t => contradiction
  | finalise t =>
    simp only [TaskThreadsQ.step] at hs
    split_ifs at hs with hcond
    obtain rfl := Option.some.inj hs
    have hfields : (finalise qid s t).pushed = s.pushed ∧ (finalise qid s t).ran = s.ran ∧
        (finalise qid s t).runners = s.runners := by
      simp only [finalise]
      split_ifs
      · cases s.next t <;> exact ⟨rfl,rfl,rfl⟩
      · exact ⟨rfl,rfl,rfl⟩
    obtain ⟨hp,hr,hrun⟩ := hfields
    simp only [work,hp,hr,hrun,List.length_append,List.length_singleton] at hfin ⊢
    omega
  | runner r =>
    have hsum := sum_phaseWork s.runners r
    cases hr : s.runners r with
    | idle =>
      cases hfifo : s.fifo with
      | nil => simp [TaskThreadsQ.step,taskLoop,hr,hfifo] at hs
      | cons t fifo =>
        obtain rfl : _ = s' := by simpa [TaskThreadsQ.step,taskLoop,hr,hfifo] using hs
        have := hsum (.loaded t)
        simp only [work,hr,phaseWork] at this ⊢
        omega
    | loaded t =>
      cases hnext : s.next t with
      | none =>
        obtain rfl : _ = s' := by simpa [TaskThreadsQ.step,taskLoop,hr,hnext] using hs
        have := hsum (.noNext t)
        simp only [work,hr,phaseWork] at this ⊢
        omega
      | some n =>
        obtain rfl : _ = s' := by simpa [TaskThreadsQ.step,taskLoop,hr,hnext] using hs
        have := hsum (.ready t (some n))
        simp only [work,hr,phaseWork] at this ⊢
        omega
    | noNext t =>
      obtain rfl : _ = s' := by simpa [TaskThreadsQ.step,taskLoop,hr] using hs
      have := hsum (.ready t none)
      simp only [work,hr,phaseWork] at this ⊢
      omega
    | ready t n =>
      obtain rfl : _ = s' := by simpa [TaskThreadsQ.step,taskLoop,hr] using hs
      have := hsum (.running t n)
      simp only [work,hr,phaseWork,List.length_append,List.length_singleton] at this hran ⊢
      omega
    | running t n =>
      cases n with
      | none =>
        obtain rfl : _ = s' := by simpa [TaskThreadsQ.step,taskLoop,hr] using hs
        have := hsum .idle
        simp only [work,hr,phaseWork] at this ⊢
        omega
      | some n =>
        obtain rfl : _ = s' := by simpa [TaskThreadsQ.step,taskLoop,hr] using hs
        have := hsum (.returned t n)
        simp only [work,hr,phaseWork] at this ⊢
        omega
    | returned t n =>
      obtain rfl : _ = s' := by simpa [TaskThreadsQ.step,taskLoop,hr] using hs
      have := hsum .idle
      simp only [work,hr,phaseWork] at this ⊢
      omega

theorem Inv.steps_le [Fintype ρ] (h : Inv qid s stage A B) {es : List (Event ι ρ)}
    {s' : State ι Q ρ} (hes : ∀ e ∈ es, e.isPush = false) (hs : exec (TaskThreadsQ.step qid) s es = some s') :
    es.length+work s' ≤ work s := by
  induction es generalizing s stage A B with
  | nil =>
    obtain rfl : s = s' := by simpa [exec] using hs
    simp
  | cons e es ih =>
    obtain ⟨u,hu,hrest⟩ := Option.bind_eq_some_iff.mp hs
    obtain ⟨stage',A',B',h'⟩ := h.step hu
    have hlt := h.work_lt (hes e (by simp)) hu
    have := ih h' (fun e' he' => hes e' (by simp [he'])) hrest
    rw [List.length_cons]
    omega

theorem idle_of_taskLoop {r : ρ} (hs : taskLoop s r = none) :
    s.runners r = .idle ∧ s.fifo = [] := by
  cases hr : s.runners r with
  | idle =>
    cases hfifo : s.fifo with
    | nil => exact ⟨rfl,rfl⟩
    | cons t fifo => simp [taskLoop,hr,hfifo] at hs
  | loaded t => cases hnext : s.next t <;> simp [taskLoop,hr,hnext] at hs
  | noNext t => simp [taskLoop,hr] at hs
  | ready t n => simp [taskLoop,hr] at hs
  | running t n => cases n <;> simp [taskLoop,hr] at hs
  | returned t n => simp [taskLoop,hr] at hs

theorem Inv.all_ran [Nonempty ρ] (h : Inv qid s stage A B)
    (hs : ∀ e : Event ι ρ, e.isPush = false → TaskThreadsQ.step qid s e = none) {t : ι} (ht : t ∈ s.pushed) :
    t ∈ s.ran := by
  have hidle (r : ρ) := idle_of_taskLoop (hs (.runner r) rfl)
  have hmem : t ∈ A (qid t)++B (qid t) := by
    rw [← h.split]
    simp [ofQueue,ht]
  cases hB : B (qid t) with
  | nil =>
    rw [hB,List.append_nil] at hmem
    have hfacts := h.facts t
    rw [h.handed _ t hmem] at hfacts
    exact hfacts.2.2.1
  | cons u l =>
    have hhead := (h.head _ u l hB).1
    exfalso
    cases hstage : stage u with
    | unpushed => rw [hstage] at hhead; exact hhead
    | waiting => rw [hstage] at hhead; exact hhead
    | past => rw [hstage] at hhead; exact hhead
    | queued =>
      have hfifo := (h.queued u).mpr hstage
      rw [(hidle (Classical.arbitrary ρ)).2] at hfifo
      simp at hfifo
    | held r =>
      have hheld := (h.held r u).mpr hstage
      rw [(hidle r).1] at hheld
      simp [Phase.task] at hheld
    | resting =>
      have hfacts := h.facts u
      rw [hstage] at hfacts
      have hfin := hs (.finalise u) rfl
      simp [TaskThreadsQ.step,hfacts.2.2.2.2.1,hfacts.2.2.2.2.2] at hfin

end Results

theorem Inv.start (qid : ι → Q) :
    Inv qid (start : State ι Q ρ) (fun _ => .unpushed) (fun _ => []) fun _ => [] := by
  refine ⟨fun t => by simp [Facts,TaskThreadsQ.start],?_,?_,?_,?_,?_,?_,?_,?_,?_,?_,?_,?_,?_⟩ <;>
    simp [TaskThreadsQ.start,Phase.task,ofQueue,Linked,started]

theorem reaches_inv {qid : ι → Q} {s : State ι Q ρ}
    (hs : Reaches (step qid) (fun _ _ => True) (fun s => s = start) s) :
    ∃ stage A B, Inv qid s stage A B := by
  refine hs.invariant (fun s => ∃ stage A B, Inv qid s stage A B) ?_ ?_
  · rintro _ rfl
    exact ⟨_,_,_,Inv.start qid⟩
  · rintro s e t ⟨stage,A,B,h⟩ - ht
    exact h.step ht

/-- Tasks of a queue are run once, in the order they were pushed, each after its
predecessor, however the manager and the runners take turns; and when neither has
anything left to do, which is so after some steps without a push, all were run. -/
theorem runs_once_in_order {n : ℕ} {qid : ι → Q} {s : State ι Q (Fin (n+1))}
    (hs : Reaches (step qid) (fun _ _ => True) (fun s => s = start) s) :
    s.ran.Nodup ∧
    (∀ q, ofQueue qid q s.ran <+: ofQueue qid q s.pushed) ∧
    (∀ u t, [u,t].Sublist s.pushed → qid u = qid t →
      (t ∈ s.fifo ∨ ∃ r, (s.runners r).task = some t) → u ∈ s.returned) ∧
    (s.fifo.Nodup ∧ (∀ t ∈ s.fifo, ∀ r, (s.runners r).task ≠ some t) ∧
      ∀ r r' t, (s.runners r).task = some t → (s.runners r').task = some t → r = r') ∧
    (∀ q, s.queues q = (ofQueue qid q s.pushed).getLast?.filter fun t =>
      !(s.lastInQueue t && t ∈ s.finalised)) ∧
    (∃ bound, ∀ es t, (∀ e ∈ es, e.isPush = false) → exec (step qid) s es = some t →
      es.length ≤ bound) ∧
    ((∀ e, e.isPush = false → step qid s e = none) → ∀ t ∈ s.pushed, t ∈ s.ran) := by
  obtain ⟨stage,A,B,h⟩ := reaches_inv hs
  refine ⟨h.ran_nodup,h.ran_prefix,?_,⟨h.fifo_nodup,?_,?_⟩,h.queues_eq,⟨work s,?_⟩,
    fun hdone t ht => h.all_ran hdone ht⟩
  · rintro u t hut hqid (hfifo | ⟨r,hr⟩)
    · exact h.before_active hut hqid (by rw [(h.queued t).mp hfifo]; trivial)
    · exact h.before_active hut hqid (by rw [(h.held r t).mp hr]; trivial)
  · intro t ht r hr
    have hstage := (h.queued t).mp ht
    rw [(h.held r t).mp hr] at hstage
    contradiction
  · intro r r' t hr hr'
    have hstage := (h.held r t).mp hr
    rw [(h.held r' t).mp hr',Stage.held.injEq] at hstage
    exact hstage.symm
  · intro es t hes ht
    have := h.steps_le hes ht
    omega

/-- The second task is pushed after the runner has seen the first one without a
successor, and before it has said so. -/
theorem runs_once_in_order_race : ∃ s : State ℕ ℕ (Fin 2), s.pushed = [0,1] ∧ s.ran = [0] ∧
    s.fifo = [1] ∧ s.queues 7 = (ofQueue (fun _ => 7) 7 s.pushed).getLast?.filter
      fun t => !(s.lastInQueue t && t ∈ s.finalised) := by
  obtain ⟨s,hs,hpushed,hran,hfifo⟩ : ∃ s, exec (step fun _ => 7) (start : State ℕ ℕ (Fin 2))
      [.push 0,.runner 1,.runner 1,.push 1,.runner 1,.runner 1,.runner 1,.finalise 0] = some s ∧
      s.pushed = [0,1] ∧ s.ran = [0] ∧ s.fifo = [1] := ⟨_,rfl,rfl,rfl,rfl⟩
  have hstart : Reaches (step fun _ => 7) (fun _ _ => True) (fun s => s = start)
    (start : State ℕ ℕ (Fin 2)) := .init rfl
  have h := runs_once_in_order (hstart.exec (fun _ _ => trivial) hs)
  exact ⟨s,hpushed,hran,hfifo,h.2.2.2.2.1 7⟩

end TaskThreadsQ
end DirectFB
