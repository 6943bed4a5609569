import DirectFB.TaskRun

/-! Tasks that wait for others. A task is blocked as often as others have an entry for it, and an
entry is erased when its task is unblocked. -/
set_option linter.unusedSectionVars false
namespace DirectFB.TaskNotify
open Transition TaskManager TaskRun

variable {ι σ α : Type*} [DecidableEq ι]

def named (l : List (ι × TaskState)) (t : ι) : ℕ := l.countP fun e => e.1 = t

def phase : TaskState → TaskState
  | .done => .running
  | .dead | .invalid => .finish
  | state => state

section Manager
variable {m u : TaskManager.State ι σ} {t p x : ι} {k : TaskState} {i : ℕ}

def line (m : TaskManager.State ι σ) : List ι :=
  (match m.control with
    | .handle t => [t]
    | .setup t _ _ => [t]
    | _ => [])++m.fifo

def Emitted (m : TaskManager.State ι σ) (t : ι) : Prop :=
  phase (m.task t).state = .running ∨ phase (m.task t).state = .finish

def Counts (m : TaskManager.State ι σ) : Prop :=
  ∃ S : Finset ι, (∀ p ∉ S, (m.task p).notifies = []) ∧
    ∀ t, (m.task t).blockCount = ∑ p ∈ S, named (m.task p).notifies t

def Ahead (m : TaskManager.State ι σ) (p x : ι) : Prop :=
  (m.task x).state = .ready ∨ (m.task x).state = .new ∧ (m.task p).state = .new ∨
    (m.task x).state = .flushed ∧ ((m.task p).state = .new ∨
      (m.task p).state = .flushed ∧ [x,p].Sublist (line m) ∨
      ∃ calls ok, m.control = .setup x calls ok)

theorem count_line (m : TaskManager.State ι σ) (x : ι) :
    (line m).count x = (TaskRun.queue m).count x := by
  unfold line TaskRun.queue
  rw [List.count_append,List.count_append]
  exact Nat.add_comm ..

theorem addEntry_task (m : TaskManager.State ι σ) (p x y : ι) (k : TaskState) :
    ((addEntry m p x k).task y).notifies = (m.task y).notifies++(if y = p then [(x,k)] else []) ∧
    ((addEntry m p x k).task y).blockCount = (m.task y).blockCount+(if y = x then 1 else 0) := by
  unfold addEntry
  dsimp only
  rw [modify_task,modify_task]
  by_cases hx : y = x
  · by_cases hp : y = p
    · rw [if_pos hx,if_pos hp,if_pos hp,if_pos hx]
      exact ⟨rfl,rfl⟩
    · rw [if_pos hx,if_neg hp,if_neg hp,if_pos hx,List.append_nil]
      exact ⟨rfl,rfl⟩
  · by_cases hp : y = p
    · rw [if_neg hx,if_pos hp,if_pos hp,if_neg hx]
      exact ⟨rfl,rfl⟩
    · rw [if_neg hx,if_neg hp,if_neg hp,if_neg hx,List.append_nil]
      exact ⟨rfl,rfl⟩

theorem named_append (l l' : List (ι × TaskState)) (t : ι) :
    named (l++l') t = named l t+named l' t := List.countP_append

theorem Counts.addEntry (h : Counts m) (p x : ι) (k : TaskState) : Counts (addEntry m p x k) := by
  obtain ⟨S,hS,hcount⟩ := h
  refine ⟨insert p S,fun q hq => ?_,fun t => ?_⟩
  · obtain ⟨hqp,hqS⟩ := not_or.mp fun hor => hq (Finset.mem_insert.mpr hor)
    rw [(addEntry_task m p x q k).1,if_neg hqp,hS q hqS]
    rfl
  · have hentry : ∀ q, named ((TaskManager.addEntry m p x k).task q).notifies t =
        named (m.task q).notifies t+if q = p then (if t = x then 1 else 0) else 0 := by
      intro q
      rw [(addEntry_task m p x q k).1,named_append]
      by_cases hq : q = p
      · rw [if_pos hq,if_pos hq]
        by_cases ht : t = x
        · simp [named,ht]
        · simp [named,ht,Ne.symm ht]
      · rw [if_neg hq,if_neg hq]
        rfl
    have hsame : ∑ q ∈ insert p S, named (m.task q).notifies t =
        ∑ q ∈ S, named (m.task q).notifies t := by
      refine (Finset.sum_subset (Finset.subset_insert p S) fun q _ hq => ?_).symm
      rw [hS q hq]
      rfl
    simp only [hentry]
    rw [Finset.sum_add_distrib,hsame,Finset.sum_ite_eq',if_pos (Finset.mem_insert_self p S),
      ← hcount,(addEntry_task m p x t k).2]

theorem Counts.none (h : Counts m) (ht : (m.task t).blockCount = 0) (p : ι) (k : TaskState) :
    (t,k) ∉ (m.task p).notifies := by
  obtain ⟨S,hS,hcount⟩ := h
  intro hin
  rw [hcount] at ht
  have hpS : p ∈ S := by
    by_contra hp
    rw [hS p hp] at hin
    cases hin
  have hzero := Finset.sum_eq_zero_iff.mp ht p hpS
  exact List.countP_eq_zero.mp hzero (t,k) hin (decide_eq_true rfl)

theorem Counts.congr (h : Counts m) (hnotifies : ∀ p, (u.task p).notifies = (m.task p).notifies)
    (hblock : ∀ t, (u.task t).blockCount = (m.task t).blockCount) : Counts u := by
  obtain ⟨S,hS,hcount⟩ := h
  refine ⟨S,fun p hp => (hnotifies p).trans (hS p hp),fun t => ?_⟩
  simp only [hnotifies]
  exact (hblock t).trans (hcount t)

theorem eraseEntry_notifies (m : TaskManager.State ι σ) (p y : ι) (i : ℕ) :
    ((eraseEntry m p i).task y).notifies =
      if y = p then (m.task y).notifies.eraseIdx i else (m.task y).notifies := by
  unfold eraseEntry
  rw [modify_task]
  split_ifs <;> rfl

theorem eraseEntry_keeps {β : Type*} (g : Task ι → β)
    (hg : ∀ (task : Task ι) l, g {task with notifies := l} = g task) (m : TaskManager.State ι σ)
    (p y : ι) (i : ℕ) : g ((eraseEntry m p i).task y) = g (m.task y) :=
  modify_keeps g m p y (f := fun task => {task with notifies := task.notifies.eraseIdx i})
    fun task => hg task _

theorem unblock_keeps {β : Type*} (g : Task ι → β)
    (hg : ∀ (task : Task ι) n, g {task with blockCount := n} = g task) (m : TaskManager.State ι σ)
    (x y : ι) : g ((unblock m x).task y) = g (m.task y) :=
  modify_keeps g m x y (f := fun task => {task with blockCount := decrement task.blockCount})
    fun task => hg task _

theorem named_eraseIdx {l : List (ι × TaskState)} (hl : l[i]? = some (x,k)) (t : ι) :
    named l t = named (l.eraseIdx i) t+if t = x then 1 else 0 := by
  obtain ⟨hi,hget⟩ := List.getElem?_eq_some_iff.mp hl
  have hperm := List.getElem_cons_eraseIdx_perm hi
  rw [hget] at hperm
  refine (hperm.countP_eq _).symm.trans ?_
  by_cases ht : t = x
  · simp [named,ht]
  · simp [named,ht,Ne.symm ht]

/-- An entry is erased, and its task is blocked by one less. -/
theorem Counts.erase (h : Counts m) (hentry : (m.task p).notifies[i]? = some (x,k)) :
    Counts (unblock (eraseEntry m p i) x) ∧
      ∀ y, ((unblock (eraseEntry m p i) x).task y).blockCount+(if y = x then 1 else 0) =
        (m.task y).blockCount := by
  obtain ⟨S,hS,hcount⟩ := h
  have hpS : p ∈ S := by
    by_contra hp
    rw [hS p hp] at hentry
    cases hentry
  have hnotifies : ∀ y, ((unblock (eraseEntry m p i) x).task y).notifies =
      if y = p then (m.task y).notifies.eraseIdx i else (m.task y).notifies := by
    intro y
    rw [← eraseEntry_notifies]
    exact modify_keeps Task.notifies _ x y fun _ => rfl
  have hsum : ∀ y, ∑ q ∈ S, named (m.task q).notifies y =
      ∑ q ∈ S, named ((unblock (eraseEntry m p i) x).task q).notifies y+if y = x then 1 else 0 := by
    intro y
    have hone : ∀ q, named (m.task q).notifies y =
        named ((unblock (eraseEntry m p i) x).task q).notifies y+
          if q = p then (if y = x then 1 else 0) else 0 := by
      intro q
      rw [hnotifies]
      by_cases hq : q = p
      · subst hq
        rw [if_pos rfl,if_pos rfl]
        exact named_eraseIdx hentry y
      · rw [if_neg hq,if_neg hq]
        rfl
    simp only [hone]
    rw [Finset.sum_add_distrib,Finset.sum_ite_eq',if_pos hpS]
  have hblock : ∀ y, ((unblock (eraseEntry m p i) x).task y).blockCount+(if y = x then 1 else 0) =
      (m.task y).blockCount := by
    intro y
    have herase : ((eraseEntry m p i).task y).blockCount = (m.task y).blockCount :=
      modify_keeps Task.blockCount m p y fun _ => rfl
    unfold unblock
    rw [modify_task]
    by_cases hy : y = x
    · subst hy
      rw [if_pos rfl,if_pos rfl]
      change decrement ((eraseEntry m p i).task y).blockCount+1 = _
      have hpos : 0 < (m.task y).blockCount := by
        rw [hcount,hsum,if_pos rfl]
        exact Nat.succ_pos _
      rw [herase,decrement,if_neg (Nat.ne_of_gt hpos)]
      exact Nat.succ_pred_eq_of_pos hpos
    · rw [if_neg hy,if_neg hy]
      exact herase
  refine ⟨⟨S,fun q hq => ?_,fun y => ?_⟩,hblock⟩
  · rw [hnotifies,hS q hq]
    split_ifs <;> rfl
  · refine Nat.add_right_cancel (m := if y = x then 1 else 0) ?_
    rw [hblock,hcount,hsum]

def bonds (m : TaskManager.State ι σ) : ι → List (ι × TaskState) × ℕ × Bool × Bool × Option ι :=
  fun t => ((m.task t).notifies,(m.task t).blockCount,(m.task t).waitingTimedEmit,
    (m.task t).emitNotifies,(m.task t).master)

theorem bonds_eq (h : bonds u = bonds m) (t : ι) : (u.task t).notifies = (m.task t).notifies ∧
    (u.task t).blockCount = (m.task t).blockCount ∧
    (u.task t).waitingTimedEmit = (m.task t).waitingTimedEmit ∧
    (u.task t).emitNotifies = (m.task t).emitNotifies ∧ (u.task t).master = (m.task t).master := by
  have ht := congrFun h t
  simp only [bonds,Prod.mk.injEq] at ht
  exact ht

def Due (m : TaskManager.State ι σ) (p : ι) (k : TaskState) : Prop :=
  k = .running ∧ Emitted m p ∨ k = .finish ∧
    ((m.task p).emitNotifies ∧ phase (m.task p).state = .running ∨ (.shutdown,p) ∈ m.log)

def Below : Frame ι → Frame ι → Prop
  | .notifyAll p _ _,.notifyAll q _ i => p = q → i = 0
  | _,_ => True

/-- Entries block ready tasks, or tasks that will be ready in time, and those that are due are yet
to be found by a loop. A task that nothing blocks is about to be emitted. -/
structure Wake (m : TaskManager.State ι σ) : Prop where
  count : Counts m
  ahead : ∀ p x k, (x,k) ∈ (m.task p).notifies → Ahead m p x
  entry : ∀ p x k, (x,k) ∈ (m.task p).notifies → x ≠ p ∧ (m.task p).master = none ∧
    (m.task x).master = none ∧ (k = .running ∨ k = .finish)
  due : ∀ p x k, (x,k) ∈ (m.task p).notifies → Due m p k → ∃ i, .notifyAll p k i ∈ m.stack
  frame : ∀ p k i, .notifyAll p k i ∈ m.stack →
    Emitted m p ∧ ∀ e ∈ (m.task p).notifies.take i, e.2 ≠ k
  below : m.stack.Pairwise Below
  ready : ∀ t, (m.task t).state = .ready → (m.task t).blockCount = 0 →
    (m.task t).waitingTimedEmit = false → .checkEmit t ∈ m.stack
  dead : ∀ p, (m.task p).state = .dead → (m.task p).notifies = []

theorem phase_eq {s : TaskState} (hk : k = .new ∨ k = .flushed ∨ k = .ready) :
    phase s = k ↔ s = k := by
  obtain rfl | rfl | rfl := hk
  all_goals cases s <;> decide

/-- A step that leaves the bonds, and does not get a task from one phase to another. -/
structure Alike (m u : TaskManager.State ι σ) : Prop where
  bonds : bonds u = bonds m
  phase : ∀ t, phase (u.task t).state = phase (m.task t).state
  line : ∀ x p, [x,p].Sublist (line m) → [x,p].Sublist (line u)
  setup : ∀ x calls ok, m.control = .setup x calls ok → ∃ calls ok, u.control = .setup x calls ok
  log : ∀ p, (.shutdown,p) ∈ u.log → (.shutdown,p) ∈ m.log

theorem Ahead.congr (h : Ahead m p x)
    (hx : phase (u.task x).state = phase (m.task x).state)
    (hp : phase (u.task p).state = phase (m.task p).state)
    (hline : [x,p].Sublist (line m) → [x,p].Sublist (line u))
    (hsetup : ∀ calls ok, m.control = .setup x calls ok →
      ∃ calls ok, u.control = .setup x calls ok) : Ahead u p x := by
  have hstate : ∀ y, phase (u.task y).state = phase (m.task y).state → ∀ k : TaskState,
      k = .new ∨ k = .flushed ∨ k = .ready → ((u.task y).state = k ↔ (m.task y).state = k) := by
    intro y hy k hk
    rw [← phase_eq hk,hy,phase_eq hk]
  unfold Ahead at h ⊢
  rw [hstate x hx .ready (.inr (.inr rfl)),hstate x hx .new (.inl rfl),
    hstate x hx .flushed (.inr (.inl rfl)),hstate p hp .new (.inl rfl),
    hstate p hp .flushed (.inr (.inl rfl))]
  refine h.imp_right (Or.imp_right fun hand => ⟨hand.1,hand.2.imp_right (Or.imp ?_ ?_)⟩)
  · exact fun hsub => ⟨hsub.1,hline hsub.2⟩
  · exact fun ⟨calls,ok,hc⟩ => hsetup calls ok hc

theorem Wake.alike (h : Wake m) (hu : Alike m u) (hstack : u.stack = m.stack)
    (hdead : ∀ p, (u.task p).state = .dead → (m.task p).state = .dead ∨ (m.task p).notifies = []) :
    Wake u := by
  have hbonds := bonds_eq hu.bonds
  have hemitted : ∀ p, Emitted u p ↔ Emitted m p := fun p => by
    unfold Emitted
    rw [hu.phase]
  refine ⟨h.count.congr (fun p => (hbonds p).1) fun t => (hbonds t).2.1,fun p x k hx => ?_,
    fun p x k hx => ?_,fun p x k hx hdue => ?_,fun p k i hi => ?_,?_,fun t hs hb hw => ?_,
    fun p hp => ?_⟩
  · rw [(hbonds p).1] at hx
    exact (h.ahead p x k hx).congr (hu.phase x) (hu.phase p) (hu.line x p) (hu.setup x)
  · rw [(hbonds p).1] at hx
    rw [(hbonds p).2.2.2.2,(hbonds x).2.2.2.2]
    exact h.entry p x k hx
  · rw [(hbonds p).1] at hx
    rw [hstack]
    refine h.due p x k hx (hdue.imp (And.imp_right (hemitted p).mp) (And.imp_right ?_))
    rw [(hbonds p).2.2.2.1,hu.phase]
    exact Or.imp_right (hu.log p)
  · rw [hstack] at hi
    rw [hemitted,(hbonds p).1]
    exact h.frame p k i hi
  · rw [hstack]
    exact h.below
  · rw [(hbonds t).2.1] at hb
    rw [(hbonds t).2.2.1] at hw
    rw [hstack]
    refine h.ready t ?_ hb hw
    rw [← phase_eq (.inr (.inr rfl)),← hu.phase,hs]
    rfl
  · rw [(hbonds p).1]
    exact (hdead p hp).elim (h.dead p) id

theorem Wake.not_due (h : Wake m) (hstack : m.stack = []) (hx : (x,k) ∈ (m.task p).notifies) :
    ¬Due m p k := by
  intro hdue
  obtain ⟨i,hi⟩ := h.due p x k hx hdue
  rw [hstack] at hi
  cases hi

theorem Wake.named_state (h : Wake m) (hx : (x,k) ∈ (m.task p).notifies) :
    (m.task x).state = .new ∨ (m.task x).state = .flushed ∨ (m.task x).state = .ready :=
  (h.ahead p x k hx).elim (fun hr => .inr (.inr hr)) fun h =>
    h.imp And.left fun h => .inl h.1

theorem Wake.no_ready (h : Wake m) (hstack : m.stack = []) (hs : (m.task t).state = .ready)
    (hb : (m.task t).blockCount = 0) : (m.task t).waitingTimedEmit ≠ false := by
  intro hw
  have hin := h.ready t hs hb hw
  rw [hstack] at hin
  cases hin

/-- A frame is done with, or goes on. -/
theorem Wake.popped (h : Wake m) {frame : Frame ι} {stack stack' : List (Frame ι)}
    (hstack : m.stack = frame::stack)
    (hdue : ∀ p x k i, (x,k) ∈ (m.task p).notifies → frame = .notifyAll p k i →
      ∃ i, .notifyAll p k i ∈ stack')
    (hold : ∀ f ∈ stack, f ∈ stack')
    (hnew : ∀ p k i, .notifyAll p k i ∈ stack' → Emitted m p ∧
      ∀ e ∈ (m.task p).notifies.take i, e.2 ≠ k)
    (hbelow : stack'.Pairwise Below)
    (hready : ∀ t, frame = .checkEmit t → ¬((m.task t).state = .ready ∧
      (m.task t).blockCount = 0 ∧ (m.task t).waitingTimedEmit = false)) :
    Wake {m with stack := stack'} := by
  refine ⟨h.count,h.ahead,h.entry,fun p x k hx hd => ?_,hnew,hbelow,fun t hs hb hw => ?_,h.dead⟩
  · obtain ⟨i,hi⟩ := h.due p x k hx hd
    rw [hstack] at hi
    obtain hi | hi := List.mem_cons.mp hi
    · exact hdue p x k i hx hi.symm
    · exact ⟨i,hold _ hi⟩
  · have hin := h.ready t hs hb hw
    rw [hstack] at hin
    obtain hin | hin := List.mem_cons.mp hin
    · exact absurd ⟨hs,hb,hw⟩ (hready t hin.symm)
    · exact hold _ hin

theorem Wake.noEmit (h : Wake m) {stack : List (Frame ι)} (hstack : m.stack = .checkEmit t::stack)
    (hno : ¬((m.task t).state = .ready ∧ (m.task t).blockCount = 0 ∧
      (m.task t).waitingTimedEmit = false)) : Wake {m with stack := stack} := by
  refine h.popped hstack (fun p x k i _ heq => by cases heq) (fun f hf => hf) (fun p k i hi => ?_)
    ?_ fun y heq => ?_
  · exact h.frame p k i (by rw [hstack]; exact List.mem_cons_of_mem _ hi)
  · have hbelow := h.below
    rw [hstack] at hbelow
    exact hbelow.of_cons
  · obtain rfl := Frame.checkEmit.inj heq
    exact hno

theorem Wake.notified (h : Wake m) {stack : List (Frame ι)}
    (hstack : m.stack = .notifyAll t k i::stack) (hnone : (m.task t).notifies[i]? = none) :
    Wake {m with stack := stack} := by
  refine h.popped hstack (fun p x k' j hx heq => ?_) (fun f hf => hf) (fun p k j hj => ?_)
    ?_ fun y heq => by cases heq
  · obtain ⟨rfl,rfl,rfl⟩ := Frame.notifyAll.inj heq
    have hframe := (h.frame t k i (by rw [hstack]; exact List.mem_cons_self)).2
    rw [List.take_of_length_le (List.getElem?_eq_none_iff.mp hnone)] at hframe
    exact absurd rfl (hframe (x,k) hx)
  · exact h.frame p k j (by rw [hstack]; exact List.mem_cons_of_mem _ hj)
  · have hbelow := h.below
    rw [hstack] at hbelow
    exact hbelow.of_cons

theorem Wake.skip (h : Wake m) {stack : List (Frame ι)} {k' : TaskState}
    (hstack : m.stack = .notifyAll t k i::stack) (hsome : (m.task t).notifies[i]? = some (x,k'))
    (hk : k' ≠ k) : Wake {m with stack := .notifyAll t k (i+1)::stack} := by
  refine h.popped hstack (fun p y k' j _ heq => ?_) (fun f hf => List.mem_cons_of_mem _ hf)
    (fun p k' j hj => ?_) ?_ fun y heq => by cases heq
  · obtain ⟨rfl,rfl,-⟩ := Frame.notifyAll.inj heq
    exact ⟨i+1,List.mem_cons_self⟩
  · obtain hj | hj := List.mem_cons.mp hj
    · obtain ⟨rfl,rfl,rfl⟩ := Frame.notifyAll.inj hj
      obtain ⟨hemitted,htake⟩ := h.frame p k' i (by rw [hstack]; exact List.mem_cons_self)
      refine ⟨hemitted,fun e he => ?_⟩
      rw [List.take_add_one,hsome] at he
      obtain he | he := List.mem_append.mp he
      · exact htake e he
      · obtain rfl := List.mem_singleton.mp he
        exact hk
    · exact h.frame p k' j (by rw [hstack]; exact List.mem_cons_of_mem _ hj)
  · have hbelow := h.below
    rw [hstack] at hbelow
    obtain ⟨htop,hrest⟩ := List.pairwise_cons.mp hbelow
    refine List.pairwise_cons.mpr ⟨fun f hf => ?_,hrest⟩
    have htop := htop f hf
    cases f with
    | checkEmit _ => trivial
    | notifyAll _ _ _ => exact htop

theorem handleNotify_ready (ht : (m.task t).state = .ready) : handleNotify m t = {unblock m t with
    stack := if ((unblock m t).task t).blockCount = 0 then .checkEmit t::m.stack else m.stack} := by
  unfold handleNotify
  rw [if_pos ht]
  dsimp only
  split_ifs <;> rfl

/-- The entry that is notified names a ready task. -/
theorem Wake.notified_ready (h : Wake m) (hstarting : Starting m) {stack : List (Frame ι)}
    (hstack : m.stack = .notifyAll p k i::stack) (hx : (x,k) ∈ (m.task p).notifies) :
    (m.task x).state = .ready := by
  have hemitted := (h.frame p k i (by rw [hstack]; exact List.mem_cons_self)).1
  have hnew : (m.task p).state ≠ .new := fun hp => by
    unfold Emitted at hemitted
    rw [hp] at hemitted
    exact hemitted.elim (fun heq => by cases heq) fun heq => by cases heq
  have hflushed : (m.task p).state ≠ .flushed := fun hp => by
    unfold Emitted at hemitted
    rw [hp] at hemitted
    exact hemitted.elim (fun heq => by cases heq) fun heq => by cases heq
  obtain hr | ⟨-,hp⟩ | ⟨-,hp | ⟨hp,-⟩ | ⟨calls,ok,hcontrol⟩⟩ := h.ahead p x k hx
  · exact hr
  · exact absurd hp hnew
  · exact absurd hp hnew
  · exact absurd hp hflushed
  · have hnil := (hstarting x calls ok hcontrol).1
    cases hstack.symm.trans hnil

theorem Wake.notify (h : Wake m) (hstarting : Starting m) {stack : List (Frame ι)}
    (hstack : m.stack = .notifyAll p k i::stack)
    (hentry : (m.task p).notifies[i]? = some (x,k)) :
    Wake (handleNotify {eraseEntry m p i with stack := .notifyAll p k i::stack} x) := by
  have hx := h.notified_ready hstarting hstack (List.mem_of_getElem? hentry)
  have hstate : ∀ y, ((unblock (eraseEntry m p i) x).task y).state = (m.task y).state := fun y =>
    (unblock_keeps Task.state (fun _ _ => rfl) _ x y).trans
      (eraseEntry_keeps Task.state (fun _ _ => rfl) m p y i)
  have hmaster : ∀ y, ((unblock (eraseEntry m p i) x).task y).master = (m.task y).master :=
    fun y => (unblock_keeps Task.master (fun _ _ => rfl) _ x y).trans
      (eraseEntry_keeps Task.master (fun _ _ => rfl) m p y i)
  have hemit : ∀ y, ((unblock (eraseEntry m p i) x).task y).emitNotifies =
      (m.task y).emitNotifies := fun y =>
    (unblock_keeps Task.emitNotifies (fun _ _ => rfl) _ x y).trans
      (eraseEntry_keeps Task.emitNotifies (fun _ _ => rfl) m p y i)
  have hwaiting : ∀ y, ((unblock (eraseEntry m p i) x).task y).waitingTimedEmit =
      (m.task y).waitingTimedEmit := fun y =>
    (unblock_keeps Task.waitingTimedEmit (fun _ _ => rfl) _ x y).trans
      (eraseEntry_keeps Task.waitingTimedEmit (fun _ _ => rfl) m p y i)
  have hnotifies : ∀ y, ((unblock (eraseEntry m p i) x).task y).notifies =
      if y = p then (m.task y).notifies.eraseIdx i else (m.task y).notifies := fun y =>
    (unblock_keeps Task.notifies (fun _ _ => rfl) _ x y).trans (eraseEntry_notifies m p y i)
  have hmem : ∀ y e, e ∈ ((unblock (eraseEntry m p i) x).task y).notifies →
      e ∈ (m.task y).notifies := by
    intro y e he
    rw [hnotifies] at he
    split_ifs at he
    · exact List.mem_of_mem_eraseIdx he
    · exact he
  have hemitted : ∀ y, Emitted (unblock (eraseEntry m p i) x) y ↔ Emitted m y := fun y => by
    unfold Emitted
    rw [hstate]
  obtain ⟨hcounts,hblock⟩ := h.count.erase hentry
  have hx : ((eraseEntry m p i).task x).state = .ready :=
    (eraseEntry_keeps Task.state (fun _ _ => rfl) m p x i).trans hx
  rw [← hstack]
  change Wake (handleNotify (eraseEntry m p i) x)
  rw [handleNotify_ready hx]
  set stack' := if ((unblock (eraseEntry m p i) x).task x).blockCount = 0 then
    .checkEmit x::m.stack else m.stack with hstack'
  have hold : ∀ f ∈ m.stack, f ∈ stack' := by
    intro f hf
    rw [hstack']
    split_ifs
    · exact List.mem_cons_of_mem _ hf
    · exact hf
  change Wake {unblock (eraseEntry m p i) x with stack := stack'}
  refine ⟨hcounts,fun q y k' hy => ?_,fun q y k' hy => ?_,fun q y k' hy hd => ?_,
    fun q k' j hj => ?_,?_,fun y hs hb hw => ?_,fun q hq => ?_⟩
  · exact (h.ahead q y k' (hmem q _ hy)).congr (congrArg phase (hstate y))
      (congrArg phase (hstate q)) id fun calls ok hc => ⟨calls,ok,hc⟩
  · dsimp only
    rw [hmaster,hmaster]
    exact h.entry q y k' (hmem q _ hy)
  · obtain ⟨j,hj⟩ := h.due q y k' (hmem q _ hy) (by
      refine hd.imp (And.imp_right (hemitted q).mp) (And.imp_right (Or.imp_left ?_))
      dsimp only
      rw [hemit,hstate]
      exact id)
    exact ⟨j,hold _ hj⟩
  · have hjm : .notifyAll q k' j ∈ m.stack := by
      change Frame.notifyAll q k' j ∈ stack' at hj
      rw [hstack'] at hj
      split_ifs at hj
      · exact (List.mem_cons.mp hj).resolve_left fun heq => by cases heq
      · exact hj
    obtain ⟨hq,htake⟩ := h.frame q k' j hjm
    refine ⟨(hemitted q).mpr hq,?_⟩
    dsimp only
    rw [hnotifies]
    split_ifs with hqp
    · subst hqp
      rw [hstack] at hjm
      obtain hj | hj := List.mem_cons.mp hjm
      · obtain ⟨-,rfl,rfl⟩ := Frame.notifyAll.inj hj
        rw [List.take_eraseIdx_eq_take_of_le _ _ _ le_rfl]
        exact htake
      · have hbelow := h.below
        rw [hstack] at hbelow
        obtain rfl : j = 0 := (List.pairwise_cons.mp hbelow).1 _ hj rfl
        exact fun e he => by cases he
    · exact htake
  · change stack'.Pairwise Below
    rw [hstack']
    split_ifs
    · exact List.pairwise_cons.mpr ⟨fun f _ => by cases f <;> trivial,h.below⟩
    · exact h.below
  · by_cases hyx : y = x
    · subst hyx
      change Frame.checkEmit y ∈ stack'
      rw [hstack',if_pos hb]
      exact List.mem_cons_self
    · refine hold _ (h.ready y ?_ ?_ ?_)
      · exact (hstate y).symm.trans hs
      · rw [← hblock y,if_neg hyx]
        exact hb
      · exact (hwaiting y).symm.trans hw
  · dsimp only
    rw [hnotifies,h.dead q ((hstate q).symm.trans hq)]
    split_ifs <;> rfl

theorem pushes_state (l : List ι) (m : TaskManager.State ι σ) (x : ι) :
    ((l.foldl TaskManager.push m).task x).state =
      if x ∈ l then .running else (m.task x).state := by
  induction l generalizing m with
  | nil => rfl
  | cons y l ih =>
    rw [List.foldl_cons,ih,push_task]
    by_cases hl : x ∈ l
    · rw [if_pos hl,if_pos (List.mem_cons_of_mem y hl)]
    · rw [if_neg hl]
      by_cases hy : x = y
      · rw [if_pos hy,if_pos (List.mem_cons.mpr (.inl hy))]
      · rw [if_neg hy,if_neg fun hin => (List.mem_cons.mp hin).elim hy hl]

theorem bonds_push (m : TaskManager.State ι σ) (t : ι) : bonds (TaskManager.push m t) = bonds m := by
  funext x
  unfold bonds
  rw [push_task]
  split_ifs <;> rfl

/-- An emission makes the task run, and its slaves at most. -/
theorem emit_effect (hinv : Inv m) (t : ι) : bonds (TaskManager.emit m t) = bonds m ∧
    ((TaskManager.emit m t).task t).state = .running ∧
    (∀ x, x ≠ t → ((TaskManager.emit m t).task x).state = .running ∧ (m.task x).master = some t ∨
      ((TaskManager.emit m t).task x).state = (m.task x).state) ∧
    (TaskManager.emit m t).fifo = m.fifo ∧ (TaskManager.emit m t).control = m.control ∧
    (∀ p, (.shutdown,p) ∈ (TaskManager.emit m t).log → (.shutdown,p) ∈ m.log) ∧
    (TaskManager.emit m t).stack = (if (m.task t).emitNotifies then
      [.notifyAll t .running 0,.notifyAll t .finish 0] else [.notifyAll t .running 0])++m.stack := by
  have hbonds : bonds (pushed m t) = bonds m := pushed_keeps bonds bonds_push m t
  have hfifo : (pushed m t).fifo = m.fifo := pushed_keeps State.fifo (fun _ _ => rfl) m t
  have hstack : (pushed m t).stack = m.stack := pushed_keeps State.stack (fun _ _ => rfl) m t
  have hlog : ∀ p, ((.shutdown,p) ∈ (pushed m t).log) = ((.shutdown,p) ∈ m.log) := fun p => by
    refine pushed_keeps (fun s => (.shutdown,p) ∈ s.log) (fun s x => ?_) m t
    refine propext (List.mem_append.trans (or_iff_left fun hin => ?_))
    cases List.mem_singleton.mp hin
  have hself : ((TaskManager.push m t).task t) = {m.task t with state := .running} := by
    rw [push_task,if_pos rfl]
  have hpushed : ∀ x, ((pushed m t).task x).state =
      if x = t ∨ (m.task t).needSlavePush ∧ x ∈ (m.task t).slaveTasks then .running
      else (m.task x).state := by
    intro x
    unfold pushed
    rw [hself]
    dsimp only
    split_ifs with hneed hx hx
    · rw [pushes_state,push_task]
      by_cases hin : x ∈ (m.task t).slaveTasks
      · rw [if_pos hin]
      · rw [if_neg hin,if_pos (hx.resolve_right fun hand => hin hand.2)]
    · rw [pushes_state,push_task]
      rw [if_neg fun hin => hx (.inr ⟨hneed,hin⟩),if_neg fun hxt => hx (.inl hxt)]
    · rw [push_task,if_pos (hx.resolve_right fun hand => hneed hand.1)]
    · rw [push_task,if_neg fun hxt => hx (.inl hxt)]
  have hemit : ((pushed m t).task t).emitNotifies = (m.task t).emitNotifies :=
    (bonds_eq hbonds t).2.2.2.1
  refine ⟨hbonds,?_,fun x hx => ?_,hfifo,emit_control m t,fun p hin => ?_,?_⟩
  · exact (hpushed t).trans (if_pos (.inl rfl))
  · by_cases hslave : (m.task t).needSlavePush ∧ x ∈ (m.task t).slaveTasks
    · exact .inl ⟨(hpushed x).trans (if_pos (.inr hslave)),(hinv.slaveTasks t x).mp hslave.2⟩
    · exact .inr ((hpushed x).trans (if_neg fun hor => hor.elim hx hslave))
  · exact (hlog p).mp hin
  · rw [emit_eq]
    dsimp only
    rw [hemit,hstack]

theorem emitted_of_state (ht : (m.task t).state = .running) : Emitted m t := by
  unfold Emitted
  rw [ht]
  exact .inl rfl

theorem not_emitted {state : TaskState} (ht : (m.task t).state = state)
    (hstate : state = .new ∨ state = .flushed ∨ state = .ready) : ¬Emitted m t := by
  unfold Emitted
  rw [ht]
  obtain rfl | rfl | rfl := hstate
  all_goals decide

theorem not_shutdown (hinv : Inv m) (ht : ¬Finished m t) : (.shutdown,t) ∉ m.log :=
  fun hin => ht ((hinv.shutdown_iff t).mp hin).2.1

theorem Wake.emit (h : Wake m) (hinv : Inv m) (hstarting : Starting m) {stack : List (Frame ι)}
    (hstack : m.stack = .checkEmit t::stack) (ht : (m.task t).state = .ready)
    (hb : (m.task t).blockCount = 0) : Wake (TaskManager.emit {m with stack := stack} t) := by
  have hpopped : Inv {m with stack := stack} := hinv.congr rfl
  obtain ⟨hbonds,hself,hstate,hfifo,hcontrol,hlog,hnewstack⟩ := emit_effect hpopped t
  set u := TaskManager.emit {m with stack := stack} t with hu
  have hbonds := bonds_eq (m := {m with stack := stack}) hbonds
  dsimp only at hbonds hstate hfifo hcontrol hlog hnewstack
  have hkept : ∀ x, (m.task x).master = none → x ≠ t → (u.task x).state = (m.task x).state := by
    intro x hx hxt
    refine (hstate x hxt).resolve_left fun hand => ?_
    cases hx.symm.trans hand.2
  have hline : line u = line m := by
    unfold line
    rw [hfifo,hcontrol]
  have hframes : ∀ f ∈ (if (m.task t).emitNotifies then
      [Frame.notifyAll t .running 0,.notifyAll t .finish 0] else [.notifyAll t .running 0]),
      ∃ k, f = .notifyAll t k 0 := by
    intro f hf
    split_ifs at hf
    · obtain rfl | hf := List.mem_cons.mp hf
      · exact ⟨_,rfl⟩
      · exact ⟨_,List.mem_singleton.mp hf⟩
    · exact ⟨_,List.mem_singleton.mp hf⟩
  have hold : ∀ f ∈ stack, f ∈ m.stack := fun f hf => by
    rw [hstack]
    exact List.mem_cons_of_mem _ hf
  have hnotself : ∀ p k i, .notifyAll p k i ∈ stack → p ≠ t := by
    rintro p k i hi rfl
    exact not_emitted ht (.inr (.inr rfl)) (h.frame p k i (hold _ hi)).1
  refine ⟨h.count.congr (fun p => (hbonds p).1) fun t => (hbonds t).2.1,fun p x k hx => ?_,
    fun p x k hx => ?_,fun p x k hx hdue => ?_,fun p k i hi => ?_,?_,fun y hs hb' hw => ?_,
    fun p hp => ?_⟩
  · rw [(hbonds p).1] at hx
    obtain ⟨-,hpm,hxm,-⟩ := h.entry p x k hx
    have hxt : x ≠ t := by
      rintro rfl
      exact h.count.none hb p k hx
    have hahead := h.ahead p x k hx
    by_cases hpt : p = t
    · subst hpt
      left
      rw [hkept x hxm hxt]
      obtain hr | ⟨-,hp⟩ | ⟨-,hp | ⟨hp,-⟩ | ⟨calls,ok,hc⟩⟩ := hahead
      · exact hr
      · cases ht.symm.trans hp
      · cases ht.symm.trans hp
      · cases ht.symm.trans hp
      · cases hstack.symm.trans (hstarting x calls ok hc).1
    · refine hahead.congr (congrArg phase (hkept x hxm hxt)) (congrArg phase (hkept p hpm hpt))
        (fun hsub => hline ▸ hsub) fun calls ok hc => ⟨calls,ok,hcontrol.trans hc⟩
  · rw [(hbonds p).1] at hx
    rw [(hbonds p).2.2.2.2,(hbonds x).2.2.2.2]
    exact h.entry p x k hx
  · rw [(hbonds p).1] at hx
    rw [hnewstack]
    by_cases hpt : p = t
    · subst hpt
      refine ⟨0,List.mem_append_left _ ?_⟩
      obtain ⟨rfl,-⟩ | ⟨rfl,hem | hlog'⟩ := hdue
      · split_ifs <;> exact List.mem_cons_self
      · rw [(hbonds p).2.2.2.1] at hem
        rw [if_pos hem.1]
        exact List.mem_cons_of_mem _ (List.mem_singleton_self _)
      · exact absurd (hlog p hlog') (not_shutdown hinv (not_finished ht (by decide)))
    · have hps := hkept p (h.entry p x k hx).2.1 hpt
      have hdue : Due m p k := by
        unfold Due Emitted at hdue ⊢
        rw [hps,(hbonds p).2.2.2.1] at hdue
        exact hdue.imp_right (And.imp_right (Or.imp_right (hlog p)))
      obtain ⟨i,hi⟩ := h.due p x k hx hdue
      rw [hstack] at hi
      refine ⟨i,List.mem_append_right _ ((List.mem_cons.mp hi).resolve_left fun heq => ?_)⟩
      cases heq
  · rw [hnewstack] at hi
    rw [(hbonds p).1]
    obtain hi | hi := List.mem_append.mp hi
    · obtain ⟨k',hk'⟩ := hframes _ hi
      obtain ⟨rfl,rfl,rfl⟩ := Frame.notifyAll.inj hk'
      exact ⟨emitted_of_state hself,fun e he => by cases he⟩
    · obtain ⟨hemitted,htake⟩ := h.frame p k i (hold _ hi)
      refine ⟨?_,htake⟩
      obtain ⟨hrunning,-⟩ | hsame := hstate p (hnotself p k i hi)
      · exact emitted_of_state hrunning
      · unfold Emitted
        rw [hsame]
        exact hemitted
  · rw [hnewstack]
    have hbelow := h.below
    rw [hstack] at hbelow
    refine List.pairwise_append.mpr ⟨?_,hbelow.of_cons,fun f hf g hg => ?_⟩
    · split_ifs
      · exact List.pairwise_pair.mpr fun _ => rfl
      · exact List.pairwise_singleton _ _
    · obtain ⟨k,rfl⟩ := hframes f hf
      cases g with
      | checkEmit _ => trivial
      | notifyAll q k' i => exact fun heq => absurd heq.symm (hnotself q k' i hg)
  · have hyt : y ≠ t := by
      rintro rfl
      cases hself.symm.trans hs
    have hys : (m.task y).state = .ready := by
      obtain ⟨hrunning,-⟩ | hsame := hstate y hyt
      · cases hrunning.symm.trans hs
      · exact hsame.symm.trans hs
    have hin := h.ready y hys ((hbonds y).2.1.symm.trans hb') ((hbonds y).2.2.1.symm.trans hw)
    rw [hstack] at hin
    rw [hnewstack]
    refine List.mem_append_right _ ((List.mem_cons.mp hin).resolve_left fun heq => hyt ?_)
    exact Frame.checkEmit.inj heq
  · have hpt : p ≠ t := by
      rintro rfl
      cases hself.symm.trans hp
    rw [(hbonds p).1]
    refine h.dead p ?_
    obtain ⟨hrunning,-⟩ | hsame := hstate p hpt
    · cases hrunning.symm.trans hp
    · exact hsame.symm.trans hp

theorem addEntry_keeps {β : Type*} (g : Task ι → β)
    (hg : ∀ (task : Task ι) l n, g {task with notifies := l, blockCount := n} = g task)
    (m : TaskManager.State ι σ) (p x y : ι) (k : TaskState) :
    g ((addEntry m p x k).task y) = g (m.task y) := by
  refine (modify_keeps g _ x y (f := fun task => {task with blockCount := task.blockCount+1})
    fun task => hg task task.notifies _).trans ?_
  exact modify_keeps g m p y (f := fun task => {task with notifies := task.notifies++[(x,k)]})
    fun task => hg task _ task.blockCount

/-- An entry is added that is not due. -/
theorem Wake.addEntry (h : Wake m) (hxp : x ≠ p) (hp : (m.task p).master = none)
    (hx : (m.task x).master = none) (hk : k = .running ∨ k = .finish) (hahead : Ahead m p x)
    (hdue : ¬Due m p k) (hframe : ∀ k i, .notifyAll p k i ∉ m.stack)
    (hready : (m.task x).state ≠ .ready) (hdead : (m.task p).state ≠ .dead) :
    Wake (TaskManager.addEntry m p x k) := by
  have hstate : ∀ y, ((TaskManager.addEntry m p x k).task y).state = (m.task y).state := fun y =>
    addEntry_keeps Task.state (fun _ _ _ => rfl) m p x y k
  have hmaster : ∀ y, ((TaskManager.addEntry m p x k).task y).master = (m.task y).master :=
    fun y => addEntry_keeps Task.master (fun _ _ _ => rfl) m p x y k
  have hemit : ∀ y, ((TaskManager.addEntry m p x k).task y).emitNotifies =
      (m.task y).emitNotifies := fun y =>
    addEntry_keeps Task.emitNotifies (fun _ _ _ => rfl) m p x y k
  have hwaiting : ∀ y, ((TaskManager.addEntry m p x k).task y).waitingTimedEmit =
      (m.task y).waitingTimedEmit := fun y =>
    addEntry_keeps Task.waitingTimedEmit (fun _ _ _ => rfl) m p x y k
  have hmem : ∀ q e, e ∈ ((TaskManager.addEntry m p x k).task q).notifies →
      e ∈ (m.task q).notifies ∨ q = p ∧ e = (x,k) := by
    intro q e he
    rw [(addEntry_task m p x q k).1] at he
    refine (List.mem_append.mp he).imp_right fun he => ?_
    split_ifs at he with hq
    · exact ⟨hq,List.mem_singleton.mp he⟩
    · cases he
  have hold : ∀ q k', Due (TaskManager.addEntry m p x k) q k' → Due m q k' := fun q k' hd => by
    unfold Due Emitted at hd ⊢
    rw [hstate,hemit] at hd
    exact hd
  have hcongr : ∀ q y, Ahead m q y → Ahead (TaskManager.addEntry m p x k) q y := fun q y ha =>
    ha.congr (congrArg phase (hstate y)) (congrArg phase (hstate q)) id fun calls ok hc =>
      ⟨calls,ok,hc⟩
  refine ⟨h.count.addEntry p x k,fun q y k' hy => ?_,fun q y k' hy => ?_,fun q y k' hy hd => ?_,
    fun q k' i hi => ?_,h.below,fun y hs hb hw => ?_,fun q hq => ?_⟩
  · obtain hy | ⟨rfl,heq⟩ := hmem q _ hy
    · exact hcongr q y (h.ahead q y k' hy)
    · obtain ⟨rfl,rfl⟩ := Prod.mk.inj heq
      exact hcongr q y hahead
  · rw [hmaster,hmaster]
    obtain hy | ⟨rfl,heq⟩ := hmem q _ hy
    · exact h.entry q y k' hy
    · obtain ⟨rfl,rfl⟩ := Prod.mk.inj heq
      exact ⟨hxp,hp,hx,hk⟩
  · obtain hy | ⟨rfl,heq⟩ := hmem q _ hy
    · exact h.due q y k' hy (hold q k' hd)
    · obtain ⟨rfl,rfl⟩ := Prod.mk.inj heq
      exact absurd (hold q k' hd) hdue
  · have hqp : q ≠ p := by
      rintro rfl
      exact hframe k' i hi
    obtain ⟨hemitted,htake⟩ := h.frame q k' i hi
    rw [(addEntry_task m p x q k).1,if_neg hqp,List.append_nil]
    refine ⟨?_,htake⟩
    unfold Emitted
    rw [hstate]
    exact hemitted
  · have hyx : y ≠ x := by
      rintro rfl
      exact hready ((hstate y).symm.trans hs)
    rw [(addEntry_task m p x y k).2,if_neg hyx] at hb
    exact h.ready y ((hstate y).symm.trans hs) hb ((hwaiting y).symm.trans hw)
  · have hqp : q ≠ p := by
      rintro rfl
      exact hdead ((hstate q).symm.trans hq)
    rw [(addEntry_task m p x q k).1,if_neg hqp,List.append_nil]
    exact h.dead q ((hstate q).symm.trans hq)

theorem Wake.no_frame (h : Wake m) (hp : ¬Emitted m p) (k : TaskState) (i : ℕ) :
    .notifyAll p k i ∉ m.stack := fun hi => hp (h.frame p k i hi).1

/-- Other threads add entries to new tasks. -/
theorem Wake.addNotify (h : Wake m) (hinv : Inv m) (hp : (m.task p).state = .new)
    (hx : (m.task x).state = .new) (hpm : (m.task p).master = none)
    (hxm : (m.task x).master = none) (follow : Bool) :
    Wake (TaskManager.addNotify m p x follow) := by
  obtain ⟨heq,-⟩ | ⟨hxp,-,-,-,-,heq⟩ := addNotify_cases m p x follow
  all_goals rw [heq]
  · exact h
  · have hnot : ¬Emitted m p := not_emitted hp (.inl rfl)
    refine h.addEntry hxp hpm hxm ?_ (.inr (.inl ⟨hx,hp⟩)) ?_ (h.no_frame hnot) ?_ ?_
    · cases follow
      · exact .inr rfl
      · exact .inl rfl
    · rintro (⟨-,hem⟩ | ⟨-,⟨-,hrunning⟩ | hlog⟩)
      · exact hnot hem
      · exact hnot (.inl hrunning)
      · exact not_shutdown hinv (not_finished hp (by decide)) hlog
    · rw [hx]
      decide
    · rw [hp]
      decide

/-- A `Setup()` adds entries for its task to others. -/
theorem Wake.call (h : Wake m) (hinv : Inv m) (hstarting : Starting m) {calls : List (ι × Bool)}
    {ok follow : Bool} (hcontrol : m.control = .setup t ((p,follow)::calls) ok)
    (hpm : (m.task p).master = none) (hdead : (m.task p).state ≠ .dead) :
    Wake (TaskManager.addNotify m p t follow) := by
  obtain ⟨hstack,ht⟩ := hstarting t _ ok hcontrol
  have htm : (m.task t).master = none := by
    cases hm : (m.task t).master with
    | none => rfl
    | some o => exact absurd ht (hinv.slave o t hm).2.1
  obtain ⟨heq,-⟩ | ⟨hne,hflushed,hfollow,hrunning,hfinish,heq⟩ := addNotify_cases m p t follow
  all_goals rw [heq]
  · exact h
  · have hstate : ∀ s : TaskState, phase s = .running → s = .running ∨ s = .done := by
      intro s hs
      cases s with
      | running => exact .inl rfl
      | done => exact .inr rfl
      | _ => cases hs
    have hfinished : phase (m.task p).state = .finish → (m.task p).state = .finish := by
      intro hph
      have hcounted := hinv.counted p
      generalize (m.task p).state = state,m.log.count (.push,p) = n,m.log.count (.done,p) = n',
        m.log.count (.finish,p) = n'' at hcounted hph hdead ⊢
      cases hcounted with
      | finish hn => rfl
      | dead hn => exact absurd rfl hdead
      | new | flushed | ready | running | done hn => cases hph
    have hslaves : (.shutdown,p) ∈ m.log → (m.task p).slaves = 0 := by
      intro hlog
      by_contra hzero
      have hcount := hinv.shutdown p
      rw [if_neg fun hand => hzero hand.2.2] at hcount
      exact List.count_eq_zero.mp hcount hlog
    refine h.addEntry hne hpm htm ?_ ?_ ?_ ?_ ?_ hdead
    · cases follow
      · exact .inr rfl
      · exact .inl rfl
    · by_cases hp : (m.task p).state = .new
      · exact .inr (.inr ⟨ht,.inl hp⟩)
      · exact .inr (.inr ⟨ht,.inr (.inr ⟨_,_,hcontrol⟩)⟩)
    · rintro (⟨hk,hem⟩ | ⟨hk,⟨hem,hph⟩ | hlog⟩)
      · cases follow with
        | false => cases hk
        | true =>
          refine hfollow ⟨rfl,?_⟩
          obtain hph | hph := hem
          · obtain hs | hs := hstate _ hph
            · rw [hs]
              decide
            · rw [hs]
              decide
          · rw [hfinished hph]
            decide
      · refine hrunning ⟨?_,hem⟩
        obtain hs | hs := hstate _ hph
        · rw [hs]
          decide
        · rw [hs]
          decide
      · refine hfinish ⟨?_,hslaves hlog⟩
        exact ((hinv.shutdown_iff p).mp hlog).2.1.resolve_right hdead
    · intro k i hi
      rw [hstack] at hi
      cases hi
    · rw [ht]
      decide

theorem Wake.addSlave (h : Wake m) {o : ι} (hx : (m.task x).notifies = [])
    (hb : (m.task x).blockCount = 0) : Wake (TaskManager.addSlave m o x) := by
  have htask : ∀ y, ((TaskManager.addSlave m o x).task y).notifies = (m.task y).notifies ∧
      ((TaskManager.addSlave m o x).task y).blockCount = (m.task y).blockCount ∧
      ((TaskManager.addSlave m o x).task y).waitingTimedEmit = (m.task y).waitingTimedEmit ∧
      ((TaskManager.addSlave m o x).task y).emitNotifies = (m.task y).emitNotifies ∧
      ((TaskManager.addSlave m o x).task y).state = (m.task y).state ∧
      ((TaskManager.addSlave m o x).task y).master = if y = x then some o else (m.task y).master := by
    intro y
    rw [addSlave_task]
    split_ifs <;> exact ⟨rfl,rfl,rfl,rfl,rfl,rfl⟩
  have hemitted : ∀ p, Emitted (TaskManager.addSlave m o x) p ↔ Emitted m p := fun p => by
    unfold Emitted
    rw [(htask p).2.2.2.2.1]
  refine ⟨h.count.congr (fun p => (htask p).1) fun t => (htask t).2.1,fun p y k hy => ?_,
    fun p y k hy => ?_,fun p y k hy hd => ?_,fun p k i hi => ?_,h.below,fun y hs hb' hw => ?_,
    fun p hp => ?_⟩
  · rw [(htask p).1] at hy
    exact (h.ahead p y k hy).congr (congrArg phase (htask y).2.2.2.2.1)
      (congrArg phase (htask p).2.2.2.2.1) id fun calls ok hc => ⟨calls,ok,hc⟩
  · rw [(htask p).1] at hy
    have hpx : p ≠ x := by
      rintro rfl
      rw [hx] at hy
      cases hy
    have hyx : y ≠ x := by
      rintro rfl
      exact h.count.none hb p k hy
    rw [(htask p).2.2.2.2.2,(htask y).2.2.2.2.2,if_neg hpx,if_neg hyx]
    exact h.entry p y k hy
  · rw [(htask p).1] at hy
    refine h.due p y k hy (hd.imp (And.imp_right (hemitted p).mp) (And.imp_right ?_))
    rw [(htask p).2.2.2.1,(htask p).2.2.2.2.1]
    exact id
  · rw [hemitted,(htask p).1]
    exact h.frame p k i hi
  · rw [(htask y).2.2.2.2.1] at hs
    rw [(htask y).2.1] at hb'
    rw [(htask y).2.2.1] at hw
    exact h.ready y hs hb' hw
  · rw [(htask p).2.2.2.2.1] at hp
    rw [(htask p).1]
    exact h.dead p hp

theorem line_pushTask (m : TaskManager.State ι σ) (t : ι) : line (pushTask m t) = line m++[t] :=
  (List.append_assoc ..).symm

theorem bonds_setState (m : TaskManager.State ι σ) (t : ι) (state : TaskState) :
    bonds (setState m t state) = bonds m := by
  funext x
  exact setState_keeps (fun task => (task.notifies,task.blockCount,task.waitingTimedEmit,
    task.emitNotifies,task.master)) (fun _ => rfl) m t x

/-- A task is flushed after those that it names. -/
theorem Wake.flush (h : Wake m) (hinv : Inv m) (ht : (m.task t).state = .new)
    (hnamed : ∀ e ∈ (m.task t).notifies, (m.task e.1).state ≠ .new) :
    Wake (TaskManager.flush m t) := by
  have hbonds := bonds_eq (u := TaskManager.flush m t) (bonds_setState m t .flushed)
  have hself : ((TaskManager.flush m t).task t).state = .flushed := setState_self m t .flushed
  have hstate : ∀ x, x ≠ t → ((TaskManager.flush m t).task x).state = (m.task x).state :=
    fun x hx => (setState_state m t x .flushed).trans (if_neg hx)
  have hline : line (TaskManager.flush m t) = line m++[t] := line_pushTask (setState m t .flushed) t
  have hemitted : ∀ p, Emitted (TaskManager.flush m t) p ↔ Emitted m p := by
    intro p
    by_cases hp : p = t
    · subst hp
      exact iff_of_false (not_emitted hself (.inr (.inl rfl))) (not_emitted ht (.inl rfl))
    · unfold Emitted
      rw [hstate p hp]
  refine ⟨h.count.congr (fun p => (hbonds p).1) fun t => (hbonds t).2.1,fun p x k hx => ?_,
    fun p x k hx => ?_,fun p x k hx hdue => ?_,fun p k i hi => ?_,h.below,fun y hs hb hw => ?_,
    fun p hp => ?_⟩
  · rw [(hbonds p).1] at hx
    have hahead := h.ahead p x k hx
    have hxp := (h.entry p x k hx).1
    by_cases hxt : x = t
    · subst hxt
      right
      right
      refine ⟨hself,.inl ?_⟩
      rw [hstate p hxp.symm]
      obtain hr | ⟨-,hp⟩ | ⟨hf,-⟩ := hahead
      · cases ht.symm.trans hr
      · exact hp
      · cases ht.symm.trans hf
    · by_cases hpt : p = t
      · subst hpt
        obtain hr | ⟨hn,-⟩ | ⟨hf,-⟩ := hahead
        · exact .inl ((hstate x hxt).trans hr)
        · exact absurd hn (hnamed _ hx)
        · refine .inr (.inr ⟨(hstate x hxt).trans hf,.inr (.inl ⟨hself,?_⟩)⟩)
          have hin : x ∈ line m := by
            rw [← List.count_pos_iff,count_line,hinv.queue,if_pos (.inl hf)]
            exact Nat.one_pos
          rw [hline]
          exact List.Sublist.append (List.singleton_sublist.mpr hin) (List.Sublist.refl [p])
      · refine hahead.congr (congrArg phase (hstate x hxt)) (congrArg phase (hstate p hpt))
          (fun hsub => ?_) fun calls ok hc => ⟨calls,ok,hc⟩
        rw [hline]
        exact hsub.trans (List.sublist_append_left _ _)
  · rw [(hbonds p).1] at hx
    rw [(hbonds p).2.2.2.2,(hbonds x).2.2.2.2]
    exact h.entry p x k hx
  · rw [(hbonds p).1] at hx
    refine h.due p x k hx (hdue.imp (And.imp_right (hemitted p).mp) (And.imp_right (Or.imp_left ?_)))
    rw [(hbonds p).2.2.2.1]
    by_cases hpt : p = t
    · subst hpt
      rw [hself]
      exact fun hand => by cases hand.2
    · rw [hstate p hpt]
      exact id
  · rw [hemitted,(hbonds p).1]
    exact h.frame p k i hi
  · have hyt : y ≠ t := by
      rintro rfl
      cases hself.symm.trans hs
    exact h.ready y ((hstate y hyt).symm.trans hs) ((hbonds y).2.1.symm.trans hb)
      ((hbonds y).2.2.1.symm.trans hw)
  · have hpt : p ≠ t := by
      rintro rfl
      cases hself.symm.trans hp
    rw [(hbonds p).1]
    exact h.dead p ((hstate p hpt).symm.trans hp)

structure Head (m : TaskManager.State ι σ) (t : ι) : Prop where
  line : line m = t::m.fifo
  fifo : t ∉ m.fifo
  setup : ∀ x calls ok, m.control = .setup x calls ok → x = t
  state : (m.task t).state = .flushed ∨ (m.task t).state = .done

theorem Head.of_line (hinv : Inv m) (hline : TaskNotify.line m = t::m.fifo)
    (hsetup : ∀ x calls ok, m.control = .setup x calls ok → x = t)
    (hstate : (m.task t).state = .flushed ∨ (m.task t).state = .done) : Head m t := by
  refine ⟨hline,fun hin => ?_,hsetup,hstate⟩
  have hcount := hinv.queue t
  rw [if_pos hstate,← count_line,hline,List.count_cons_self] at hcount
  exact absurd (Nat.succ.inj hcount) (Nat.ne_of_gt (List.count_pos_iff.mpr hin))

theorem Head.of_setup (hinv : Inv m) (hstarting : Starting m) {calls : List (ι × Bool)} {ok : Bool}
    (hcontrol : m.control = .setup t calls ok) : Head m t := by
  refine .of_line hinv ?_ (fun x calls' ok' hc => ?_) (.inl (hstarting t calls ok hcontrol).2)
  · unfold TaskNotify.line
    rw [hcontrol]
    rfl
  · exact (Control.setup.inj (hc.symm.trans hcontrol)).1

theorem Head.of_handle (hinv : Inv m) (hcontrol : m.control = .handle t)
    (ht : (m.task t).state = .done) : Head m t := by
  refine .of_line hinv ?_ (fun x calls ok hc => ?_) (.inr ht)
  · unfold TaskNotify.line
    rw [hcontrol]
    rfl
  · cases hcontrol.symm.trans hc

/-- What the first task names is ready, and the others stay in line. -/
theorem Ahead.handled (h : Ahead m p x) (hxp : x ≠ p) (hhead : Head m t)
    (hstate : ∀ y, y ≠ t → (u.task y).state = (m.task y).state) (hline : line u = m.fifo)
    (hx : x = t → (u.task t).state = .ready) : Ahead u p x := by
  by_cases hxt : x = t
  · subst hxt
    exact .inl (hx rfl)
  have hsublist : [x,p].Sublist (line m) → [x,p].Sublist m.fifo := by
    intro hsub
    rw [hhead.line] at hsub
    cases hsub with
    | cons _ hsub => exact hsub
    | cons_cons _ hsub => exact absurd rfl hxt
  unfold Ahead
  rw [hstate x hxt]
  by_cases hpt : p = t
  · subst hpt
    left
    have hnew : (m.task p).state ≠ .new := fun hn => by
      obtain hs | hs := hhead.state
      · cases hn.symm.trans hs
      · cases hn.symm.trans hs
    obtain hr | ⟨-,hn⟩ | ⟨-,hn | ⟨-,hsub⟩ | ⟨calls,ok,hc⟩⟩ := h
    · exact hr
    · exact absurd hn hnew
    · exact absurd hn hnew
    · have hin : p ∈ [x,p] := List.mem_cons_of_mem x (List.mem_singleton_self p)
      exact absurd ((hsublist hsub).subset hin) hhead.fifo
    · exact absurd (hhead.setup x calls ok hc) hxt
  · rw [hstate p hpt,hline]
    refine h.imp_right (Or.imp_right (And.imp_right (Or.imp_right fun hor => .inl ?_)))
    obtain ⟨hf,hsub⟩ | ⟨calls,ok,hc⟩ := hor
    · exact ⟨hf,hsublist hsub⟩
    · exact absurd (hhead.setup x calls ok hc) hxt

/-- A task is ready after its `Setup()`. -/
theorem Wake.set_ready (h : Wake m) (hinv : Inv m) (hhead : Head m t)
    (ht : (m.task t).state = .flushed) (hstack : m.stack = [])
    (hbonds : ∀ x, (u.task x).notifies = (m.task x).notifies ∧
      (u.task x).blockCount = (m.task x).blockCount ∧
      (u.task x).emitNotifies = (m.task x).emitNotifies ∧ (u.task x).master = (m.task x).master)
    (hwaiting : ∀ x, x ≠ t → (u.task x).waitingTimedEmit = (m.task x).waitingTimedEmit)
    (hself : (u.task t).state = .ready)
    (hstate : ∀ x, x ≠ t → (u.task x).state = (m.task x).state) (hline : line u = m.fifo)
    (hlog : u.log = m.log) (hframes : ∀ f ∈ u.stack, f = .checkEmit t)
    (hemit : (u.task t).waitingTimedEmit = false → .checkEmit t ∈ u.stack) : Wake u := by
  refine ⟨h.count.congr (fun p => (hbonds p).1) fun x => (hbonds x).2.1,fun p x k hx => ?_,
    fun p x k hx => ?_,fun p x k hx hdue => ?_,fun p k i hi => ?_,?_,fun y hs hb hw => ?_,
    fun p hp => ?_⟩
  · rw [(hbonds p).1] at hx
    exact (h.ahead p x k hx).handled (h.entry p x k hx).1 hhead hstate hline fun _ => hself
  · rw [(hbonds p).1] at hx
    rw [(hbonds p).2.2.2,(hbonds x).2.2.2]
    exact h.entry p x k hx
  · rw [(hbonds p).1] at hx
    refine absurd ?_ (h.not_due hstack hx)
    unfold Due Emitted at hdue ⊢
    rw [(hbonds p).2.2.1,hlog] at hdue
    by_cases hpt : p = t
    · subst hpt
      rw [hself] at hdue
      obtain ⟨-,hem⟩ | ⟨-,⟨-,hph⟩ | hlog'⟩ := hdue
      · exact hem.elim (fun heq => by cases heq) fun heq => by cases heq
      · cases hph
      · exact absurd hlog' (not_shutdown hinv (not_finished ht (by decide)))
    · rw [hstate p hpt] at hdue
      exact hdue
  · cases hframes _ hi
  · refine List.pairwise_of_forall_mem_list fun f hf g _ => ?_
    rw [hframes f hf]
    cases g <;> trivial
  · by_cases hyt : y = t
    · subst hyt
      exact hemit hw
    · refine absurd ?_ (h.no_ready hstack ((hstate y hyt).symm.trans hs)
        ((hbonds y).2.1.symm.trans hb))
      exact (hwaiting y hyt).symm.trans hw
  · have hpt : p ≠ t := by
      rintro rfl
      cases hself.symm.trans hp
    rw [(hbonds p).1]
    exact h.dead p ((hstate p hpt).symm.trans hp)

/-- The effect of finishing a task, in whose course one task at most is shut down. -/
theorem finish_effect (ht : (m.task t).state = .done) : bonds (TaskManager.finish m t) = bonds m ∧
    (∀ x, ((TaskManager.finish m t).task x).state =
      if x = t then .finish else (m.task x).state) ∧
    line (TaskManager.finish m t) = m.fifo ∧
    ((TaskManager.finish m t).stack = m.stack ∧
      (∀ p, (.shutdown,p) ∈ (TaskManager.finish m t).log → (.shutdown,p) ∈ m.log) ∨
    ∃ o, (TaskManager.finish m t).stack = .notifyAll o .finish 0::m.stack ∧
      (∀ p, (.shutdown,p) ∈ (TaskManager.finish m t).log → p = o ∨ (.shutdown,p) ∈ m.log) ∧
      ((TaskManager.finish m t).task o).state = .finish) := by
  have hbegin : bonds (beginFinish m t) = bonds m := bonds_setState m t .finish
  have hcount : ∀ s : TaskManager.State ι σ, ∀ o, bonds (countSlave s o) = bonds s := by
    intro s o
    funext x
    exact modify_keeps (fun task => (task.notifies,task.blockCount,task.waitingTimedEmit,
      task.emitNotifies,task.master)) s o x fun _ => rfl
  have hstate : ∀ x, ((beginFinish m t).task x).state =
      if x = t then .finish else (m.task x).state := fun x => setState_state m t x .finish
  have hslave : ∀ o x, ((countSlave (beginFinish m t) o).task x).state =
      if x = t then .finish else (m.task x).state := by
    intro o x
    rw [← hstate]
    exact modify_keeps Task.state _ o x fun _ => rfl
  have hlog : ∀ p, (.shutdown,p) ∈ m.log++[(Action.finish,t)] → (.shutdown,p) ∈ m.log := by
    intro p hin
    refine (List.mem_append.mp hin).resolve_right fun hin => ?_
    cases List.mem_singleton.mp hin
  have hshut : ∀ o p, (.shutdown,p) ∈ m.log++[(Action.finish,t)]++[(Action.shutdown,o)] →
      p = o ∨ (.shutdown,p) ∈ m.log := by
    intro o p hin
    refine (List.mem_append.mp hin).symm.imp (fun hin => ?_) (hlog p)
    exact congrArg Prod.snd (List.mem_singleton.mp hin)
  obtain ⟨hnot,-⟩ | ⟨-,o,-,-,ho,heq⟩ | ⟨-,o,-,-,heq⟩ | ⟨-,-,-,heq⟩ | ⟨-,-,-,heq⟩ :=
    finish_cases m t
  · exact absurd ht hnot
  all_goals rw [heq]
  · exact ⟨(hcount _ o).trans hbegin,hslave o,rfl,.inr ⟨o,rfl,hshut o,ho⟩⟩
  · exact ⟨(hcount _ o).trans hbegin,hslave o,rfl,.inl ⟨rfl,hlog⟩⟩
  · exact ⟨hbegin,hstate,rfl,.inr ⟨t,rfl,hshut t,(hstate t).trans (if_pos rfl)⟩⟩
  · exact ⟨hbegin,hstate,rfl,.inl ⟨rfl,hlog⟩⟩

/-- A task is finished that no other has to notify, and that has notified those that follow. -/
theorem Wake.finished (h : Wake m) (hhead : Head m t) (hstack : m.stack = [])
    (hbonds : bonds u = bonds m)
    (hstate : ∀ x, (u.task x).state = if x = t then .finish else (m.task x).state)
    (hline : line u = m.fifo) (hnamed : ∀ p k, (t,k) ∉ (m.task p).notifies)
    (hkind : ∀ e ∈ (m.task t).notifies, e.2 = .finish)
    (hend : u.stack = [] ∧ (∀ p, (.shutdown,p) ∈ u.log → (.shutdown,p) ∈ m.log) ∨
      ∃ o, u.stack = [.notifyAll o .finish 0] ∧
        (∀ p, (.shutdown,p) ∈ u.log → p = o ∨ (.shutdown,p) ∈ m.log) ∧
        (u.task o).state = .finish) : Wake u := by
  have hbonds := bonds_eq hbonds
  have hself : (u.task t).state = .finish := (hstate t).trans (if_pos rfl)
  have hother : ∀ x, x ≠ t → (u.task x).state = (m.task x).state := fun x hx =>
    (hstate x).trans (if_neg hx)
  refine ⟨h.count.congr (fun p => (hbonds p).1) fun x => (hbonds x).2.1,fun p x k hx => ?_,
    fun p x k hx => ?_,fun p x k hx hdue => ?_,fun p k i hi => ?_,?_,fun y hs hb hw => ?_,
    fun p hp => ?_⟩
  · rw [(hbonds p).1] at hx
    refine (h.ahead p x k hx).handled (h.entry p x k hx).1 hhead hother hline fun heq => ?_
    subst heq
    exact absurd hx (hnamed p k)
  · rw [(hbonds p).1] at hx
    rw [(hbonds p).2.2.2.2,(hbonds x).2.2.2.2]
    exact h.entry p x k hx
  · rw [(hbonds p).1] at hx
    have hnot := h.not_due hstack hx
    have hlog : (.shutdown,p) ∈ u.log → k = .finish → ∃ i, .notifyAll p k i ∈ u.stack := by
      rintro hin rfl
      obtain ⟨-,hl⟩ | ⟨o,hs,hl,-⟩ := hend
      · exact absurd (.inr ⟨rfl,.inr (hl p hin)⟩) hnot
      · obtain rfl | hin := hl p hin
        · rw [hs]
          exact ⟨0,List.mem_singleton_self _⟩
        · exact absurd (.inr ⟨rfl,.inr hin⟩) hnot
    obtain ⟨hk,hem⟩ | ⟨hk,⟨hem,hph⟩ | hin⟩ := hdue
    · by_cases hpt : p = t
      · subst hpt
        cases hk.symm.trans (hkind _ hx)
      · unfold Emitted at hem
        rw [hother p hpt] at hem
        exact absurd (.inl ⟨hk,hem⟩) hnot
    · by_cases hpt : p = t
      · subst hpt
        rw [hself] at hph
        cases hph
      · rw [hother p hpt] at hph
        rw [(hbonds p).2.2.2.1] at hem
        exact absurd (.inr ⟨hk,.inl ⟨hem,hph⟩⟩) hnot
    · exact hlog hin hk
  · obtain ⟨hs,-⟩ | ⟨o,hs,-,ho⟩ := hend
    · rw [hs] at hi
      cases hi
    · rw [hs] at hi
      obtain ⟨rfl,rfl,rfl⟩ := Frame.notifyAll.inj (List.mem_singleton.mp hi)
      refine ⟨?_,fun e he => by cases he⟩
      unfold Emitted
      rw [ho]
      exact .inr rfl
  · obtain ⟨hs,-⟩ | ⟨o,hs,-⟩ := hend
    · rw [hs]
      exact .nil
    · rw [hs]
      exact List.pairwise_singleton _ _
  · have hyt : y ≠ t := by
      rintro rfl
      cases hself.symm.trans hs
    refine absurd ?_ (h.no_ready hstack ((hother y hyt).symm.trans hs)
      ((hbonds y).2.1.symm.trans hb))
    exact (hbonds y).2.2.1.symm.trans hw
  · have hpt : p ≠ t := by
      rintro rfl
      cases hself.symm.trans hp
    rw [(hbonds p).1]
    exact h.dead p ((hother p hpt).symm.trans hp)

/-- A task that `Done()` was called for is finished. -/
theorem Wake.finish (h : Wake m) (hinv : Inv m) (hstack : m.stack = [])
    (hcontrol : m.control = .handle t) (ht : (m.task t).state = .done) :
    Wake (TaskManager.finish m t) := by
  obtain ⟨hbonds,hstate,hline,hend⟩ := finish_effect ht
  rw [hstack] at hend
  refine h.finished (.of_handle hinv hcontrol ht) hstack hbonds hstate hline (fun p k hin => ?_)
    (fun e he => ?_) hend
  · obtain hs | hs | hs := h.named_state hin
    · cases ht.symm.trans hs
    · cases ht.symm.trans hs
    · cases ht.symm.trans hs
  · refine (h.entry t e.1 e.2 he).2.2.2.resolve_left fun hk => ?_
    refine h.not_due hstack (k := e.2) he (.inl ⟨hk,.inl ?_⟩)
    rw [ht]
    rfl

/-- A task is finished as its `Setup()` fails. -/
theorem Wake.fail (h : Wake m) (hinv : Inv m) (hstarting : Starting m)
    (hcontrol : m.control = .setup t [] false) (hb : (m.task t).blockCount = 0)
    (hkind : ∀ e ∈ (m.task t).notifies, e.2 = .finish) :
    Wake (TaskManager.finish (setState m t .done) t) := by
  obtain ⟨hstack,ht⟩ := hstarting t [] false hcontrol
  obtain ⟨hbonds,hstate,hline,hend⟩ := finish_effect (setState_self m t .done)
  simp only [show (setState m t .done).stack = [] from hstack] at hend
  refine h.finished (.of_setup hinv hstarting hcontrol) hstack
    (hbonds.trans (bonds_setState m t .done)) (fun x => ?_) hline (h.count.none hb) hkind hend
  rw [hstate]
  split_ifs with hx
  · rfl
  · exact (setState_state m t x .done).trans (if_neg hx)

theorem shutdown_stack (V : Methods ι σ α) (m : TaskManager.State ι σ) (t : ι) :
    (TaskManager.shutdown V m t).stack = m.stack := by
  have hfinalise : ∀ (s : TaskManager.State ι σ) x, (finalise V s x).stack = s.stack := by
    intro s x
    unfold finalise
    dsimp only
    split_ifs <;> rfl
  have hrelease : ∀ (s : TaskManager.State ι σ) x, (release s x).stack = s.stack := by
    intro s x
    unfold release
    dsimp only
    split_ifs <;> rfl
  rw [TaskManager.shutdown,hrelease,foldl_keeps State.stack,hfinalise]
  intro s x
  rw [hrelease,hfinalise]

/-- A task has notified all others when it is deleted. -/
theorem Wake.shut (h : Wake m) (hinv : Inv m) (V : Methods ι σ α) (hstack : m.stack = [])
    (hcontrol : m.control = .shutdown t) : Wake (TaskManager.shutdown V m t) := by
  obtain ⟨-,hmem,-,-,hfinish⟩ := hinv.shut_root hcontrol
  have hrel := hinv.shut_released V hcontrol
  have hin : ∀ x, x ∈ (m.task t).slaveTasks++[t] → x ∈ t::(m.task t).slaveTasks := fun x hx =>
    (List.perm_append_singleton t _).subset hx
  have hnil : ∀ x ∈ t::(m.task t).slaveTasks, (m.task x).notifies = [] := by
    refine fun x hx => List.eq_nil_iff_forall_not_mem.mpr fun ⟨y,k⟩ hy => ?_
    obtain ⟨-,hmaster,-,hk⟩ := h.entry x y k hy
    have hxt : x = t := by
      refine (List.mem_cons.mp hx).resolve_right fun hslave => ?_
      cases hmaster.symm.trans ((hinv.slaveTasks t x).mp hslave)
    subst hxt
    refine h.not_due hstack hy ?_
    obtain rfl | rfl := hk
    · refine .inl ⟨rfl,.inr ?_⟩
      rw [hfinish x hx]
      rfl
    · exact .inr ⟨rfl,.inr hmem⟩
  refine h.alike ⟨?_,fun x => ?_,fun x p hsub => ?_,fun x calls ok hc => ?_,fun p hp => ?_⟩
    (shutdown_stack V m t) fun p hp => ?_
  · funext x
    unfold bonds
    rw [hrel.task]
    split_ifs <;> rfl
  · rw [hrel.task]
    split_ifs with hx
    · rw [hfinish x (hin x hx)]
      rfl
    · rfl
  · unfold line at hsub ⊢
    rw [hrel.fifo,hrel.control]
    rw [hcontrol] at hsub
    exact hsub
  · cases hcontrol.symm.trans hc
  · rw [← List.count_pos_iff] at hp ⊢
    rw [hrel.other _ _ (by decide) (by decide)] at hp
    exact hp
  · rw [hrel.task] at hp
    split_ifs at hp with hx
    · exact .inr (hnil p (hin p hx))
    · exact .inl hp

/-- A task waits no longer to be emitted. -/
theorem Wake.timedDue (h : Wake m) (hstack : m.stack = []) (timedEmits : List ι) :
    Wake {clearWaiting m t with
      timedEmits := timedEmits
      stack := [.checkEmit t]} := by
  have hkeeps : ∀ x, ((clearWaiting m t).task x).notifies = (m.task x).notifies ∧
      ((clearWaiting m t).task x).blockCount = (m.task x).blockCount ∧
      ((clearWaiting m t).task x).emitNotifies = (m.task x).emitNotifies ∧
      ((clearWaiting m t).task x).state = (m.task x).state ∧
      ((clearWaiting m t).task x).master = (m.task x).master := by
    intro x
    unfold clearWaiting
    rw [modify_task]
    split_ifs <;> exact ⟨rfl,rfl,rfl,rfl,rfl⟩
  refine ⟨h.count.congr (fun p => (hkeeps p).1) fun x => (hkeeps x).2.1,fun p x k hx => ?_,
    fun p x k hx => ?_,fun p x k hx hdue => ?_,fun p k i hi => ?_,List.pairwise_singleton _ _,
    fun y hs hb hw => ?_,fun p hp => ?_⟩
  · dsimp only at hx
    rw [(hkeeps p).1] at hx
    exact (h.ahead p x k hx).congr (congrArg phase (hkeeps x).2.2.2.1)
      (congrArg phase (hkeeps p).2.2.2.1) id fun calls ok hc => ⟨calls,ok,hc⟩
  · dsimp only at hx ⊢
    rw [(hkeeps p).1] at hx
    rw [(hkeeps p).2.2.2.2,(hkeeps x).2.2.2.2]
    exact h.entry p x k hx
  · dsimp only at hx
    rw [(hkeeps p).1] at hx
    refine absurd ?_ (h.not_due hstack hx)
    unfold Due Emitted at hdue ⊢
    dsimp only at hdue
    rw [(hkeeps p).2.2.2.1,(hkeeps p).2.2.1] at hdue
    exact hdue
  · cases List.mem_singleton.mp hi
  · dsimp only at hs hb hw ⊢
    by_cases hyt : y = t
    · subst hyt
      exact List.mem_singleton_self _
    · refine absurd ?_ (h.no_ready hstack ((hkeeps y).2.2.2.1.symm.trans hs)
        ((hkeeps y).2.1.symm.trans hb))
      rw [clearWaiting,modify_task,if_neg hyt] at hw
      exact hw
  · dsimp only at hp ⊢
    rw [(hkeeps p).1]
    exact h.dead p ((hkeeps p).2.2.2.1.symm.trans hp)

theorem Wake.done (h : Wake m) (ht : (m.task t).state = .running) : Wake (TaskManager.done m t) := by
  have hstate : ∀ x, ((TaskManager.done m t).task x).state =
      if x = t then .done else (m.task x).state := fun x => setState_state m t x .done
  refine h.alike ⟨bonds_setState m t .done,fun x => ?_,fun x p hsub => ?_,fun x calls ok hc => ?_,
    fun p hp => ?_⟩ rfl fun p hp => .inl ?_
  · rw [hstate]
    split_ifs with hx
    · rw [hx,ht]
      rfl
    · rfl
  · have hline : line (TaskManager.done m t) = line m++[t] := line_pushTask (setState m t .done) t
    rw [hline]
    exact hsub.trans (List.sublist_append_left _ _)
  · exact ⟨calls,ok,hc⟩
  · refine (List.mem_append.mp hp).resolve_right fun hin => ?_
    cases List.mem_singleton.mp hin
  · rw [hstate] at hp
    split_ifs at hp
    exact hp

theorem Wake.congr (h : Wake m) (htask : u.task = m.task) (hline : line u = line m)
    (hsetup : ∀ x calls ok, m.control = .setup x calls ok →
      ∃ calls ok, u.control = .setup x calls ok)
    (hlog : u.log = m.log) (hstack : u.stack = m.stack) : Wake u := by
  refine h.alike ⟨?_,fun x => ?_,fun x p hsub => ?_,hsetup,fun p hp => ?_⟩ hstack fun p hp => .inl ?_
  · unfold bonds
    rw [htask]
  · rw [htask]
  · rw [hline]
    exact hsub
  · rwa [hlog] at hp
  · rwa [htask] at hp

/-- A `Setup()` names tasks that were not deleted, and may only fail for a task that is not blocked
and has none that follow. -/
def SetupKept (m : TaskManager.State ι σ) : Control ι → Prop
  | .setup _ ((p,_)::_) _ => (m.task p).master = none ∧ (m.task p).state ≠ .dead
  | .setup t [] false => (m.task t).blockCount = 0 ∧ ∀ e ∈ (m.task t).notifies, e.2 = .finish
  | _ => True

/-- How tasks are to be used: slaves take no part, a task is flushed after those that it notifies,
and `Done()` is called for tasks that run. -/
def Kept (m : TaskManager.State ι σ) : TaskManager.Event ι α → Prop
  | .addNotify p x _ => (m.task p).master = none ∧ (m.task x).master = none
  | .addSlave _ x => (m.task x).notifies = [] ∧ (m.task x).blockCount = 0
  | .flush t => ∀ e ∈ (m.task t).notifies, (m.task e.1).state ≠ .new
  | .done t => (m.task t).state = .running
  | .manager _ _ => SetupKept m m.control

theorem waiting_task (m : TaskManager.State ι σ) (t x : ι) :
    (waitTimedEmit (setupReady m t) t).task x =
      if x = t then {(setState m t .ready).task x with waitingTimedEmit := true}
      else (setState m t .ready).task x :=
  modify_task (setupReady m t) t x fun task => {task with waitingTimedEmit := true}

instance (m : TaskManager.State ι σ) : ∀ control, Decidable (SetupKept m control)
  | .setup _ ((p,_)::_) _ => inferInstanceAs (Decidable ((m.task p).master = none ∧ _))
  | .setup t [] false => inferInstanceAs (Decidable ((m.task t).blockCount = 0 ∧ _))
  | .setup _ [] true | .pull | .handle _ | .shutdown _ | .handleTimedEmits | .timedLoop _ =>
    inferInstanceAs (Decidable True)

instance (m : TaskManager.State ι σ) : DecidablePred (Kept m : TaskManager.Event ι α → Prop)
  | .addNotify p _ _ => inferInstanceAs (Decidable ((m.task p).master = none ∧ _))
  | .addSlave _ x => inferInstanceAs (Decidable ((m.task x).notifies = [] ∧ _))
  | .flush t => inferInstanceAs (Decidable (∀ e ∈ (m.task t).notifies, _))
  | .done t => inferInstanceAs (Decidable ((m.task t).state = .running))
  | .manager _ _ => inferInstanceAs (Decidable (SetupKept m m.control))

/-- Each step keeps the invariant. -/
theorem Wake.move {V : Methods ι σ α} {e : TaskManager.Event ι α} (h : Wake m) (hinv : Inv m)
    (hstarting : Starting m) (hkept : Kept m e) (hmove : Move V m e u) : Wake u := by
  cases hmove with
  | addNotify p x follow hp hx => exact h.addNotify hinv hp hx hkept.1 hkept.2 follow
  | addSlave o x => exact h.addSlave hkept.1 hkept.2
  | flush t ht => exact h.flush hinv ht hkept
  | done t => exact h.done hkept
  | emit t stack hstack ht hb => exact h.emit hinv hstarting hstack ht hb
  | noEmit t stack hstack hno => exact h.noEmit hstack hno
  | notified t k i stack hstack hnone => exact h.notified hstack hnone
  | skip t k i stack x k' hstack hsome hk => exact h.skip hstack hsome hk
  | notify t k i stack x hstack hentry => exact h.notify hstarting hstack hentry
  | timeout hstack hcontrol =>
    refine h.congr rfl ?_ (fun x calls ok hc => ?_) rfl rfl
    · simp only [line,hcontrol]
    · cases hcontrol.symm.trans hc
  | pull t fifo hstack hcontrol hfifo =>
    refine h.congr rfl ?_ (fun x calls ok hc => ?_) rfl rfl
    · simp only [line,hcontrol,hfifo]
      rfl
    · cases hcontrol.symm.trans hc
  | setup t hstack hcontrol =>
    refine h.congr rfl ?_ (fun x calls ok hc => ?_) rfl rfl
    · simp only [line,hcontrol]
    · cases hcontrol.symm.trans hc
  | handleReady t hstack hcontrol ht =>
    have hzero := hinv.queue t
    simp [TaskRun.queue,hcontrol,ht] at hzero
  | finish t hstack hcontrol ht => exact h.finish hinv hstack hcontrol ht
  | ignore t hstack hcontrol ht =>
    have hzero := hinv.queue t
    simp only [List.mem_cons,List.not_mem_nil,or_false,not_or] at ht
    simp [TaskRun.queue,hcontrol,ht.1,ht.2.2] at hzero
  | call t p follow calls ok hstack hcontrol =>
    have hkept : SetupKept m m.control := hkept
    rw [hcontrol] at hkept
    obtain ⟨hpm,hdead⟩ := hkept
    have hcall := h.call hinv hstarting hcontrol hpm hdead
    have hsame : (TaskManager.addNotify m p t follow).control = m.control :=
      addNotify_control m p t follow
    refine hcall.congr rfl ?_ (fun x calls' ok' hc => ?_) rfl rfl
    · simp only [line,hsame,hcontrol]
    · obtain rfl := (Control.setup.inj ((hsame.trans hcontrol).symm.trans hc)).1
      exact ⟨calls,ok,rfl⟩
  | ready t hstack hcontrol =>
    obtain ⟨-,ht⟩ := hstarting t [] true hcontrol
    refine h.set_ready hinv (.of_setup hinv hstarting hcontrol) ht hstack (fun x => ?_)
      (fun x _ => ?_) (setState_self m t .ready) (fun x hx => ?_) rfl rfl (fun f hf => ?_) fun _ => ?_
    · have hx := bonds_eq (bonds_setState m t .ready) x
      exact ⟨hx.1,hx.2.1,hx.2.2.2⟩
    · exact (bonds_eq (bonds_setState m t .ready) x).2.2.1
    · exact (setState_state m t x .ready).trans (if_neg hx)
    · exact List.mem_singleton.mp hf
    · exact List.mem_singleton_self _
  | wait t hstack hcontrol =>
    obtain ⟨-,ht⟩ := hstarting t [] true hcontrol
    have hwaiting := waiting_task m t
    refine h.set_ready hinv (.of_setup hinv hstarting hcontrol) ht hstack (fun x => ?_)
      (fun x hx => ?_) ?_ (fun x hx => ?_) rfl rfl (fun f hf => ?_) fun hw => ?_
    · have hx := bonds_eq (bonds_setState m t .ready) x
      rw [hwaiting]
      split_ifs <;> exact ⟨hx.1,hx.2.1,hx.2.2.2⟩
    · rw [hwaiting,if_neg hx]
      exact (bonds_eq (bonds_setState m t .ready) x).2.2.1
    · rw [hwaiting,if_pos rfl]
      exact setState_self m t .ready
    · rw [hwaiting,if_neg hx]
      exact (setState_state m t x .ready).trans (if_neg hx)
    · have hf : f ∈ m.stack := hf
      rw [hstack] at hf
      cases hf
    · rw [hwaiting,if_pos rfl] at hw
      cases hw
  | fail t hstack hcontrol =>
    have hkept : SetupKept m m.control := hkept
    rw [hcontrol] at hkept
    obtain ⟨hb,hkind⟩ := hkept
    exact h.fail hinv hstarting hcontrol hb hkind
  | shutdown t hstack hcontrol => exact h.shut hinv V hstack hcontrol
  | handleTimedEmits hstack hcontrol =>
    refine h.congr rfl ?_ (fun x calls ok hc => ?_) rfl rfl
    · simp only [line,hcontrol]
    · cases hcontrol.symm.trans hc
  | timedEnd hstack hcontrol =>
    refine h.congr rfl ?_ (fun x calls ok hc => ?_) rfl rfl
    · simp only [line,hcontrol]
    · cases hcontrol.symm.trans hc
  | timedNext t emits hstack hcontrol =>
    refine h.congr rfl ?_ (fun x calls ok hc => ?_) rfl rfl
    · simp only [line,hcontrol]
    · cases hcontrol.symm.trans hc
  | timedDue t emits hstack hcontrol => exact h.timedDue hstack emits

/-- What a step does to the entries: an entry blocks its task as it is added, and unblocks it as it
is erased. -/
inductive Noted (m u : TaskManager.State ι σ) : Prop
  | same : (∀ p, (u.task p).notifies = (m.task p).notifies) →
      (∀ x, (u.task x).blockCount = (m.task x).blockCount) → Noted m u
  | added (p x : ι) (k : TaskState) : u.log = m.log →
      (∀ q, (u.task q).notifies = (m.task q).notifies++if q = p then [(x,k)] else []) →
      (∀ y, (u.task y).blockCount = (m.task y).blockCount+if y = x then 1 else 0) → Noted m u
  | erased (p x : ι) (k : TaskState) (i : ℕ) : u.log = m.log →
      (m.task p).notifies[i]? = some (x,k) →
      (∀ q, (u.task q).notifies =
        if q = p then (m.task q).notifies.eraseIdx i else (m.task q).notifies) →
      (∀ y, (u.task y).blockCount+(if y = x then 1 else 0) = (m.task y).blockCount) → Noted m u

theorem Noted.of_bonds (h : bonds u = bonds m) : Noted m u :=
  .same (fun p => (bonds_eq h p).1) fun x => (bonds_eq h x).2.1

theorem noted_addNotify (m : TaskManager.State ι σ) (p x : ι) (follow : Bool) :
    Noted m (addNotify m p x follow) := by
  obtain ⟨heq,-⟩ | ⟨-,-,-,-,-,heq⟩ := addNotify_cases m p x follow
  all_goals rw [heq]
  · exact .of_bonds rfl
  · exact .added p x _ rfl (fun q => (addEntry_task m p x q _).1) fun y =>
      (addEntry_task m p x y _).2

theorem Wake.noted {V : Methods ι σ α} {e : TaskManager.Event ι α} (h : Wake m) (hinv : Inv m)
    (hstarting : Starting m) (hmove : Move V m e u) : Noted m u := by
  cases hmove with
  | addNotify p x follow => exact noted_addNotify m p x follow
  | addSlave o x =>
    refine .same (fun p => ?_) fun p => ?_
    all_goals
      rw [addSlave_task]
      split_ifs <;> rfl
  | flush t => exact .of_bonds (bonds_setState m t .flushed)
  | done t => exact .of_bonds (bonds_setState m t .done)
  | emit t stack =>
    have hpopped : Inv {m with stack := stack} := hinv.congr rfl
    exact .of_bonds (emit_effect hpopped t).1
  | notify t k i stack x hstack hentry =>
    have hx := h.notified_ready hstarting hstack (List.mem_of_getElem? hentry)
    have hx : ((eraseEntry m t i).task x).state = .ready :=
      (eraseEntry_keeps Task.state (fun _ _ => rfl) m t x i).trans hx
    rw [← hstack]
    change Noted m (handleNotify (eraseEntry m t i) x)
    rw [handleNotify_ready hx]
    refine .erased t x k i rfl hentry (fun q => ?_) (h.count.erase hentry).2
    exact (unblock_keeps Task.notifies (fun _ _ => rfl) _ x q).trans (eraseEntry_notifies m t q i)
  | finish t hstack hcontrol ht => exact .of_bonds (finish_effect ht).1
  | call t p follow =>
    obtain ⟨hnotifies,hblock⟩ | ⟨p,x,k,hlog,hnotifies,hblock⟩ |
      ⟨p,x,k,i,hlog,hentry,hnotifies,hblock⟩ := noted_addNotify m p t follow
    · exact .same hnotifies hblock
    · exact .added p x k hlog hnotifies hblock
    · exact .erased p x k i hlog hentry hnotifies hblock
  | ready t => exact .of_bonds (bonds_setState m t .ready)
  | wait t =>
    refine .same (fun p => ?_) fun p => ?_
    · refine Eq.trans ?_ (bonds_eq (bonds_setState m t .ready) p).1
      rw [waiting_task]
      split_ifs <;> rfl
    · refine Eq.trans ?_ (bonds_eq (bonds_setState m t .ready) p).2.1
      rw [waiting_task]
      split_ifs <;> rfl
  | fail t hstack hcontrol =>
    exact .of_bonds ((finish_effect (setState_self m t .done)).1.trans (bonds_setState m t .done))
  | shutdown t hstack hcontrol =>
    have hrel := hinv.shut_released V hcontrol
    refine .same (fun p => ?_) fun p => ?_
    all_goals
      rw [hrel.task]
      split_ifs <;> rfl
  | timedDue t emits =>
    refine .same (fun p => ?_) fun p => ?_
    · exact modify_keeps Task.notifies m t p (f := fun task => {task with waitingTimedEmit := false})
        fun _ => rfl
    · exact modify_keeps Task.blockCount m t p
        (f := fun task => {task with waitingTimedEmit := false}) fun _ => rfl
  | _ => exact .of_bonds rfl

/-- No task is blocked unless an entry names it, entries are those of live tasks, and an entry is
found by the time that its task is emitted or shut down. Tasks that nothing blocks are emitted. -/
structure Awake (m : TaskManager.State ι σ) : Prop where
  count : Counts m
  dead : ∀ p, (m.task p).state = .dead → (m.task p).notifies = []
  pushed : ∀ t, (.push,t) ∈ m.log → (m.task t).blockCount = 0
  ready : ∀ t, (m.task t).state = .ready → (m.task t).blockCount = 0 →
    (m.task t).waitingTimedEmit = false → .checkEmit t ∈ m.stack
  blocked : m.stack = [] → ∀ t, (m.task t).blockCount ≠ 0 →
    ∃ p, (t,.running) ∈ (m.task p).notifies ∧ ¬Emitted m p ∨
      (t,.finish) ∈ (m.task p).notifies ∧ (.shutdown,p) ∉ m.log

theorem Counts.zero (h : Counts m) (ht : ∀ p k, (t,k) ∉ (m.task p).notifies) :
    (m.task t).blockCount = 0 := by
  obtain ⟨S,-,hcount⟩ := h
  rw [hcount]
  refine Finset.sum_eq_zero fun p _ => List.countP_eq_zero.mpr fun ⟨x,k⟩ hx heq => ?_
  obtain rfl : x = t := of_decide_eq_true heq
  exact ht p k hx

theorem Wake.awake (h : Wake m) (hinv : Inv m) : Awake m := by
  refine ⟨h.count,h.dead,fun t ht => h.count.zero fun p k hx => ?_,h.ready,fun hstack t ht => ?_⟩
  · have hpos := List.count_pos_iff.mpr ht
    have hcounted := hinv.counted t
    have hstate := h.named_state hx
    generalize (m.task t).state = state,m.log.count (.push,t) = n,m.log.count (.done,t) = n',
      m.log.count (.finish,t) = n'' at hcounted hstate hpos
    cases hcounted with
    | new | flushed | ready => exact Nat.lt_irrefl 0 hpos
    | running | done hn | finish hn | dead hn => exact absurd hstate (by decide)
  · by_contra hnone
    refine ht (h.count.zero fun p k hx => hnone ⟨p,?_⟩)
    have hnot := h.not_due hstack hx
    obtain rfl | rfl := (h.entry p t k hx).2.2.2
    · exact .inl ⟨hx,fun hem => hnot (.inl ⟨rfl,hem⟩)⟩
    · exact .inr ⟨hx,fun hin => hnot (.inr ⟨rfl,.inr hin⟩)⟩

theorem Wake.initial (h : TaskManager.Initial m) : Wake m := by
  have htask : ∀ x, (m.task x).notifies = [] ∧ (m.task x).blockCount = 0 ∧
      (m.task x).state = .new := by
    intro x
    obtain ⟨emitNotifies,needSlavePush,tsEmit,hx⟩ := h.task x
    rw [hx]
    exact ⟨rfl,rfl,rfl⟩
  have hnone : ∀ p e, e ∉ (m.task p).notifies := fun p e he => by
    rw [(htask p).1] at he
    cases he
  refine ⟨⟨∅,fun p _ => (htask p).1,fun t => (htask t).2.1⟩,fun p x k hx => absurd hx (hnone p _),
    fun p x k hx => absurd hx (hnone p _),fun p x k hx => absurd hx (hnone p _),fun p k i hi => ?_,
    ?_,fun t ht => ?_,fun p _ => (htask p).1⟩
  · rw [h.stack] at hi
    cases hi
  · rw [h.stack]
    exact .nil
  · cases (htask t).2.2.symm.trans ht

end Manager

/-- No wake-up is lost, in any run of tasks that are used as they should be: an entry is erased as
its task is unblocked, and a task that was emitted was not blocked. -/
theorem no_lost_wakeup (V : Methods ι σ α) {m : TaskManager.State ι σ}
    (h : Reaches (TaskManager.step V) Kept TaskManager.Initial m) : Awake m ∧
    ∀ e u, Kept m e → TaskManager.step V m e = some u → Noted m u ∧
      ∀ t, (.push,t) ∈ u.log → (.push,t) ∉ m.log → (m.task t).blockCount = 0 := by
  have hstep : ∀ (m : TaskManager.State ι σ) e u, Wake m ∧ Inv m ∧ Starting m → Kept m e →
      TaskManager.step V m e = some u → Wake u ∧ Inv u ∧ Starting u := by
    rintro m e u ⟨hwake,hinv,hstarting⟩ hkept hu
    have hmove := move_of_step hu
    refine ⟨hwake.move hinv hstarting hkept hmove,?_⟩
    by_cases he : ∃ t, e = .done t
    · obtain ⟨t,rfl⟩ := he
      cases hmove with
      | done t =>
        refine ⟨hinv.done hkept,hstarting.congr rfl rfl fun x hx => ?_⟩
        have hxt : x ≠ t := by
          rintro rfl
          cases hx.symm.trans hkept
        exact (setState_state m t x .done).trans ((if_neg hxt).trans hx)
    · exact hinv.move hstarting (fun t ht => he ⟨t,ht⟩) hmove
  have hall : Wake m ∧ Inv m ∧ Starting m := by
    refine h.invariant (fun m => Wake m ∧ Inv m ∧ Starting m) (fun m hm => ?_) hstep
    refine ⟨.initial hm,.initial hm,fun t calls ok hc => ?_⟩
    cases hm.control.symm.trans hc
  refine ⟨hall.1.awake hall.2.1,fun e u hkept hu => ?_⟩
  have hnoted := hall.1.noted hall.2.1 hall.2.2 (move_of_step hu)
  obtain ⟨hwake,hinv,-⟩ := hstep m e u hall hkept hu
  refine ⟨hnoted,fun t hin hnot => ?_⟩
  obtain ⟨-,hblock⟩ | ⟨p,x,k,hlog,-⟩ | ⟨p,x,k,i,hlog,-⟩ := hnoted
  · exact (hblock t).symm.trans ((hwake.awake hinv).pushed t hin)
  · exact absurd (hlog ▸ hin) hnot
  · exact absurd (hlog ▸ hin) hnot

section Runs

/-- The third task follows the first one, as its `Setup()` finds out. -/
def following : Methods ℕ Unit Unit where
  setup _ t _ := (if t = 2 then [(0,true)] else [],true,())
  finalise _ _ := ()

/-- The `Setup()` of the first task fails. -/
def failing : Methods ℕ Unit Unit where
  setup _ t _ := ([],t ≠ 0,())
  finalise _ _ := ()

def fresh : TaskManager.State ℕ Unit :=
  ⟨fun t => new false (t = 0) 0,[],[],0,[],.pull,(),[]⟩

theorem fresh_initial : TaskManager.Initial fresh :=
  ⟨fun t => ⟨false,t = 0,0,rfl⟩,rfl,rfl,rfl,rfl,rfl,rfl⟩

def manage (n : ℕ) : List (TaskManager.Event ℕ Unit) := List.replicate n (.manager 0 ())

/-- A task is waited for by one that is to run after it, and by one that follows it. -/
theorem woken : ∃ m, Reaches (TaskManager.step following) Kept TaskManager.Initial m ∧ Awake m ∧
    m.log = [(.push,0),(.push,2),(.done,0),(.finish,0),(.shutdown,0),(.push,1),(.finalise,0),
      (.release,0)] := by
  have hinit : Reaches (TaskManager.step following) Kept TaskManager.Initial fresh :=
    .init fresh_initial
  have h := hinit.exec_ok (show execOk (TaskManager.step following) Kept fresh
    ([.addNotify 0 1 false,.flush 1,.flush 2]++manage 13++[.flush 0]++manage 11++[.done 0]++
      manage 9) = some _ from rfl)
  exact ⟨_,h,(no_lost_wakeup following h).1,rfl⟩

/-- A task is flushed and finishes before the one that it notifies is flushed, which stays blocked
though no entry names it. A slave never notifies, and neither does a task that failed notify those
that follow. -/
theorem never_woken :
    (∃ m, Reaches (TaskManager.step following) (fun _ _ => True) TaskManager.Initial m ∧
      ¬Awake m ∧ m.stack = [] ∧ m.control = .pull ∧ m.fifo = [] ∧ (m.task 0).state = .dead ∧
      (m.task 1).state = .ready ∧ (m.task 1).blockCount = 1 ∧ ∀ p, (m.task p).notifies = []) ∧
    (∃ m, Reaches (TaskManager.step following) (fun _ _ => True) TaskManager.Initial m ∧
      ¬Awake m ∧ m.stack = [] ∧ m.control = .pull ∧ m.fifo = [] ∧ (m.task 3).state = .dead ∧
      (m.task 3).master = some 0 ∧ (m.task 1).state = .ready ∧ (m.task 1).blockCount = 1) ∧
    ∃ m, Reaches (TaskManager.step failing) (fun _ _ => True) TaskManager.Initial m ∧
      ¬Awake m ∧ m.stack = [] ∧ m.control = .pull ∧ m.fifo = [] ∧ (m.task 0).state = .dead ∧
      (m.task 1).state = .ready ∧ (m.task 1).blockCount = 1 := by
  have hinit : ∀ V : Methods ℕ Unit Unit, Reaches (TaskManager.step V) (fun _ _ => True)
      TaskManager.Initial fresh := fun V => .init fresh_initial
  refine ⟨?_,?_,?_⟩
  · obtain ⟨m,hm,hrest⟩ : ∃ m, exec (TaskManager.step following) fresh ([.addNotify 0 1 false,
        .flush 0]++manage 8++[.done 0]++manage 7++[.flush 1]++manage 6) = some m ∧ m.stack = [] ∧
        m.control = .pull ∧ m.fifo = [] ∧ (m.task 0).state = .dead ∧ (m.task 1).state = .ready ∧
        (m.task 1).blockCount = 1 ∧ ∀ p, (m.task p).notifies = [] :=
      ⟨_,rfl,rfl,rfl,rfl,rfl,rfl,rfl,fun p => by rcases p with _ | _ | p <;> rfl⟩
    refine ⟨m,(hinit following).exec (fun _ _ => trivial) hm,fun hawake => ?_,hrest⟩
    obtain ⟨-,-,-,-,-,hblock,hnil⟩ := hrest
    have hzero := hawake.count.zero (t := 1) fun p k hx => by
      rw [hnil p] at hx
      cases hx
    cases hblock.symm.trans hzero
  · have h := (hinit following).exec (fun _ _ => trivial)
      (show exec (TaskManager.step following) fresh ([.addSlave 0 3,.addNotify 3 1 false,.flush 1,
        .flush 0]++manage 13++[.done 3,.done 0]++manage 10) = some _ from rfl)
    refine ⟨_,h,fun hawake => ?_,rfl,rfl,rfl,rfl,rfl,rfl,rfl⟩
    cases hawake.dead 3 rfl
  · have h := (hinit failing).exec (fun _ _ => trivial)
      (show exec (TaskManager.step failing) fresh ([.addNotify 0 1 true,.flush 1,.flush 0]++
        manage 14) = some _ from rfl)
    refine ⟨_,h,fun hawake => ?_,rfl,rfl,rfl,rfl,rfl,rfl⟩
    cases hawake.dead 0 rfl

end Runs

end DirectFB.TaskNotify
