import DirectFB.TaskManager

/-! Timed emission. Tasks that wait for their time stamps are kept in an ordered set, and
the manager pulls other tasks only until the first of them is due. -/
set_option linter.unusedSectionVars false
namespace DirectFB
namespace TaskManager
open Transition

variable {ι σ α : Type*} [DecidableEq ι]

/-- No task gets lost in `timed_emits` behind another one with the same time stamp. -/
def TimedSafe (s : State ι σ) : Event ι α → Prop
  | .manager now _ => ∀ t, s.stack = [] → s.control = .setup t [] true →
      (s.task t).tsEmit ≠ 0 → now < (s.task t).tsEmit →
      ∀ x ∈ s.timedEmits, (s.task x).tsEmit ≠ (s.task t).tsEmit
  | _ => True

def timed (s : State ι σ) : (ι → Bool × ℤ) × List ι × ℤ :=
  (fun t => ((s.task t).waitingTimedEmit,(s.task t).tsEmit),s.timedEmits,s.pullTimeout)

/-- The set is ordered, the tasks that wait are its elements, and it bounds the timeout. -/
structure TimedInv (s : State ι σ) : Prop where
  sorted : s.timedEmits.Pairwise fun x y => (s.task x).tsEmit < (s.task y).tsEmit
  waiting : ∀ t, (s.task t).waitingTimedEmit = true ↔ t ∈ s.timedEmits
  nonzero : ∀ t ∈ s.timedEmits, (s.task t).tsEmit ≠ 0
  timeout : ∀ t ∈ s.timedEmits, s.pullTimeout ≠ 0 ∧ s.pullTimeout ≤ (s.task t).tsEmit

theorem timed_eq {s u : State ι σ} (h : timed u = timed s) :
    (∀ t, (u.task t).waitingTimedEmit = (s.task t).waitingTimedEmit) ∧
    (∀ t, (u.task t).tsEmit = (s.task t).tsEmit) ∧ u.timedEmits = s.timedEmits ∧
    u.pullTimeout = s.pullTimeout := by
  obtain ⟨htask,hemits,htimeout⟩ := by simpa only [timed,Prod.mk.injEq] using h
  exact ⟨fun t => (Prod.mk.inj (congrFun htask t)).1,fun t => (Prod.mk.inj (congrFun htask t)).2,
    hemits,htimeout⟩

theorem TimedInv.congr {s u : State ι σ} (h : TimedInv s) (hu : timed u = timed s) :
    TimedInv u := by
  obtain ⟨hwaiting,hts,hemits,htimeout⟩ := timed_eq hu
  refine ⟨?_,fun t => ?_,fun t ht => ?_,fun t ht => ?_⟩
  · rw [hemits]
    exact h.sorted.imp fun {x y} hxy => by rwa [hts x,hts y]
  · rw [hwaiting,hemits]
    exact h.waiting t
  · rw [hemits] at ht
    rw [hts]
    exact h.nonzero t ht
  · rw [hemits] at ht
    rw [htimeout,hts]
    exact h.timeout t ht

section Untimed

theorem timed_modify (s : State ι σ) (t : ι) {f : Task ι → Task ι}
    (h : ∀ task, (f task).waitingTimedEmit = task.waitingTimedEmit ∧
      (f task).tsEmit = task.tsEmit) : timed (modify s t f) = timed s := by
  simp only [timed,Prod.mk.injEq,modify_timedEmits,modify_pullTimeout,and_true]
  funext x
  rw [modify_task]
  split_ifs
  · rw [(h _).1,(h _).2]
  · rfl

@[simp] theorem timed_setState (s : State ι σ) (t : ι) (state : TaskState) :
    timed (setState s t state) = timed s := by
  refine timed_modify s t ?_
  exact fun _ => ⟨rfl,rfl⟩

@[simp] theorem timed_addNotify (s : State ι σ) (p notified : ι) (follow : Bool) :
    timed (addNotify s p notified follow) = timed s := by
  obtain ⟨h,-⟩ | ⟨-,-,-,-,-,h⟩ := addNotify_cases s p notified follow
  all_goals rw [h]
  simp only [addEntry]
  rw [timed_modify,timed_modify]
  · exact fun _ => ⟨rfl,rfl⟩
  · exact fun _ => ⟨rfl,rfl⟩

@[simp] theorem timed_addSlave (s : State ι σ) (m slave : ι) :
    timed (addSlave s m slave) = timed s := by
  simp only [addSlave]
  rw [timed_modify,timed_modify]
  · exact fun _ => ⟨rfl,rfl⟩
  · exact fun _ => ⟨rfl,rfl⟩

@[simp] theorem timed_push (s : State ι σ) (t : ι) : timed (push s t) = timed s :=
  timed_setState s t .running

theorem timed_emit (s : State ι σ) (t : ι) : timed (emit s t) = timed s :=
  pushed_keeps timed timed_push s t

theorem timed_handleNotify (s : State ι σ) (t : ι) : timed (handleNotify s t) = timed s := by
  have hunblock : timed (unblock s t) = timed s := by
    refine timed_modify s t ?_
    exact fun _ => ⟨rfl,rfl⟩
  simp only [handleNotify]
  split_ifs
  · exact hunblock
  · exact hunblock
  · rfl

theorem timed_eraseEntry (s : State ι σ) (t : ι) (i : ℕ) : timed (eraseEntry s t i) = timed s := by
  refine timed_modify s t ?_
  exact fun _ => ⟨rfl,rfl⟩

@[simp] theorem timed_countSlave (s : State ι σ) (m : ι) : timed (countSlave s m) = timed s := by
  refine timed_modify s m ?_
  exact fun _ => ⟨rfl,rfl⟩

theorem timed_beginFinish (s : State ι σ) (t : ι) : timed (beginFinish s t) = timed s :=
  timed_setState _ t .finish

theorem timed_finish (s : State ι σ) (t : ι) : timed (finish s t) = timed s := by
  obtain ⟨-,h⟩ | ⟨-,m,-,-,-,h⟩ | ⟨-,m,-,-,h⟩ | ⟨-,-,-,h⟩ | ⟨-,-,-,h⟩ := finish_cases s t
  all_goals rw [h]
  · exact timed_setState _ t .invalid
  · exact (timed_countSlave _ m).trans (timed_beginFinish s t)
  · exact (timed_countSlave _ m).trans (timed_beginFinish s t)
  · exact timed_beginFinish s t
  · exact timed_beginFinish s t

theorem timed_finalise (V : Methods ι σ α) (s : State ι σ) (t : ι) :
    timed (finalise V s t) = timed s := by
  simp only [finalise]
  split_ifs <;> rfl

theorem timed_release (s : State ι σ) (t : ι) : timed (release s t) = timed s := by
  have hrefs : timed (modify (record s .release t) t fun task => {task with
      refs := decrement task.refs}) = timed s := by
    refine timed_modify _ t ?_
    exact fun _ => ⟨rfl,rfl⟩
  simp only [release]
  split_ifs
  · exact (timed_setState _ t .dead).trans hrefs
  · exact hrefs

theorem timed_shutdown (V : Methods ι σ α) (s : State ι σ) (t : ι) :
    timed (shutdown V s t) = timed s := by
  rw [shutdown,timed_release,foldl_keeps timed,timed_finalise]
  · rfl
  · intro u x
    rw [timed_release,timed_finalise]

end Untimed

section Timed

variable {tsEmit : ι → ℤ} {t : ι} {l : List ι}

theorem mem_insertTimed (h : ∀ x ∈ l, tsEmit x ≠ tsEmit t) (x : ι) :
    x ∈ insertTimed tsEmit t l ↔ x = t ∨ x ∈ l := by
  induction l with
  | nil => simp [insertTimed]
  | cons y l ih =>
    have hy := h y (List.mem_cons_self ..)
    simp only [insertTimed]
    split_ifs with hlt hgt
    · simp
    · simp only [List.mem_cons,ih fun z hz => h z (List.mem_cons_of_mem _ hz)]
      tauto
    · omega

theorem pairwise_insertTimed (h : ∀ x ∈ l, tsEmit x ≠ tsEmit t)
    (hl : l.Pairwise fun x y => tsEmit x < tsEmit y) :
    (insertTimed tsEmit t l).Pairwise fun x y => tsEmit x < tsEmit y := by
  induction l with
  | nil => simp [insertTimed]
  | cons y l ih =>
    obtain ⟨hy,hl⟩ := List.pairwise_cons.mp hl
    have hne := h y (List.mem_cons_self ..)
    have hrest := fun z hz => h z (List.mem_cons_of_mem y hz)
    simp only [insertTimed]
    split_ifs with hlt hgt
    · refine List.pairwise_cons.mpr ⟨fun z hz => ?_,List.pairwise_cons.mpr ⟨hy,hl⟩⟩
      obtain rfl | hz := List.mem_cons.mp hz
      · exact hlt
      · exact hlt.trans (hy z hz)
    · refine List.pairwise_cons.mpr ⟨fun z hz => ?_,ih hrest hl⟩
      obtain rfl | hz := (mem_insertTimed hrest z).mp hz
      · exact hgt
      · exact hy z hz
    · omega

variable {V : Methods ι σ α} {s u : State ι σ} {e : Event ι α}

/-- Only two steps are about timed emission: one has a task wait, one has it emitted. -/
theorem timed_of_move (h : Move V s e u) : timed u = timed s ∨
    (∃ now a t, e = .manager now a ∧ s.stack = [] ∧ s.control = .setup t [] true ∧
      (s.task t).tsEmit ≠ 0 ∧ now < (s.task t).tsEmit ∧ u = waitTimedEmit (setupReady s t) t) ∨
    (∃ now, s.control = .timedLoop now ∧ s.timedEmits = [] ∧ u = {s with
      pullTimeout := 0
      control := .pull}) ∨
    (∃ now t timedEmits, s.control = .timedLoop now ∧ s.timedEmits = t::timedEmits ∧
      now < (s.task t).tsEmit ∧ u = {s with
        pullTimeout := (s.task t).tsEmit
        control := .pull}) ∨
    ∃ now t timedEmits, s.control = .timedLoop now ∧ s.timedEmits = t::timedEmits ∧
      ¬now < (s.task t).tsEmit ∧ u = {clearWaiting s t with
        timedEmits := timedEmits
        stack := [.checkEmit t]} := by
  cases h with
  | addNotify p x follow => exact .inl (timed_addNotify s p x follow)
  | addSlave m x => exact .inl (timed_addSlave s m x)
  | flush t => exact .inl (timed_setState s t .flushed)
  | done t => exact .inl (timed_setState s t .done)
  | emit t stack => exact .inl (timed_emit _ t)
  | notify t state i stack x =>
    exact .inl ((timed_handleNotify _ x).trans (timed_eraseEntry s t i))
  | finish t => exact .inl (timed_finish s t)
  | call t p follow => exact .inl (timed_addNotify s p t follow)
  | ready t => exact .inl (timed_setState s t .ready)
  | wait t hstack hcontrol hts hnow => exact .inr (.inl ⟨_,_,t,rfl,hstack,hcontrol,hts,hnow,rfl⟩)
  | fail t => exact .inl ((timed_finish _ t).trans (timed_setState s t .done))
  | shutdown t => exact .inl (timed_shutdown V s t)
  | timedEnd _ hcontrol hemits => exact .inr (.inr (.inl ⟨_,hcontrol,hemits,rfl⟩))
  | timedNext t emits _ hcontrol hemits hnow =>
    exact .inr (.inr (.inr (.inl ⟨_,t,emits,hcontrol,hemits,hnow,rfl⟩)))
  | timedDue t emits _ hcontrol hemits hnow =>
    exact .inr (.inr (.inr (.inr ⟨_,t,emits,hcontrol,hemits,hnow,rfl⟩)))
  | _ => exact .inl rfl

/-- A task that begins to wait is in the set, and wakes the manager in time. -/
theorem TimedInv.wait (h : TimedInv s) {t : ι} (hts : (s.task t).tsEmit ≠ 0)
    (hne : ∀ x ∈ s.timedEmits, (s.task x).tsEmit ≠ (s.task t).tsEmit) :
    TimedInv (waitTimedEmit s t) := by
  have htsEmit : ∀ x, ((waitTimedEmit s t).task x).tsEmit = (s.task x).tsEmit := fun x =>
    modify_keeps Task.tsEmit s t x (f := fun task => {task with waitingTimedEmit := true})
      fun _ => rfl
  have hwaiting : ∀ x, ((waitTimedEmit s t).task x).waitingTimedEmit =
      if x = t then true else (s.task x).waitingTimedEmit := by
    intro x
    rw [waitTimedEmit,modify_task]
    split_ifs <;> rfl
  have hmem := mem_insertTimed hne
  have hlow : (waitTimedEmit s t).pullTimeout ≠ 0 ∧
      (waitTimedEmit s t).pullTimeout ≤ (s.task t).tsEmit ∧
      (s.timedEmits ≠ [] → (waitTimedEmit s t).pullTimeout ≤ s.pullTimeout) := by
    simp only [waitTimedEmit]
    split_ifs with hlt
    · refine ⟨hts,le_rfl,fun hnil => ?_⟩
      obtain ⟨x,l,hl⟩ := List.exists_cons_of_ne_nil hnil
      have hzero := (h.timeout x (hl ▸ List.mem_cons_self ..)).1
      exact (hlt.resolve_right hzero).le
    · push Not at hlt
      exact ⟨hlt.2,hlt.1,fun _ => le_rfl⟩
  refine ⟨?_,fun x => ?_,fun x hx => ?_,fun x hx => ?_⟩
  · simp only [htsEmit]
    exact pairwise_insertTimed hne h.sorted
  · rw [hwaiting,show (waitTimedEmit s t).timedEmits = insertTimed (fun x => (s.task x).tsEmit) t
      s.timedEmits from rfl,hmem,← h.waiting x]
    split_ifs with hxt
    · simp [hxt]
    · simp [hxt]
  · rw [htsEmit]
    obtain rfl | hx := (hmem x).mp hx
    · exact hts
    · exact h.nonzero x hx
  · rw [htsEmit]
    obtain rfl | hx := (hmem x).mp hx
    · exact ⟨hlow.1,hlow.2.1⟩
    · exact ⟨hlow.1,(hlow.2.2 (List.ne_nil_of_mem hx)).trans (h.timeout x hx).2⟩

/-- A task that is due leaves the set. -/
theorem TimedInv.due (h : TimedInv s) {t : ι} {timedEmits : List ι} {stack : List (Frame ι)}
    (hemits : s.timedEmits = t::timedEmits) : TimedInv {clearWaiting s t with
      timedEmits := timedEmits
      stack := stack} := by
  have hsorted := h.sorted
  rw [hemits] at hsorted
  obtain ⟨hfirst,hsorted⟩ := List.pairwise_cons.mp hsorted
  have htsEmit : ∀ x, ((clearWaiting s t).task x).tsEmit = (s.task x).tsEmit := fun x =>
    modify_keeps Task.tsEmit s t x (f := fun task => {task with waitingTimedEmit := false})
      fun _ => rfl
  have hout : t ∉ timedEmits := fun ht => lt_irrefl _ (hfirst t ht)
  refine ⟨?_,fun x => ?_,fun x hx => ?_,fun x hx => ?_⟩
  · simp only [htsEmit]
    exact hsorted
  · have hx := h.waiting x
    rw [hemits,List.mem_cons] at hx
    simp only [clearWaiting,modify_task]
    split_ifs with hxt
    · simp [hxt,hout]
    · simpa [hxt] using hx
  · simp only [htsEmit]
    exact h.nonzero x (hemits ▸ List.mem_cons_of_mem _ hx)
  · simp only [htsEmit]
    exact h.timeout x (hemits ▸ List.mem_cons_of_mem _ hx)

theorem TimedInv.first_le (h : TimedInv s) {t : ι} {timedEmits : List ι}
    (hemits : s.timedEmits = t::timedEmits) {x : ι} (hx : x ∈ s.timedEmits) :
    (s.task t).tsEmit ≤ (s.task x).tsEmit := by
  have hsorted := h.sorted
  rw [hemits] at hsorted hx
  obtain rfl | hx := List.mem_cons.mp hx
  · exact le_rfl
  · exact ((List.pairwise_cons.mp hsorted).1 x hx).le

theorem TimedInv.step (h : TimedInv s) (hok : TimedSafe s e) (hs : step V s e = some u) :
    TimedInv u := by
  obtain hsame | ⟨now,a,t,rfl,hstack,hcontrol,hts,hnow,rfl⟩ | ⟨now,-,hemits,rfl⟩ |
    ⟨now,t,emits,-,hemits,-,rfl⟩ | ⟨now,t,emits,-,hemits,-,rfl⟩ := timed_of_move (move_of_step hs)
  · exact h.congr hsame
  · have hready : TimedInv (setupReady s t) := h.congr (timed_setState s t .ready)
    obtain ⟨-,htsEmit,-⟩ := timed_eq (timed_setState s t .ready)
    refine hready.wait ?_ fun x hx => ?_
    · rw [show ((setupReady s t).task t).tsEmit = (s.task t).tsEmit from htsEmit t]
      exact hts
    · rw [show ((setupReady s t).task x).tsEmit = (s.task x).tsEmit from htsEmit x,
        show ((setupReady s t).task t).tsEmit = (s.task t).tsEmit from htsEmit t]
      exact hok t hstack hcontrol hts hnow x hx
  · exact ⟨h.sorted,h.waiting,h.nonzero,fun t ht => by rw [hemits] at ht; cases ht⟩
  · refine ⟨h.sorted,h.waiting,h.nonzero,fun x hx => ⟨?_,h.first_le hemits hx⟩⟩
    exact h.nonzero t (hemits ▸ List.mem_cons_self ..)
  · exact h.due hemits

theorem TimedInv.initial (h : Initial s) : TimedInv s := by
  refine ⟨?_,fun t => ?_,fun t ht => ?_,fun t ht => ?_⟩
  · rw [h.timedEmits]
    exact .nil
  · obtain ⟨emitNotifies,needSlavePush,tsEmit,ht⟩ := h.task t
    rw [ht,h.timedEmits]
    simp [new]
  · rw [h.timedEmits] at ht
    cases ht
  · rw [h.timedEmits] at ht
    cases ht

theorem TimedInv.reaches (h : Reaches (TaskManager.step V) TimedSafe Initial s) : TimedInv s :=
  h.invariant TimedInv (fun _ => TimedInv.initial) fun _ _ _ hinv hok hs => hinv.step hok hs

theorem waiting_cleared (hs : TaskManager.step V s e = some u) {x : ι}
    (hx : (s.task x).waitingTimedEmit = true) (hux : (u.task x).waitingTimedEmit = false) :
    ∃ now, s.control = .timedLoop now ∧ (s.task x).tsEmit ≤ now ∧ u.control = .timedLoop now ∧
      u.stack = [.checkEmit x] := by
  obtain hsame | ⟨now,a,t,-,-,-,-,-,rfl⟩ | ⟨now,-,-,rfl⟩ | ⟨now,t,emits,-,-,-,rfl⟩ |
    ⟨now,t,emits,hcontrol,hemits,hnow,rfl⟩ := timed_of_move (move_of_step hs)
  · rw [(timed_eq hsame).1,hx] at hux
    cases hux
  · have hready := (timed_eq (timed_setState s t .ready)).1 x
    simp only [waitTimedEmit,modify_task] at hux
    split_ifs at hux
    rw [setupReady,hready,hx] at hux
    cases hux
  · exact absurd hux (by simp [hx])
  · exact absurd hux (by simp [hx])
  · simp only [clearWaiting,modify_task] at hux
    split_ifs at hux with hxt
    · subst hxt
      exact ⟨now,hcontrol,not_lt.mp hnow,hcontrol,rfl⟩
    · rw [hx] at hux
      cases hux

theorem control_of_thread (h : TaskManager.step V s e = some u) (he : ∀ now a, e ≠ .manager now a) :
    u.control = s.control := by
  have hmove := move_of_step h
  cases hmove with
  | addNotify p x follow =>
    obtain ⟨h,-⟩ | ⟨-,-,-,-,-,h⟩ := addNotify_cases s p x follow
    all_goals rw [h]
    rfl
  | addSlave m x => rfl
  | flush t => rfl
  | done t => rfl
  | _ => exact absurd rfl (he _ _)

/-- The loop is only left when no task that waits is due. -/
theorem TimedInv.exit (h : TimedInv s) {now : ℤ} (hs : TaskManager.step V s e = some u)
    (hcontrol : s.control = .timedLoop now) (hleft : u.control ≠ .timedLoop now) {x : ι}
    (hx : (u.task x).waitingTimedEmit = true) : now < (u.task x).tsEmit := by
  by_cases he : ∃ time a, e = .manager time a
  · obtain ⟨time,a,rfl⟩ := he
    have hu : manage V s time a = some u := hs
    cases hstack : s.stack with
    | cons frame stack =>
      rw [manage,hstack] at hu
      obtain rfl := Option.some.inj hu
      have hkeeps := (runFrame_control {s with stack := stack} frame).1
      exact absurd (hkeeps.trans hcontrol) hleft
    | nil =>
      rw [manage,hstack,hcontrol] at hu
      obtain rfl := Option.some.inj hu
      rw [timedLoop] at hleft hx ⊢
      cases hemits : s.timedEmits with
      | nil =>
        rw [hemits] at hx
        have hmem := (h.waiting x).mp hx
        rw [hemits] at hmem
        cases hmem
      | cons t emits =>
        simp only [hemits] at hleft hx ⊢
        split_ifs at hleft hx ⊢ with hnow
        · exact hnow.trans_le (h.first_le hemits ((h.waiting x).mp hx))
        · exact absurd hcontrol hleft
  · push Not at he
    exact absurd ((control_of_thread hs he).trans hcontrol) hleft

end Timed

/-- As long as no task comes behind another one with the same time stamp, each task that waits
is in the set, the manager wakes up in time for the first of them, and `handleTimedEmits`
clears the flags of those that are due, checks each of them, leaves none and comes to an end. -/
theorem no_timed_task_lost (V : Methods ι σ α) {s : State ι σ}
    (h : Reaches (step V) TimedSafe Initial s) :
    (∀ t, (s.task t).waitingTimedEmit = true → t ∈ s.timedEmits) ∧
    (s.timedEmits ≠ [] → s.pullTimeout ≠ 0 ∧
      ∀ t, (s.task t).waitingTimedEmit = true → s.pullTimeout ≤ (s.task t).tsEmit) ∧
    (∀ e u x, step V s e = some u → (s.task x).waitingTimedEmit = true →
      (u.task x).waitingTimedEmit = false → ∃ now, s.control = .timedLoop now ∧
        (s.task x).tsEmit ≤ now ∧ u.control = .timedLoop now ∧ u.stack = [.checkEmit x]) ∧
    (∀ e u now, step V s e = some u → s.control = .timedLoop now → u.control ≠ .timedLoop now →
      ∀ x, (u.task x).waitingTimedEmit = true → now < (u.task x).tsEmit) ∧
    (Finite ι → ∀ inputs, ∃ n u, exec (step V) s (managerEvents inputs n) = some u ∧
      u.control = .pull ∧ u.stack = []) := by
  have hinv := TimedInv.reaches h
  refine ⟨fun t => (hinv.waiting t).mp,fun hne => ⟨?_,fun t ht => ?_⟩,fun e u x hs hx hux => ?_,
    fun e u now hs hcontrol hleft x hx => hinv.exit hs hcontrol hleft hx,fun hfinite inputs => ?_⟩
  · obtain ⟨t,emits,hemits⟩ := List.exists_cons_of_ne_nil hne
    exact (hinv.timeout t (hemits ▸ List.mem_cons_self ..)).1
  · exact (hinv.timeout t ((hinv.waiting t).mp ht)).2
  · exact waiting_cleared hs hx hux
  · have := Fintype.ofFinite ι
    exact drains V inputs s

section Runs

def free : Methods (Fin 2) Unit Unit where
  setup _ _ _ := ([],true,())
  finalise _ _ := ()

def simultaneous (tsEmit : ℤ) : State (Fin 2) Unit where
  task _ := new false false tsEmit
  fifo := []
  timedEmits := []
  pullTimeout := 0
  stack := []
  control := .pull
  data := ()
  log := []

theorem simultaneous_initial (tsEmit : ℤ) : Initial (simultaneous tsEmit) :=
  ⟨fun _ => ⟨false,false,tsEmit,rfl⟩,rfl,rfl,rfl,rfl,rfl,rfl⟩

/-- A task is flushed, and gets through its `Setup()` before its time. -/
def flushAndSetUp (t : Fin 2) : List (Event (Fin 2) Unit) :=
  [.flush t,.manager 0 (),.manager 0 (),.manager 0 ()]

/-- One task that waits for its time, at which the manager deals with it. -/
theorem one_timed_task : ∃ s, Reaches (step free) TimedSafe Initial s ∧
    s.timedEmits = [0] ∧ s.pullTimeout = 5 ∧
    (s.pullTimeout ≠ 0 ∧ ∀ t, (s.task t).waitingTimedEmit = true →
      s.pullTimeout ≤ (s.task t).tsEmit) ∧
    ∃ n u, exec (step free) s (managerEvents (fun _ => (7,())) n) = some u ∧ u.control = .pull ∧
      u.stack = [] := by
  obtain ⟨s,hs,hemits,htimeout⟩ : ∃ s, Reaches (step free) TimedSafe Initial s ∧
      s.timedEmits = [0] ∧ s.pullTimeout = 5 := by
    refine ⟨_,.step (.manager 0 ()) (.step (.manager 0 ()) (.step (.manager 0 ()) (.step (.flush 0)
      (.init (simultaneous_initial 5)) trivial rfl) ?_ rfl) ?_ rfl) ?_ rfl,rfl,rfl⟩
    · exact fun t _ hcontrol => nomatch hcontrol
    · exact fun t _ hcontrol => nomatch hcontrol
    · exact fun t _ _ _ _ x hx => nomatch hx
  have htimed := no_timed_task_lost free hs
  refine ⟨s,hs,hemits,htimeout,htimed.2.1 ?_,htimed.2.2.2.2 inferInstance _⟩
  simp [hemits]

/-- Of two tasks with the same time stamp, the second is not in the set. -/
theorem simultaneous_task_lost : ∃ s, Reaches (step free) (fun _ _ => True) Initial s ∧
    (s.task 1).waitingTimedEmit = true ∧ 1 ∉ s.timedEmits := by
  obtain ⟨s,hs,hwaiting,hout⟩ : ∃ s, exec (step free) (simultaneous 5)
      (flushAndSetUp 0++[.manager 0 (),.manager 0 ()]++flushAndSetUp 1) = some s ∧
      (s.task 1).waitingTimedEmit = true ∧ 1 ∉ s.timedEmits :=
    ⟨_,rfl,by decide,by decide⟩
  have hstart : Reaches (step free) (fun _ _ => True) Initial (simultaneous 5) :=
    .init (simultaneous_initial 5)
  exact ⟨s,hstart.exec (fun _ _ => trivial) hs,hwaiting,hout⟩

end Runs

end TaskManager

end DirectFB
