import DirectFB.Reaches

/-! Waiting for a reference to drop to zero, with the skirmish of the reference: the builtin
implementation for several applications. -/
namespace DirectFB.FusionRefZeroLock
open Transition

inductive Result
  | ok | bug | busy | accessDenied | timeout | destroyed | noSharedMemory
  deriving DecidableEq

/-- Where a thread is that calls `fusion_ref_zero_lock`. -/
inductive Pc
  | before
  | waiting
  | returned (ret : Result)
  deriving DecidableEq

/-- A reference, and the thread: whether it holds the skirmish, and whether its entry in the list
of those that wait was notified. -/
structure State where
  localRefs : ℕ
  globalRefs : ℕ
  call : Bool
  held : Bool
  notified : Bool
  pc : Pc
  deriving DecidableEq

/-- `local + global` -/
def State.refs (s : State) : ℕ := s.localRefs+s.globalRefs

/-- `fusion_skirmish_notify` -/
def notify (s : State) : State := {s with notified := true}

/-- `_fusion_ref_change` with the skirmish held, without the call of the watcher. -/
def refChange (s : State) (add : ℤ) (isGlobal : Bool) : Result × State :=
  if isGlobal then
    if s.globalRefs+add < 0 then (.bug,s)
    else
      let s := {s with globalRefs := (s.globalRefs+add).toNat}
      (.ok,if s.refs = 0 then notify s else s)
  else if s.localRefs+add < 0 then (.bug,s)
  else
    let s := {s with localRefs := (s.localRefs+add).toNat}
    (.ok,if s.refs = 0 then notify s else s)

/-- `fusion_ref_watch` with the skirmish held. -/
def watch (s : State) : Result × State :=
  if s.refs = 0 then (.bug,s)
  else if s.call then (.busy,s)
  else (.ok,notify {s with call := true})

/-- `_fusion_check_locals`, which takes the references of fusionees that are dead. -/
def checkLocals (s : State) (dead : List ℕ) : State :=
  if s.localRefs ≠ 0 then
    dead.foldl (fun s (count : ℕ) => (refChange s (-(count : ℤ)) false).2) s
  else s

/-- What follows `fusion_skirmish_wait`. The condition in front of `return` ends with a semicolon,
so that the rest of the loop is not reached. -/
def afterWait (s : State) (ret : Result) : State := {s with pc := .returned ret}

/-- `fusion_ref_zero_lock` up to where it waits or returns. A wait may fail before the skirmish is
dismissed. -/
def zeroLock (s : State) (prevail : Result) (dead : List ℕ) (wait : Option Result) : State :=
  if prevail ≠ .ok then {s with pc := .returned prevail}
  else if s.call then {s with pc := .returned .accessDenied}
  else
    let s := checkLocals {s with held := true} dead
    if s.refs ≠ 0 then
      match wait with
      | some ret => afterWait s ret
      | none => {s with held := false, notified := false, pc := .waiting}
    else {s with pc := .returned .ok}

/-- The end of `fusion_skirmish_wait`, which acquires the skirmish again. -/
def wake (s : State) (timedOut : Bool) (prevail : Result) : State :=
  if prevail ≠ .ok then afterWait s .destroyed
  else afterWait {s with held := true} (if timedOut then .timeout else .ok)

/-- What others do with the reference, which the skirmish keeps out, and what the thread does. -/
inductive Event
  | change (add : ℤ) (isGlobal : Bool)
  | watch
  | notify
  | zeroLock (prevail : Result) (dead : List ℕ) (wait : Option Result)
  | wake (timedOut : Bool) (prevail : Result)

def step (s : State) : Event → Option State
  | .change add isGlobal => if s.held then none else some (refChange s add isGlobal).2
  | .watch => if s.held then none else some (watch s).2
  | .notify => some (notify s)
  | .zeroLock prevail dead wait =>
    if s.pc = .before ∧ prevail ≠ .timeout ∧ wait ≠ some .ok then
      some (zeroLock s prevail dead wait)
    else none
  | .wake timedOut prevail =>
    if s.pc = .waiting ∧ (timedOut ∨ s.notified) then some (wake s timedOut prevail) else none

def init (s : State) : Prop := s.pc = .before ∧ s.held = false

/-- What is asked of the function: it returns with the reference at zero and the skirmish held, or
with an error and without it, and not because of time while there are references. -/
structure Good (s : State) : Prop where
  ok : s.pc = .returned .ok → s.refs = 0 ∧ s.held = true
  error : ∀ ret ≠ .ok, s.pc = .returned ret → s.held = false
  timeout : s.pc = .returned .timeout → s.refs = 0

def Meets (s : State) : Event → Prop
  | .zeroLock prevail dead wait => prevail = .ok → s.call = false →
      (checkLocals {s with held := true} dead).refs ≠ 0 → wait = none
  | .wake timedOut prevail => prevail = .ok → timedOut = false ∧ s.refs = 0
  | _ => True

/-- What is kept by the runs: the skirmish is held where the function returned without an error,
and only there, and with it the references are at zero. -/
structure Inv (s : State) : Prop where
  held : s.held = true ↔ s.pc = .returned .ok
  refs : s.pc = .returned .ok → s.refs = 0
  timeout : s.pc ≠ .returned .timeout

section Steps

variable {s t : State} {add : ℤ} {isGlobal : Bool} {dead : List ℕ}

@[simp] theorem refChange_pc : (refChange s add isGlobal).2.pc = s.pc := by
  unfold refChange notify
  split_ifs <;> dsimp only <;> split_ifs <;> rfl

@[simp] theorem refChange_held : (refChange s add isGlobal).2.held = s.held := by
  unfold refChange notify
  split_ifs <;> dsimp only <;> split_ifs <;> rfl

@[simp] theorem watch_pc : (watch s).2.pc = s.pc := by
  unfold watch notify
  split_ifs <;> rfl

@[simp] theorem watch_held : (watch s).2.held = s.held := by
  unfold watch notify
  split_ifs <;> rfl

@[simp] theorem checkLocals_held : (checkLocals s dead).held = s.held := by
  unfold checkLocals
  split
  · exact foldl_keeps State.held (fun _ _ => refChange_held) dead s
  · rfl

theorem init_inv (h : init s) : Inv s where
  held := by simp [h.1,h.2]
  refs hok := by simp [h.1] at hok
  timeout := by simp [h.1]

theorem Inv.good (h : Inv s) : Good s where
  ok hok := ⟨h.refs hok,h.held.mpr hok⟩
  error ret hret hpc := by
    rw [← Bool.not_eq_true,h.held,hpc]
    exact fun heq => hret (Pc.returned.inj heq)
  timeout hpc := absurd hpc h.timeout

theorem Inv.of_free (h : Inv s) (hfree : s.held = false) (hpc : t.pc = s.pc)
    (hheld : t.held = s.held) : Inv t where
  held := by rw [hpc,hheld,h.held]
  refs hok := by
    rw [hpc,← h.held,hfree] at hok
    cases hok
  timeout := hpc ▸ h.timeout

theorem not_good_of_held {ret : Result} (hheld : t.held = true) (hpc : t.pc = .returned ret)
    (h : ret = .ok → t.refs ≠ 0) : ¬ Good t := by
  intro hgood
  by_cases hret : ret = .ok
  · subst hret
    exact h rfl (hgood.ok hpc).1
  · exact absurd (hgood.error ret hret hpc) (by simp [hheld])

theorem inv_of_error {ret : Result} (hheld : t.held = false) (hpc : t.pc = .returned ret)
    (hok : ret ≠ .ok) (htimeout : ret ≠ .timeout) : Inv t where
  held := by simp [hheld,hpc,hok]
  refs h := absurd (Pc.returned.inj (hpc.symm.trans h)) hok
  timeout h := htimeout (Pc.returned.inj (hpc.symm.trans h))

theorem zeroLock_good {prevail : Result} {wait : Option Result} (h : Inv s) (hs : s.pc = .before)
    (htimeout : prevail ≠ .timeout) (hwait : wait ≠ some .ok) :
    (Good (zeroLock s prevail dead wait) ↔ Meets s (.zeroLock prevail dead wait)) ∧
      (Good (zeroLock s prevail dead wait) → Inv (zeroLock s prevail dead wait)) := by
  have hfree : s.held = false := by
    rw [← Bool.not_eq_true,h.held,hs]
    simp
  unfold zeroLock Meets
  split
  · next hprevail =>
    have ht : Inv {s with pc := .returned prevail} := inv_of_error hfree rfl hprevail htimeout
    exact ⟨iff_of_true ht.good fun h => absurd h hprevail,fun _ => ht⟩
  next hprevail =>
  split
  · next hcall =>
    have ht : Inv {s with pc := .returned .accessDenied} :=
      inv_of_error hfree rfl (by decide) (by decide)
    exact ⟨iff_of_true ht.good fun _ h => absurd hcall (by simp [h]),fun _ => ht⟩
  next hcall =>
  dsimp only
  split
  · next hrefs =>
    cases wait with
    | some ret =>
      have hnot : ¬ Good (afterWait (checkLocals {s with held := true} dead) ret) :=
        not_good_of_held (checkLocals_held (s := {s with held := true})) rfl fun hok =>
          absurd (congrArg some hok) hwait
      refine ⟨iff_of_false hnot fun h => ?_,fun h => absurd h hnot⟩
      cases h (not_not.mp hprevail) (by simpa using hcall) hrefs
    | none =>
      have ht : Inv {checkLocals {s with held := true} dead with
          held := false, notified := false, pc := .waiting} :=
        ⟨by simp,fun hok => by simp at hok,by simp⟩
      exact ⟨iff_of_true ht.good fun _ _ _ => rfl,fun _ => ht⟩
  · next hrefs =>
    have ht : Inv {checkLocals {s with held := true} dead with pc := .returned .ok} :=
      ⟨iff_of_true (checkLocals_held (s := {s with held := true})) rfl,
        fun _ => not_not.mp hrefs,by simp⟩
    exact ⟨iff_of_true ht.good fun _ _ h => absurd h hrefs,fun _ => ht⟩

theorem wake_good {timedOut : Bool} {prevail : Result} (h : Inv s) (hs : s.pc = .waiting) :
    (Good (wake s timedOut prevail) ↔ Meets s (.wake timedOut prevail)) ∧
      (Good (wake s timedOut prevail) → Inv (wake s timedOut prevail)) := by
  have hfree : s.held = false := by
    rw [← Bool.not_eq_true,h.held,hs]
    simp
  unfold wake Meets
  split
  · next hprevail =>
    have ht : Inv (afterWait s .destroyed) := inv_of_error hfree rfl (by decide) (by decide)
    exact ⟨iff_of_true ht.good fun h => absurd h hprevail,fun _ => ht⟩
  next hprevail =>
  cases timedOut with
  | true =>
    have hnot : ¬ Good (afterWait {s with held := true} .timeout) :=
      not_good_of_held rfl rfl fun hok => by cases hok
    refine ⟨iff_of_false hnot fun h => ?_,fun h => absurd h hnot⟩
    exact Bool.noConfusion (h (not_not.mp hprevail)).1
  | false =>
    by_cases hrefs : s.refs = 0
    · have ht : Inv (afterWait {s with held := true} .ok) :=
        ⟨iff_of_true rfl rfl,fun _ => hrefs,by simp [afterWait]⟩
      exact ⟨iff_of_true ht.good fun _ => ⟨rfl,hrefs⟩,fun _ => ht⟩
    · have hnot : ¬ Good (afterWait {s with held := true} .ok) :=
        not_good_of_held rfl rfl fun _ => hrefs
      exact ⟨iff_of_false hnot fun h => hrefs (h (not_not.mp hprevail)).2,fun h => absurd h hnot⟩

/-- A step leads to what is asked of the function if its answers do. -/
theorem step_good {e : Event} (h : Inv s) (hstep : step s e = some t) :
    (Good t ↔ Meets s e) ∧ (Good t → Inv t) := by
  cases e with
  | change add isGlobal =>
    rw [step] at hstep
    split at hstep
    · cases hstep
    next hfree =>
    cases hstep
    have ht : Inv (refChange s add isGlobal).2 :=
      h.of_free (by simpa using hfree) refChange_pc refChange_held
    exact ⟨iff_of_true ht.good trivial,fun _ => ht⟩
  | watch =>
    rw [step] at hstep
    split at hstep
    · cases hstep
    next hfree =>
    cases hstep
    have ht : Inv (watch s).2 := h.of_free (by simpa using hfree) watch_pc watch_held
    exact ⟨iff_of_true ht.good trivial,fun _ => ht⟩
  | notify =>
    cases hstep
    have ht : Inv (notify s) := ⟨h.held,h.refs,h.timeout⟩
    exact ⟨iff_of_true ht.good trivial,fun _ => ht⟩
  | zeroLock prevail dead wait =>
    rw [step] at hstep
    split at hstep
    · next hs =>
      cases hstep
      exact zeroLock_good h hs.1 hs.2.1 hs.2.2
    · cases hstep
  | wake timedOut prevail =>
    rw [step] at hstep
    split at hstep
    · next hs =>
      cases hstep
      exact wake_good h hs.1
    · cases hstep

end Steps

/-- With answers that it can cope with the function does what is asked, and only with them. -/
theorem zero_lock_good (s : State) (h : Reaches step Meets init s) :
    Good s ∧ ∀ e t, step s e = some t → (Good t ↔ Meets s e) := by
  have hinv : Inv s := h.invariant Inv (fun _ => init_inv) fun s e t hs hok hstep =>
    (step_good hs hstep).2 ((step_good hs hstep).1.mpr hok)
  exact ⟨hinv.good,fun e t hstep => (step_good hinv hstep).1⟩

def used : State := ⟨1,0,false,false,false,.before⟩

def dropped : List Event := [.zeroLock .ok [] none,.change (-1) false,.wake false .ok]

instance (s : State) : DecidablePred (Meets s)
  | .change _ _ | .watch | .notify => .isTrue trivial
  | .zeroLock prevail _ wait =>
    inferInstanceAs (Decidable (prevail = .ok → s.call = false → _ → wait = none))
  | .wake timedOut prevail =>
    inferInstanceAs (Decidable (prevail = .ok → timedOut = false ∧ s.refs = 0))

theorem zero_lock_good_dropped : ∃ s, execOk step Meets used dropped = some s ∧ Good s ∧
    ∀ e t, step s e = some t → (Good t ↔ Meets s e) := by
  refine ⟨⟨0,0,false,true,true,.returned .ok⟩,by decide,?_⟩
  exact zero_lock_good _ (Reaches.exec_ok (.init ⟨rfl,rfl⟩)
    (show execOk step Meets used dropped = some _ by decide))

/-- The reference is still there after a second. -/
theorem timed_out_held : ¬ ∀ s, Reaches step (fun _ _ => True) init s → Good s := by
  intro h
  have hused : Reaches step (fun _ _ => True) init used := .init ⟨rfl,rfl⟩
  have hreach := hused.exec (fun _ _ => trivial)
    (show exec step used [.zeroLock .ok [] none,.wake true .ok] = some
      ⟨1,0,false,true,false,.returned .timeout⟩ by decide)
  exact absurd ((h _ hreach).error .timeout (by decide) rfl) (by decide)

end DirectFB.FusionRefZeroLock
