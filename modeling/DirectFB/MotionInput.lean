import DirectFB.Reaches

/-! Input events on their way through a window stack. Motion is held back, one event per axis, until
another event comes, or the dispatcher has nothing else to do. -/
namespace DirectFB.MotionInput
open Transition

inductive DFBInputEventType
  | unknown | keyPress | keyRelease | buttonPress | buttonRelease | axisMotion
  deriving DecidableEq

inductive DFBInputDeviceAxisIdentifier
  | x | y | other (n : ℕ)
  deriving DecidableEq

/-- What is read of an event, and the rest of it as `data`. -/
structure DFBInputEvent (δ : Type*) where
  type : DFBInputEventType
  deviceId : ℕ
  absolute : Bool
  follow : Bool
  axis : DFBInputDeviceAxisIdentifier
  axisabs : BitVec 32
  axisrel : BitVec 32
  data : δ
  deriving DecidableEq

/-- `CoreWindowStack`, with no event in place of one of type `DIET_UNKNOWN`, the context of its
layer, the cleanups that are registered for it, and what came and went. `others` are the
references to the context that belong to others. -/
structure State (δ : Type*) where
  motionX : Option (DFBInputEvent δ)
  motionY : Option (DFBInputEvent δ)
  motionTs : ℤ
  motionCleanup : Bool
  cleanups : ℕ
  active : Bool
  refs : ℕ
  others : ℕ
  attached : Bool
  received : List (DFBInputEvent δ)
  handed : List (DFBInputEvent δ)

variable {δ : Type*}

/-- The events that `WindowStack_Input_Flush` has to hand over. -/
def pending (s : State δ) : List (DFBInputEvent δ) :=
  (s.motionX.map fun e => {e with follow := e.follow || s.motionY.isSome}).toList++s.motionY.toList

/-- `WindowStack_Input_Flush`. -/
def flush (s : State δ) : State δ :=
  if s.motionX.isNone ∧ s.motionY.isNone then s
  else {s with
    handed := if s.active then s.handed++pending s else s.handed
    motionX := none
    motionY := none
    motionCleanup := false
    motionTs := 0}

/-- `WindowStack_Input_AddAbsolute`. -/
def addAbsolute (event : DFBInputEvent δ) : DFBInputEvent δ := {event with follow := false}

/-- `WindowStack_Input_AddRelative`. -/
def addRelative (target : Option (DFBInputEvent δ)) (event : DFBInputEvent δ) : DFBInputEvent δ :=
  {event with
    axisrel := event.axisrel+(target.elim 0 fun t => t.axisrel)
    follow := false}

def addTo (target : Option (DFBInputEvent δ)) (event : DFBInputEvent δ) : DFBInputEvent δ :=
  if event.absolute then addAbsolute event else addRelative target event

/-- The beginning of `WindowStack_Input_Add`, for another device or after some time. -/
def flushOld (s : State δ) (ts : ℤ) (event : DFBInputEvent δ) : State δ :=
  if (s.motionX.any fun e => e.deviceId ≠ event.deviceId) ∨
      (s.motionY.any fun e => e.deviceId ≠ event.deviceId) ∨ 10000 < ts-s.motionTs then flush s
  else s

/-- `WindowStack_Input_Add`. -/
def add (s : State δ) (ts : ℤ) (event : DFBInputEvent δ) : State δ :=
  let s := flushOld s ts event
  let s := if s.motionTs = 0 then {s with motionTs := ts} else s
  match event.axis with
  | .x => {s with motionX := some (addTo s.motionX event)}
  | .y => {s with motionY := some (addTo s.motionY event)}
  | .other _ => s

def DFBInputEvent.isMotion (event : DFBInputEvent δ) : Bool :=
  event.type = .axisMotion && (event.axis = .x || event.axis = .y)

/-- `_dfb_windowstack_inputdevice_listener`. -/
def listener (s : State δ) (ts : ℤ) (event : DFBInputEvent δ) : State δ :=
  if s.refs = 0 then {s with attached := false}
  else
    let s := {s with
      received := if s.active then s.received++[event] else s.received
      refs := s.refs+1}
    if event.isMotion then
      let s := add s ts event
      if s.motionCleanup then {s with refs := s.refs-1}
      else {s with
        cleanups := s.cleanups+1
        motionCleanup := true}
    else
      let s := flush s
      let s := if s.active then {s with handed := s.handed++[event]} else s
      if s.motionCleanup then s else {s with refs := s.refs-1}

/-- `WindowStack_Input_DispatchCleanup`. -/
def dispatchCleanup (s : State δ) : State δ :=
  let s := flush {s with cleanups := s.cleanups-1}
  {s with refs := s.refs-1}

inductive Event (δ : Type*)
  | input (ts : ℤ) (event : DFBInputEvent δ)
  | cleanup
  | activate (active : Bool)
  | ref
  | unref

/-- A step of the dispatcher, or of those that use the context otherwise. -/
def step (s : State δ) : Event δ → Option (State δ)
  | .input ts event => if s.attached then some (listener s ts event) else none
  | .cleanup => if 0 < s.cleanups then some (dispatchCleanup s) else none
  | .activate active => some {s with active}
  | .ref => some {s with
      refs := s.refs+1
      others := s.others+1}
  | .unref => if 0 < s.others then some {s with
      refs := s.refs-1
      others := s.others-1} else none

structure Initial (s : State δ) : Prop where
  motionX : s.motionX = none
  motionY : s.motionY = none
  motionTs : s.motionTs = 0
  motionCleanup : s.motionCleanup = false
  cleanups : s.cleanups = 0
  refs : s.refs = s.others
  received : s.received = []
  handed : s.handed = []

def effect (axis : DFBInputDeviceAxisIdentifier) (event : DFBInputEvent δ) (position : BitVec 32) :
    BitVec 32 :=
  if event.axis = axis then
    if event.absolute then event.axisabs else position+event.axisrel
  else position

/-- The events other than motion, each with the effect of the motion before it on both axes, and
the effect of the motion after the last of them. -/
structure Digest (δ : Type*) where
  events : List ((BitVec 32 → BitVec 32)×(BitVec 32 → BitVec 32)×DFBInputEvent δ)
  x : BitVec 32 → BitVec 32
  y : BitVec 32 → BitVec 32

def Digest.add (d : Digest δ) (event : DFBInputEvent δ) : Digest δ :=
  if event.isMotion then {d with
    x := effect .x event∘d.x
    y := effect .y event∘d.y}
  else ⟨d.events++[(d.x,d.y,event)],id,id⟩

def digest (l : List (DFBInputEvent δ)) : Digest δ := l.foldl Digest.add ⟨[],id,id⟩

/-- What was handed over amounts to what was received while the context was active, apart from
motion that waits for a cleanup, and each cleanup has a reference to release. -/
structure Preserved (s : State δ) : Prop where
  digest : digest s.received = digest (s.handed++if s.active then pending s else [])
  pending : s.cleanups = 0 → pending s = []
  refs : s.refs = s.others+s.cleanups

def Kept (s : State δ) : Event δ → Prop
  | .input ts event => event.isMotion → !event.absolute →
      (event.axis = .x → ∀ e ∈ (flushOld s ts event).motionX, !e.absolute) ∧
      (event.axis = .y → ∀ e ∈ (flushOld s ts event).motionY, !e.absolute)
  | .activate _ => pending s = []
  | _ => True

section Lemmas
variable {s : State δ} {ts : ℤ} {event : DFBInputEvent δ}

theorem digest_append (l l' : List (DFBInputEvent δ)) :
    digest (l++l') = l'.foldl Digest.add (digest l) := List.foldl_append

def held (axis : DFBInputDeviceAxisIdentifier) (e : Option (DFBInputEvent δ)) :
    BitVec 32 → BitVec 32 := e.elim id (effect axis)

structure Held (s : State δ) : Prop where
  motionX : ∀ e ∈ s.motionX, e.type = .axisMotion ∧ e.axis = .x
  motionY : ∀ e ∈ s.motionY, e.type = .axisMotion ∧ e.axis = .y
  active : s.active = true → digest s.received = ⟨(digest s.handed).events,
    held .x s.motionX∘(digest s.handed).x,held .y s.motionY∘(digest s.handed).y⟩
  inactive : s.active = false → digest s.received = digest s.handed

structure Inv (s : State δ) : Prop extends Held s where
  cleanup : s.motionCleanup = true ↔ pending s ≠ []
  cleanups : pending s ≠ [] → 0 < s.cleanups
  refs : s.refs = s.others+s.cleanups

theorem pending_eq_nil : pending s = [] ↔ s.motionX = none ∧ s.motionY = none := by
  unfold pending
  cases s.motionX <;> cases s.motionY <;> simp

/-- What is held back has its effect when it is handed over. -/
theorem digest_pending (hx : ∀ e ∈ s.motionX, e.type = .axisMotion ∧ e.axis = .x)
    (hy : ∀ e ∈ s.motionY, e.type = .axisMotion ∧ e.axis = .y) (d : Digest δ) :
    (pending s).foldl Digest.add d = ⟨d.events,held .x s.motionX∘d.x,held .y s.motionY∘d.y⟩ := by
  have hother : ∀ (e : DFBInputEvent δ) a, e.axis ≠ a → effect a e = id := fun e a ha => by
    funext p
    exact if_neg ha
  unfold pending
  rw [List.foldl_append]
  cases hmx : s.motionX with
  | none =>
    cases hmy : s.motionY with
    | none => rfl
    | some e =>
      obtain ⟨htype,haxis⟩ := hy e hmy
      have hmotion : e.isMotion = true := by simp [DFBInputEvent.isMotion,htype,haxis]
      simp only [Option.map_none,Option.toList_none,List.foldl_nil,Option.toList_some,
        List.foldl_cons,Digest.add,hmotion,if_true]
      rw [hother e .x (by rw [haxis]; decide)]
      rfl
  | some e =>
    obtain ⟨htype,haxis⟩ := hx e hmx
    have hmotion : ∀ b, ({e with follow := b} : DFBInputEvent δ).isMotion = true := fun b => by
      simp [DFBInputEvent.isMotion,htype,haxis]
    have hsame : ∀ a b, effect a ({e with follow := b} : DFBInputEvent δ) = effect a e :=
      fun _ _ => rfl
    cases hmy : s.motionY with
    | none =>
      simp only [Option.map_some,Option.toList_some,List.foldl_cons,List.foldl_nil,Digest.add,
        hmotion,if_true,hsame,Option.toList_none]
      rw [hother e .y (by rw [haxis]; decide)]
      rfl
    | some e' =>
      obtain ⟨htype',haxis'⟩ := hy e' hmy
      have hmotion' : e'.isMotion = true := by simp [DFBInputEvent.isMotion,htype',haxis']
      simp only [Option.map_some,Option.toList_some,List.foldl_cons,List.foldl_nil,Digest.add,
        hmotion,hmotion',if_true,hsame]
      rw [hother e .y (by rw [haxis]; decide),hother e' .x (by rw [haxis']; decide)]
      rfl

theorem Inv.preserved (h : Inv s) : Preserved s := by
  refine ⟨?_,fun hzero => ?_,h.refs⟩
  · rw [digest_append]
    cases hactive : s.active with
    | false => exact h.inactive hactive
    | true =>
      rw [if_pos rfl,digest_pending h.motionX h.motionY]
      exact h.active hactive
  · by_contra hne
    exact Nat.ne_of_gt (h.cleanups hne) hzero

theorem flush_frame (s : State δ) (received : List (DFBInputEvent δ)) (refs cleanups : ℕ) :
    flush {s with received, refs, cleanups} = {flush s with received, refs, cleanups} := by
  unfold flush
  split_ifs <;> rfl

/-- After a flush, no motion is held back. -/
theorem Held.flush (h : Held s) : Held (flush s) ∧ pending (MotionInput.flush s) = [] ∧
    (MotionInput.flush s).active = s.active ∧ (MotionInput.flush s).received = s.received ∧
    (MotionInput.flush s).refs = s.refs ∧ (MotionInput.flush s).others = s.others ∧
    (MotionInput.flush s).cleanups = s.cleanups := by
  unfold MotionInput.flush
  split_ifs with hnone hactive
  · rw [Option.isNone_iff_eq_none,Option.isNone_iff_eq_none] at hnone
    exact ⟨h,pending_eq_nil.mpr hnone,rfl,rfl,rfl,rfl,rfl⟩
  · refine ⟨⟨(fun e he => by cases he),(fun e he => by cases he),fun _ => ?_,fun hf => ?_⟩,rfl,rfl,rfl,
      rfl,rfl,rfl⟩
    · dsimp only
      rw [digest_append,digest_pending h.motionX h.motionY]
      exact h.active hactive
    · cases hactive.symm.trans hf
  · refine ⟨⟨(fun e he => by cases he),(fun e he => by cases he),fun ht => ?_,fun hf => ?_⟩,rfl,rfl,rfl,
      rfl,rfl,rfl⟩
    · exact absurd ht hactive
    · exact h.inactive hf

theorem flush_cleanup (h : Inv s) : (flush s).motionCleanup = false := by
  unfold flush
  split_ifs with hnone
  · rw [Option.isNone_iff_eq_none,Option.isNone_iff_eq_none,← pending_eq_nil] at hnone
    exact Bool.eq_false_iff.mpr fun ht => h.cleanup.mp ht hnone
  all_goals rfl

/-- Motion is merged into what is held back on its axis. -/
theorem held_addTo (axis : DFBInputDeviceAxisIdentifier) (target : Option (DFBInputEvent δ))
    (haxis : event.axis = axis) (htarget : ∀ e ∈ target, e.axis = axis)
    (hkept : !event.absolute → ∀ e ∈ target, !e.absolute) :
    held axis (some (addTo target event)) = effect axis event∘held axis target := by
  funext p
  unfold addTo
  cases habs : event.absolute with
  | true =>
    rw [if_pos rfl]
    simp [held,addAbsolute,effect,haxis,habs]
  | false =>
    rw [if_neg (by decide)]
    cases target with
    | none => simp [held,addRelative,effect,haxis,habs]
    | some e =>
      have hrel : e.absolute = false := by simpa using hkept (by rw [habs]; rfl) e rfl
      simp only [held,addRelative,effect,haxis,habs,hrel,htarget e rfl,Option.elim_some,if_true,
        Function.comp_apply,Bool.false_eq_true,if_false]
      rw [BitVec.add_assoc,BitVec.add_comm e.axisrel]

theorem Held.flushOld (h : Held s) (ts : ℤ) (event : DFBInputEvent δ) :
    Held (flushOld s ts event) ∧ (MotionInput.flushOld s ts event).active = s.active ∧
    (MotionInput.flushOld s ts event).received = s.received := by
  unfold MotionInput.flushOld
  split_ifs
  · exact ⟨h.flush.1,h.flush.2.2.1,h.flush.2.2.2.1⟩
  · exact ⟨h,rfl,rfl⟩

theorem add_frame (s : State δ) (ts : ℤ) (event : DFBInputEvent δ)
    (received : List (DFBInputEvent δ)) (refs : ℕ) :
    add {s with received, refs} ts event = {add s ts event with received, refs} := by
  have hold : flushOld {s with received, refs} ts event =
      {flushOld s ts event with received, refs} := by
    unfold flushOld
    split_ifs
    · unfold flush
      split_ifs <;> rfl
    · rfl
  unfold add
  rw [hold]
  dsimp only
  cases event.axis <;> split_ifs <;> rfl

/-- Motion is held back on its axis, after what was held back for too long. -/
theorem add_effect (s : State δ) (ts : ℤ) (hmotion : event.isMotion = true) :
    (add s ts event).handed = (flushOld s ts event).handed ∧
    (add s ts event).active = (flushOld s ts event).active ∧
    (add s ts event).motionCleanup = (flushOld s ts event).motionCleanup ∧
    (event.axis = .x ∧ (add s ts event).motionX = some (addTo (flushOld s ts event).motionX event) ∧
      (add s ts event).motionY = (flushOld s ts event).motionY ∨
    event.axis = .y ∧ (add s ts event).motionX = (flushOld s ts event).motionX ∧
      (add s ts event).motionY = some (addTo (flushOld s ts event).motionY event)) := by
  unfold add
  generalize flushOld s ts event = u
  dsimp only
  cases haxis : event.axis with
  | x => split_ifs <;> exact ⟨rfl,rfl,rfl,.inl ⟨rfl,rfl,rfl⟩⟩
  | y => split_ifs <;> exact ⟨rfl,rfl,rfl,.inr ⟨rfl,rfl,rfl⟩⟩
  | other n => simp [DFBInputEvent.isMotion,haxis] at hmotion

theorem addTo_axis (target : Option (DFBInputEvent δ)) (event : DFBInputEvent δ) :
    (addTo target event).type = event.type ∧ (addTo target event).axis = event.axis := by
  unfold addTo
  split_ifs <;> exact ⟨rfl,rfl⟩

theorem Held.add (h : Held s) (hmotion : event.isMotion = true)
    (hkept : Kept s (.input ts event)) :
    Held {add s ts event with
      received := if s.active then s.received++[event] else s.received} := by
  obtain ⟨hold,hactive,hreceived⟩ := h.flushOld ts event
  obtain ⟨hhanded,hactive',-,hslots⟩ := add_effect s ts hmotion
  have htype : event.type = .axisMotion := by
    simp only [DFBInputEvent.isMotion,Bool.and_eq_true,decide_eq_true_eq] at hmotion
    exact hmotion.1
  have haddTo : ∀ target : Option (DFBInputEvent δ), (addTo target event).type = .axisMotion ∧
      (addTo target event).axis = event.axis := fun target =>
    ⟨(addTo_axis target event).1.trans htype,(addTo_axis target event).2⟩
  have hadd : ∀ d : Digest δ, d.add event =
      ⟨d.events,effect .x event∘d.x,effect .y event∘d.y⟩ := fun d => if_pos hmotion
  have hother : ∀ a, event.axis ≠ a → effect a event = id := fun a ha => by
    funext p
    exact if_neg ha
  have hkept' := hkept hmotion
  have hdigest : s.active = true → digest (s.received++[event]) =
      ⟨(digest (MotionInput.flushOld s ts event).handed).events,
        held .x (MotionInput.add s ts event).motionX∘
          (digest (MotionInput.flushOld s ts event).handed).x,
        held .y (MotionInput.add s ts event).motionY∘
          (digest (MotionInput.flushOld s ts event).handed).y⟩ := by
    intro ht
    rw [digest_append,← hreceived,hold.active (hactive.trans ht),List.foldl_cons,List.foldl_nil,hadd]
    obtain ⟨haxis,hx,hy⟩ | ⟨haxis,hx,hy⟩ := hslots
    · rw [hx,hy,held_addTo .x _ haxis (fun e he => (hold.motionX e he).2)
        fun hrel => (hkept' hrel).1 haxis]
      rw [hother .y (by rw [haxis]; decide)]
      rfl
    · rw [hx,hy,held_addTo .y _ haxis (fun e he => (hold.motionY e he).2)
        fun hrel => (hkept' hrel).2 haxis]
      rw [hother .x (by rw [haxis]; decide)]
      rfl
  refine ⟨fun e he => ?_,fun e he => ?_,fun ht => ?_,fun hf => ?_⟩
  · dsimp only at he
    obtain ⟨haxis,hx,-⟩ | ⟨-,hx,-⟩ := hslots
    · rw [hx,Option.mem_some_iff] at he
      subst he
      exact ⟨(haddTo _).1,(haddTo _).2.trans haxis⟩
    · rw [hx] at he
      exact hold.motionX e he
  · dsimp only at he
    obtain ⟨-,-,hy⟩ | ⟨haxis,-,hy⟩ := hslots
    · rw [hy] at he
      exact hold.motionY e he
    · rw [hy,Option.mem_some_iff] at he
      subst he
      exact ⟨(haddTo _).1,(haddTo _).2.trans haxis⟩
  · have ht : s.active = true := hactive.symm.trans (hactive'.symm.trans ht)
    dsimp only
    rw [if_pos ht,hhanded]
    exact hdigest ht
  · have hf : s.active = false := hactive.symm.trans (hactive'.symm.trans hf)
    dsimp only
    rw [if_neg (Bool.eq_false_iff.mp hf),hhanded,← hreceived]
    exact hold.inactive (hactive.trans hf)

theorem Held.congr {u : State δ} (h : Held s) (hx : u.motionX = s.motionX)
    (hy : u.motionY = s.motionY) (hactive : u.active = s.active) (hreceived : u.received = s.received)
    (hhanded : u.handed = s.handed) : Held u := by
  refine ⟨?_,?_,?_,?_⟩
  · rw [hx]
    exact h.motionX
  · rw [hy]
    exact h.motionY
  · rw [hx,hy,hactive,hreceived,hhanded]
    exact h.active
  · rw [hactive,hreceived,hhanded]
    exact h.inactive

theorem flushOld_cleanup (h : Inv s) (ts : ℤ) (event : DFBInputEvent δ) :
    (flushOld s ts event).motionCleanup = true → 0 < s.cleanups := by
  unfold flushOld
  split_ifs
  · rw [flush_cleanup h]
    exact fun heq => by cases heq
  · exact fun ht => h.cleanups (h.cleanup.mp ht)

theorem add_fields (s : State δ) (ts : ℤ) (event : DFBInputEvent δ) :
    (add s ts event).others = s.others ∧ (add s ts event).cleanups = s.cleanups := by
  have hold : (flushOld s ts event).others = s.others ∧
      (flushOld s ts event).cleanups = s.cleanups := by
    unfold flushOld flush
    split_ifs <;> exact ⟨rfl,rfl⟩
  rw [← hold.1,← hold.2]
  unfold add
  generalize flushOld s ts event = u
  dsimp only
  cases event.axis <;> split_ifs <;> exact ⟨rfl,rfl⟩

/-- What the listener does while there are references to the context. -/
theorem listener_motion (hrefs : s.refs ≠ 0) (hmotion : event.isMotion = true) :
    listener s ts event = {add s ts event with
      received := if s.active then s.received++[event] else s.received
      motionCleanup := true
      cleanups := if (add s ts event).motionCleanup then (add s ts event).cleanups
        else (add s ts event).cleanups+1
      refs := if (add s ts event).motionCleanup then s.refs else s.refs+1} := by
  unfold listener
  rw [if_neg hrefs]
  dsimp only
  rw [if_pos hmotion,add_frame]
  dsimp only
  cases hc : (add s ts event).motionCleanup with
  | true => simp only [if_true,Nat.add_sub_cancel]
  | false => simp only [Bool.false_eq_true,if_false]

theorem listener_other (hrefs : s.refs ≠ 0) (hmotion : ¬event.isMotion = true)
    (hcleanup : (flush s).motionCleanup = false) : listener s ts event = {flush s with
      received := if s.active then s.received++[event] else s.received
      handed := if (flush s).active then (flush s).handed++[event] else (flush s).handed
      cleanups := s.cleanups
      refs := s.refs} := by
  have hframe := flush_frame s (if s.active then s.received++[event] else s.received) (s.refs+1)
    s.cleanups
  unfold listener
  rw [if_neg hrefs]
  dsimp only at hframe ⊢
  rw [if_neg hmotion,hframe]
  dsimp only
  cases hactive : (flush s).active with
  | true =>
    simp only [if_true]
    rw [if_neg (by rw [hcleanup]; decide),Nat.add_sub_cancel]
  | false =>
    simp only [Bool.false_eq_true,if_false]
    rw [if_neg (by rw [hcleanup]; decide),Nat.add_sub_cancel]

theorem Inv.detached (h : Inv s) : Inv {s with attached := false} :=
  ⟨h.toHeld.congr rfl rfl rfl rfl rfl,h.cleanup,h.cleanups,h.refs⟩

/-- Motion is held back, with a cleanup that has the reference of the listener, or an earlier one.
-/
theorem Inv.listener_motion (h : Inv s) (hmotion : event.isMotion = true)
    (hkept : Kept s (.input ts event)) : Inv (listener s ts event) := by
  by_cases hrefs : s.refs = 0
  · unfold listener
    rw [if_pos hrefs]
    exact h.detached
  rw [MotionInput.listener_motion hrefs hmotion]
  have hheld := h.toHeld.add hmotion hkept
  obtain ⟨-,-,hcleanup,hslots⟩ := add_effect s ts hmotion
  obtain ⟨hothers,hcleanups⟩ := add_fields s ts event
  have hpending : pending (add s ts event) ≠ [] := by
    rw [Ne,pending_eq_nil]
    obtain ⟨-,hx,-⟩ | ⟨-,-,hy⟩ := hslots
    · rw [hx]
      exact fun hand => by cases hand.1
    · rw [hy]
      exact fun hand => by cases hand.2
  refine ⟨hheld.congr rfl rfl rfl rfl rfl,iff_of_true rfl hpending,fun _ => ?_,?_⟩
  · dsimp only
    rw [hcleanups]
    split_ifs with hc
    · exact flushOld_cleanup h ts event (hcleanup.symm.trans hc)
    · exact Nat.succ_pos _
  · dsimp only
    rw [hothers,hcleanups,h.refs]
    split_ifs
    · rfl
    · exact Nat.add_assoc ..

/-- Other events are handed over at once. -/
theorem Inv.listener_other (h : Inv s) (hmotion : ¬event.isMotion = true) :
    Inv (listener s ts event) := by
  by_cases hrefs : s.refs = 0
  · unfold listener
    rw [if_pos hrefs]
    exact h.detached
  have hcleanup := flush_cleanup h
  rw [MotionInput.listener_other hrefs hmotion hcleanup]
  obtain ⟨hheld,hpending,hactive,hreceived,-,hothers,hcleanups⟩ := h.toHeld.flush
  have hnil := pending_eq_nil.mp hpending
  have hadd : ∀ d : Digest δ, d.add event = ⟨d.events++[(d.x,d.y,event)],id,id⟩ :=
    fun d => if_neg hmotion
  refine ⟨⟨hheld.motionX,hheld.motionY,fun ht => ?_,fun hf => ?_⟩,?_,
    fun hne => absurd hpending hne,?_⟩
  · have ht : (flush s).active = true := ht
    have hdigest := hheld.active ht
    dsimp only
    rw [hnil.1,hnil.2] at hdigest ⊢
    rw [if_pos ht,if_pos (hactive.symm.trans ht),digest_append,digest_append,← hreceived,hdigest]
    simp only [List.foldl_cons,List.foldl_nil,hadd]
    rfl
  · have hf : (flush s).active = false := hf
    have hs : s.active = false := hactive.symm.trans hf
    dsimp only
    rw [hf,hs,if_neg (by decide),if_neg (by decide),← hreceived]
    exact hheld.inactive hf
  · exact iff_of_false (by rw [hcleanup]; decide) fun hne => hne hpending
  · dsimp only
    rw [hothers,h.refs]

theorem Inv.dispatchCleanup (h : Inv s) (hpos : 0 < s.cleanups) : Inv (dispatchCleanup s) := by
  obtain ⟨hheld,hpending,-,-,-,hothers,-⟩ := h.toHeld.flush
  have hframe := flush_frame s s.received s.refs (s.cleanups-1)
  have hcleanup := flush_cleanup h
  unfold MotionInput.dispatchCleanup
  dsimp only at hframe ⊢
  rw [hframe]
  obtain ⟨-,-,-,hreceived,-⟩ := h.toHeld.flush
  refine ⟨hheld.congr rfl rfl rfl hreceived.symm rfl,?_,fun hne => absurd hpending hne,?_⟩
  · exact iff_of_false (by rw [hcleanup]; decide) fun hne => hne hpending
  · dsimp only
    rw [hothers,h.refs]
    omega

theorem Inv.step (h : Inv s) {e : Event δ} (hkept : Kept s e) {u : State δ}
    (hu : step s e = some u) : Inv u := by
  cases e with
  | input ts event =>
    simp only [MotionInput.step] at hu
    split_ifs at hu
    obtain rfl := Option.some.inj hu
    by_cases hmotion : event.isMotion = true
    · exact h.listener_motion hmotion hkept
    · exact h.listener_other hmotion
  | cleanup =>
    simp only [MotionInput.step] at hu
    split_ifs at hu with hpos
    exact Option.some.inj hu ▸ h.dispatchCleanup hpos
  | activate active =>
    obtain rfl := Option.some.inj hu
    have hnone := pending_eq_nil.mp (show pending s = [] from hkept)
    have hsame : digest s.received = digest s.handed := by
      cases ht : s.active with
      | false => exact h.inactive ht
      | true =>
        have hdigest := h.active ht
        rw [hnone.1,hnone.2] at hdigest
        exact hdigest
    refine ⟨⟨h.motionX,h.motionY,fun _ => ?_,fun _ => hsame⟩,h.cleanup,h.cleanups,h.refs⟩
    dsimp only
    rw [hnone.1,hnone.2]
    exact hsame
  | ref =>
    obtain rfl := Option.some.inj hu
    refine ⟨h.toHeld.congr rfl rfl rfl rfl rfl,h.cleanup,h.cleanups,?_⟩
    dsimp only
    rw [h.refs]
    omega
  | unref =>
    simp only [MotionInput.step] at hu
    split_ifs at hu with hpos
    obtain rfl := Option.some.inj hu
    refine ⟨h.toHeld.congr rfl rfl rfl rfl rfl,h.cleanup,h.cleanups,?_⟩
    dsimp only
    rw [h.refs]
    omega

theorem Inv.initial (h : Initial s) : Inv s := by
  have hnil : pending s = [] := pending_eq_nil.mpr ⟨h.motionX,h.motionY⟩
  refine ⟨⟨fun e he => ?_,fun e he => ?_,fun _ => ?_,fun _ => ?_⟩,?_,fun hne => absurd hnil hne,?_⟩
  · rw [h.motionX] at he
    cases he
  · rw [h.motionY] at he
    cases he
  · rw [h.motionX,h.motionY,h.received,h.handed]
    rfl
  · rw [h.received,h.handed]
  · exact iff_of_false (by rw [h.motionCleanup]; decide) fun hne => hne hnil
  · rw [h.refs,h.cleanups]
    rfl

end Lemmas

/-- As long as relative motion does not meet absolute motion that is held back, all motion arrives.
-/
theorem motion_preserved {s : State δ} (h : Reaches step Kept Initial s) : Preserved s :=
  (h.invariant Inv (fun _ => Inv.initial) fun _ _ _ hinv hkept hu => hinv.step hkept hu).preserved

section Runs

def idle : State Unit := ⟨none,none,0,false,0,true,1,1,true,[],[]⟩

theorem idle_initial : Initial idle := ⟨rfl,rfl,rfl,rfl,rfl,rfl,rfl,rfl⟩

def motion (axis : DFBInputDeviceAxisIdentifier) (absolute : Bool) (value : BitVec 32) :
    DFBInputEvent Unit :=
  ⟨.axisMotion,0,absolute,true,axis,if absolute then value else 0,if absolute then 0 else value,()⟩

def button : DFBInputEvent Unit := ⟨.buttonPress,0,false,false,.x,0,0,()⟩

/-- Motion in both directions is merged, and arrives before the button. -/
theorem motion_merged : ∃ s, Reaches step Kept Initial s ∧ Preserved s ∧ s.refs = s.others ∧
    s.handed = [motion .x false 7,{motion .y true 20 with follow := false},button,
      {motion .x true 9 with follow := false}] := by
  have h1 : Reaches step Kept Initial _ := .step (.input 1 (motion .x false 3))
    (.init idle_initial) (fun _ _ => ⟨fun _ e he => (by cases he),fun heq => (by cases heq)⟩) rfl
  have h2 : Reaches step Kept Initial _ := .step (.input 2 (motion .y true 20)) h1
    (fun _ hrel => (by cases hrel)) rfl
  have h3 : Reaches step Kept Initial _ := .step (.input 3 (motion .x false 4)) h2
    (fun _ _ => ⟨fun _ e he => (by cases he; rfl),fun heq => (by cases heq)⟩) rfl
  have h4 : Reaches step Kept Initial _ := .step (.input 4 button) h3
    (fun hmotion => (by cases hmotion)) rfl
  have h5 : Reaches step Kept Initial _ := .step (.input 5 (motion .x true 9)) h4
    (fun _ hrel => (by cases hrel)) rfl
  have h6 : Reaches step Kept Initial _ := .step .cleanup h5 trivial rfl
  have h7 : Reaches step Kept Initial _ := .step .cleanup h6 trivial rfl
  exact ⟨_,h7,motion_preserved h7,rfl,rfl⟩

/-- Absolute motion is lost as relative motion comes after it. -/
theorem absolute_lost : ∃ s, Reaches step (fun _ _ => True) Initial s ∧ ¬Preserved s ∧
    s.received = [motion .x true 100,motion .x false 5] ∧
    s.handed = [{motion .x false 5 with follow := false}] ∧ s.cleanups = 0 := by
  have hinit : Reaches step (fun _ _ => True) Initial idle := .init idle_initial
  have h := hinit.exec (fun _ _ => trivial) (show exec step idle [.input 1 (motion .x true 100),
      .input 2 (motion .x false 5),.cleanup] = some _ from rfl)
  refine ⟨_,h,fun hpreserved => ?_,rfl,rfl,rfl⟩
  have hzero := congrFun (congrArg Digest.x hpreserved.digest) 0
  exact absurd hzero (by decide)

end Runs

end DirectFB.MotionInput
