import DirectFB.Reaches

/-! Reference counted objects of a pool. Each drop to zero references sends a call to the
watcher of the pool, which decides whether the object is to be destroyed. -/
namespace DirectFB.FusionObject
open Transition

/-- The build of the library: several applications with secure fusion, or one only. -/
inductive Build
  | secure | single
  deriving DecidableEq

/-- The results of the reference functions. -/
inductive Result
  | ok | destroyed | locked | busy | bug | dead
  deriving DecidableEq

/-- The fields of `ref.single`, the watcher being installed. -/
structure Ref where
  refs : ℕ
  dead : ℕ
  destroyed : Bool
  locked : Bool
  deriving DecidableEq

/-- `fusion_ref_up`. -/
def refUp (ref : Ref) : Result × Ref :=
  if ref.destroyed then (.destroyed,ref)
  else if ref.locked then (.locked,ref)
  else (.ok,{ref with refs := ref.refs+1})

/-- `fusion_ref_down`, and whether the watcher is called. Only the builds for several
applications count the deaths. -/
def refDown (build : Build) (ref : Ref) : Result × Ref × Bool :=
  if ref.refs = 0 then (.bug,ref,false)
  else if ref.destroyed then (.destroyed,ref,false)
  else
    let ref := {ref with refs := ref.refs-1}
    if ref.refs = 0 then
      match build with
      | .secure => (.ok,{ref with dead := ref.dead+1},true)
      | .single => (.ok,ref,true)
    else (.ok,ref,false)

/-- `fusion_ref_catch`, called by the master. -/
def refCatch (build : Build) (ref : Ref) : Result × Ref × Bool :=
  match build with
  | .secure => if ref.refs < 2 then (.bug,ref,false) else (.ok,{ref with refs := ref.refs-1},false)
  | .single => refDown .single ref

/-- `fusion_ref_zero_trylock`. -/
def refZeroTrylock (ref : Ref) : Result × Ref :=
  if ref.destroyed then (.destroyed,ref)
  else if ref.locked then (.locked,ref)
  else if ref.refs ≠ 0 then (.busy,ref)
  else (.ok,{ref with locked := true})

/-- `FusionObjectState`. -/
inductive ObjectState
  | init | active | deinit
  deriving DecidableEq

/-- The fields of `FusionObject`, and whether the hash of the pool still has it. -/
structure Object where
  state : ObjectState
  ref : Ref
  inPool : Bool
  deriving DecidableEq

/-- The objects by their ids, the watcher calls that are yet to be sent or delivered, and
the objects whose destructor was started. -/
structure State where
  objects : List Object
  sending : List ℕ
  queue : List ℕ
  started : List ℕ

/-- An object as `fusion_object_create` leaves it. -/
def newObject : Object := ⟨.init,⟨1,0,false,false⟩,true⟩

/-- `fusion_object_get`. It answers with no object where the pool has none. -/
def objectGet (s : State) (id : ℕ) : Result × Option Object :=
  match s.objects[id]? with
  | some o =>
    if o.inPool then
      if o.ref.destroyed then (.destroyed,some o)
      else if o.ref.refs > 0 then ((refUp o.ref).1,some {o with ref := (refUp o.ref).2})
      else (.dead,some o)
    else (.ok,none)
  | none => (.ok,none)

inductive Event
  | create
  | activate (id : ℕ)
  | get (id : ℕ)
  | up (id : ℕ)
  | down (id : ℕ)
  | catchRef (id : ℕ)
  | send (k : ℕ)
  | deliver (k : ℕ)
  | destroy (id : ℕ)

def update (s : State) (id : ℕ) (o : Object) : State := {s with objects := s.objects.set id o}

def callWatcher (build : Build) (s : State) (id : ℕ) (call : Bool) : State :=
  if call then
    match build with
    | .secure => {s with sending := s.sending++[id]}
    | .single => {s with queue := s.queue++[id]}
  else s

/-- What `object_reference_watcher` does once the deaths are counted down. -/
def watch (s : State) (id : ℕ) (o : Object) : State :=
  match refZeroTrylock o.ref with
  | (.ok,ref) =>
    if o.state = .init then update s id {o with ref := ref, inPool := false}
    else {update s id ⟨.deinit,ref,false⟩ with started := s.started++[id]}
  | (.destroyed,ref) => update s id {o with ref := ref, inPool := false}
  | (_,ref) => update s id {o with ref := ref}

/-- `object_reference_watcher`. -/
def objectReferenceWatcher (s : State) (id : ℕ) : State :=
  match s.objects[id]? with
  | some o =>
    if o.inPool then
      if o.ref.dead ≠ 0 then
        let o := {o with ref := {o.ref with dead := o.ref.dead-1}}
        if o.ref.dead ≠ 0 then update s id o else watch s id o
      else watch s id o
    else s
  | none => s

/-- One section under the lock of the pool or of a reference. Objects are activated by who
created them, and destroyed by their destructor. -/
def step (build : Build) (s : State) : Event → Option State
  | .create => some {s with objects := s.objects++[newObject]}
  | .activate id =>
    match s.objects[id]? with
    | some o =>
      if o.state = .init ∧ o.ref.refs > 0 then some (update s id {o with state := .active})
      else none
    | none => none
  | .get id => some <| match (objectGet s id).2 with
    | some o => update s id o
    | none => s
  | .up id => s.objects[id]?.map fun o => update s id {o with ref := (refUp o.ref).2}
  | .down id => s.objects[id]?.map fun o =>
    let r := refDown build o.ref
    callWatcher build (update s id {o with ref := r.2.1}) id r.2.2
  | .catchRef id => s.objects[id]?.map fun o =>
    let r := refCatch build o.ref
    callWatcher build (update s id {o with ref := r.2.1}) id r.2.2
  | .send k => s.sending[k]?.map fun id =>
    {s with sending := s.sending.eraseIdx k, queue := s.queue++[id]}
  | .deliver k => s.queue[k]?.map fun id =>
    objectReferenceWatcher {s with queue := s.queue.eraseIdx k} id
  | .destroy id =>
    match s.objects[id]? with
    | some o =>
      if id ∈ s.started then some (update s id {o with ref := {o.ref with destroyed := true}})
      else none
    | none => none

def init (s : State) : Prop := s = ⟨[],[],[],[]⟩

def undelivered (s : State) (id : ℕ) : ℕ := s.sending.count id+s.queue.count id

/-- What holds of an object with `calls` watcher calls undelivered and its destructor
started so often. -/
structure Good (build : Build) (o : Object) (calls started : ℕ) : Prop where
  pool : o.inPool = !o.ref.locked
  refs : o.ref.locked → o.ref.refs = 0
  alive : o.inPool → o.ref.destroyed = false
  active : o.state = .active → o.inPool
  deinit : o.state = .deinit → o.inPool = false
  started : started = if o.state = .deinit then 1 else 0
  waiting : o.inPool → o.ref.refs = 0 → 1 ≤ calls
  secure : build = .secure → calls = o.ref.dead
  gone : o.inPool = false → o.ref.dead = 0
  single : build = .single → o.ref.dead = 0

section Good
variable {build : Build} {o : Object} {calls started : ℕ}

theorem newObject_good : Good build newObject 0 0 := by
  constructor <;> simp [newObject]

theorem refDown_refused (build : Build) {ref : Ref} (h : ref.refs = 0 ∨ ref.destroyed) :
    (refDown build ref).2 = (ref,false) := by
  unfold refDown
  split_ifs with hr hd
  · rfl
  · rfl
  · exact absurd h (not_or.mpr ⟨hr,hd⟩)

theorem refDown_last (build : Build) {ref : Ref} (h : ¬ (ref.refs = 0 ∨ ref.destroyed))
    (hr : ref.refs = 1) : (refDown build ref).2 =
      ({ref with refs := 0, dead := if build = .secure then ref.dead+1 else ref.dead},true) := by
  obtain ⟨-,hd⟩ := not_or.mp h
  cases build <;> simp [refDown,hr,hd]

theorem refDown_many (build : Build) {ref : Ref} (h : ¬ (ref.refs = 0 ∨ ref.destroyed))
    (hr : ref.refs ≠ 1) : (refDown build ref).2 = ({ref with refs := ref.refs-1},false) := by
  obtain ⟨hz,hd⟩ := not_or.mp h
  have hlt : ref.refs-1 ≠ 0 := by omega
  simp [refDown,hz,hd,hlt]

theorem Good.up (h : Good build o calls started) :
    Good build {o with ref := (refUp o.ref).2} calls started := by
  unfold refUp
  split_ifs with hd hl
  · exact h
  · exact h
  · exact {h with
      refs := fun hl' => absurd hl' hl
      waiting := fun _ hr => absurd hr (Nat.succ_ne_zero _)}

theorem Good.down (h : Good build o calls started) :
    Good build {o with ref := (refDown build o.ref).2.1}
      (calls+if (refDown build o.ref).2.2 then 1 else 0) started := by
  by_cases hr : o.ref.refs = 0 ∨ o.ref.destroyed
  · simpa [refDown_refused build hr] using h
  · have hl : ¬ o.ref.locked := fun hl => hr (.inl (h.refs hl))
    by_cases hz : o.ref.refs = 1
    · rw [refDown_last build hr hz]
      exact {h with
        refs := fun hl' => absurd hl' hl
        waiting := fun _ _ => Nat.le_add_left _ _
        secure := fun hb => by simp [h.secure hb,hb]
        gone := fun hp => by
          have hpool : o.inPool = true := by simpa [hl] using h.pool
          exact absurd (hpool.symm.trans hp) (by decide)
        single := fun hb => by simp [h.single hb,hb]}
    · rw [refDown_many build hr hz]
      exact {h with
        refs := fun hl' => absurd hl' hl
        waiting := fun _ hz' => by
          dsimp only at hz'
          omega}

theorem Good.catch (h : Good build o calls started) :
    Good build {o with ref := (refCatch build o.ref).2.1}
      (calls+if (refCatch build o.ref).2.2 then 1 else 0) started := by
  cases build with
  | secure =>
    by_cases hr : o.ref.refs < 2
    · simpa [refCatch,hr] using h
    · simp only [refCatch,hr,if_false,Bool.false_eq_true,add_zero]
      exact {h with
        refs := fun hl => by
          have := h.refs hl
          omega
        waiting := fun _ hz => by
          dsimp only at hz
          omega}
  | single => exact h.down

end Good

/-- Every object of the pool is good, and nothing is left for objects yet to be created. -/
structure Inv (build : Build) (s : State) : Prop where
  good : ∀ id o, s.objects[id]? = some o → Good build o (undelivered s id) (s.started.count id)
  fresh : ∀ id, s.objects.length ≤ id → undelivered s id = 0 ∧ s.started.count id = 0

variable {s t : State} {id : ℕ} {e : Event}

/-- A step which changes one object keeps the others. -/
theorem Inv.update {build : Build} {o o' : Object} (h : Inv build s)
    (ho : s.objects[id]? = some o) (hobjects : t.objects = s.objects.set id o')
    (hcalls : ∀ j, j ≠ id → undelivered t j = undelivered s j)
    (hstarted : ∀ j, j ≠ id → t.started.count j = s.started.count j)
    (hgood : Good build o' (undelivered t id) (t.started.count id)) : Inv build t := by
  have hid : id < s.objects.length := (List.getElem?_eq_some_iff.mp ho).1
  constructor
  · intro j v hv
    rw [hobjects] at hv
    by_cases hj : j = id
    · subst hj
      rw [List.getElem?_set_self hid] at hv
      obtain rfl := Option.some.inj hv
      exact hgood
    · rw [List.getElem?_set_ne (Ne.symm hj)] at hv
      rw [hcalls j hj,hstarted j hj]
      exact h.good j v hv
  · intro j hj
    rw [hobjects,List.length_set] at hj
    rw [hcalls j (by omega),hstarted j (by omega)]
    exact h.fresh j hj

theorem count_append_single {α : Type*} [DecidableEq α] (l : List α) (a b : α) :
    (l++[a]).count b = l.count b+if b = a then 1 else 0 := by
  rw [List.count_append,List.count_singleton]
  by_cases h : b = a
  · simp [h]
  · simp [h,Ne.symm h]

theorem undelivered_callWatcher (build : Build) (s : State) (id : ℕ) (call : Bool) (j : ℕ) :
    undelivered (callWatcher build s id call) j =
      undelivered s j+if j = id then (if call then 1 else 0) else 0 := by
  cases call with
  | false => simp [callWatcher]
  | true =>
    cases build <;> simp only [callWatcher,undelivered,if_true,count_append_single] <;> omega

@[simp] theorem callWatcher_objects (build : Build) (s : State) (id : ℕ) (call : Bool) :
    (callWatcher build s id call).objects = s.objects := by
  cases call <;> cases build <;> rfl

@[simp] theorem callWatcher_started (build : Build) (s : State) (id : ℕ) (call : Bool) :
    (callWatcher build s id call).started = s.started := by
  cases call <;> cases build <;> rfl

theorem count_eraseIdx {α : Type*} [DecidableEq α] {l : List α} {k : ℕ} {a : α}
    (h : l[k]? = some a) (b : α) : l.count b = (l.eraseIdx k).count b+if b = a then 1 else 0 := by
  obtain ⟨hk,rfl⟩ := List.getElem?_eq_some_iff.mp h
  rw [← (List.getElem_cons_eraseIdx_perm hk).count_eq b,List.count_cons]
  by_cases hb : b = l[k]
  · simp [hb]
  · simp [hb,Ne.symm hb]

/-- A reference function that changes the reference of an object and may call the watcher. -/
theorem Inv.reference {build : Build} {o : Object} {ref : Ref} {call : Bool}
    (h : Inv build s) (ho : s.objects[id]? = some o)
    (hgood : Good build {o with ref := ref} (undelivered s id+if call then 1 else 0)
      (s.started.count id)) :
    Inv build (callWatcher build (FusionObject.update s id {o with ref := ref}) id call) := by
  have hcalls : ∀ j, undelivered (FusionObject.update s id {o with ref := ref}) j =
      undelivered s j := fun j => rfl
  refine h.update ho (callWatcher_objects ..) (fun j hj => ?_) (fun j _ => ?_) ?_
  · rw [undelivered_callWatcher,if_neg hj,hcalls,add_zero]
  · rw [callWatcher_started]
    rfl
  · rw [undelivered_callWatcher,if_pos rfl,hcalls,callWatcher_started]
    exact hgood

/-- A call for an object is delivered when no other death of it is counted. -/
theorem Inv.watch {build : Build} {o : Object} (h : Inv build s)
    (ho : s.objects[id]? = some o) (hin : o.inPool) (hobjects : t.objects = s.objects)
    (hstarted : t.started = s.started) (hcalls : ∀ j, j ≠ id → undelivered t j = undelivered s j)
    (hsecure : build = .secure → undelivered t id = 0) :
    Inv build (FusionObject.watch t id {o with ref := {o.ref with dead := 0}}) := by
  have hgood := h.good id o ho
  have hlocked : o.ref.locked = false := by
    have hpool := hgood.pool
    simpa [hin] using hpool
  have hstate : o.state ≠ .deinit := by
    intro hd
    have := hgood.deinit hd
    simp [hin] at this
  have hcount : s.started.count id = 0 := by simpa [hstate] using hgood.started
  have hset : ∀ o', (FusionObject.update t id o').objects = s.objects.set id o' := by
    intro o'
    rw [FusionObject.update,hobjects]
  have hsame : ∀ o' j, (FusionObject.update t id o').started.count j = s.started.count j := by
    intro o' j
    rw [FusionObject.update,hstarted]
  have hzero : ∀ o', build = .secure → undelivered (FusionObject.update t id o') id = 0 :=
    fun o' => hsecure
  unfold FusionObject.watch refZeroTrylock
  simp only [hgood.alive hin,hlocked,Bool.false_eq_true,if_false]
  by_cases hr : o.ref.refs = 0
  · simp only [hr,ne_eq,not_true_eq_false,if_false]
    by_cases hs : o.state = .init
    · rw [if_pos hs]
      refine h.update ho (hset _) hcalls (fun j _ => hsame _ j) ?_
      rw [hsame,hcount]
      constructor <;> simp_all
    · rw [if_neg hs]
      refine h.update ho (hset _) hcalls (fun j hj => ?_) ?_
      · rw [count_append_single,if_neg hj,hstarted,add_zero]
      · rw [count_append_single,if_pos rfl,hstarted,hcount]
        constructor <;> simp_all [undelivered]
  · simp only [hr,ne_eq,not_false_eq_true,if_true]
    refine h.update ho (hset _) hcalls (fun j _ => hsame _ j) ?_
    rw [hsame,hcount]
    constructor <;> simp_all

theorem Inv.deliver {build : Build} {k id : ℕ} (h : Inv build s)
    (hk : s.queue[k]? = some id) :
    Inv build (objectReferenceWatcher {s with queue := s.queue.eraseIdx k} id) := by
  let t : State := {s with queue := s.queue.eraseIdx k}
  have hcount : ∀ j, undelivered s j = undelivered t j+if j = id then 1 else 0 := by
    intro j
    have := count_eraseIdx hk j
    simp only [undelivered,t]
    omega
  have hcalls : ∀ j, j ≠ id → undelivered t j = undelivered s j := by
    intro j hj
    rw [hcount j,if_neg hj,add_zero]
  have hid : undelivered s id = undelivered t id+1 := by rw [hcount id,if_pos rfl]
  change Inv build (objectReferenceWatcher t id)
  unfold objectReferenceWatcher
  cases ho : s.objects[id]? with
  | none =>
    have := (h.fresh id (List.getElem?_eq_none_iff.mp ho)).1
    omega
  | some o =>
    have hgood := h.good id o ho
    dsimp only
    by_cases hin : o.inPool
    · rw [if_pos hin]
      by_cases hd : o.ref.dead = 0
      · rw [if_neg (not_not.mpr hd)]
        have ho' : o = {o with ref := {o.ref with dead := 0}} := by rw [← hd]
        rw [ho']
        refine h.watch ho hin rfl rfl hcalls fun hb => ?_
        have := hgood.secure hb
        omega
      · rw [if_pos hd]
        have hb : build = .secure := by
          cases build with
          | secure => rfl
          | single => exact absurd (hgood.single rfl) hd
        have hdead := hgood.secure hb
        by_cases hd' : o.ref.dead-1 = 0
        · rw [if_neg (not_not.mpr hd'),hd']
          refine h.watch ho hin rfl rfl hcalls fun _ => ?_
          omega
        · rw [if_pos hd']
          refine h.update ho rfl hcalls (fun _ _ => rfl) ?_
          exact {hgood with
            waiting := fun _ _ => by
              change 1 ≤ undelivered t id
              omega
            secure := fun _ => by
              change undelivered t id = o.ref.dead-1
              omega
            gone := fun hp => absurd (hin.symm.trans hp) (by decide)
            single := fun hb' => by
              rw [hb] at hb'
              cases hb'}
    · rw [if_neg hin]
      have hin' : o.inPool = false := by simpa using hin
      have hset : s.objects = s.objects.set id o := by
        obtain ⟨hlt,rfl⟩ := List.getElem?_eq_some_iff.mp ho
        exact (List.set_getElem_self hlt).symm
      refine h.update ho hset hcalls (fun _ _ => rfl) ?_
      exact {hgood with
        waiting := fun hp => absurd hp hin
        secure := fun hb => by
          have := hgood.secure hb
          have := hgood.gone hin'
          omega}

/-- Each step keeps the objects good. -/
theorem Inv.step {build : Build} (h : Inv build s)
    (hs : step build s e = some t) : Inv build t := by
  cases e with
  | create =>
    obtain rfl := Option.some.inj hs
    constructor
    · intro id o ho
      rw [List.getElem?_append] at ho
      split_ifs at ho with hid
      · exact h.good id o ho
      · have hlen : id = s.objects.length := by
          have := (List.getElem?_eq_some_iff.mp ho).1
          simp only [List.length_singleton] at this
          omega
        obtain ⟨hcalls,hstarted⟩ := h.fresh id hlen.ge
        obtain rfl : newObject = o := by simpa [hlen] using ho
        change Good build newObject (undelivered s id) (s.started.count id)
        rw [hcalls,hstarted]
        exact newObject_good
    · intro id hid
      rw [List.length_append,List.length_singleton] at hid
      exact h.fresh id (by omega)
  | activate id =>
    simp only [step] at hs
    split at hs
    next o ho =>
      split_ifs at hs with hok
      obtain rfl := Option.some.inj hs
      have hgood := h.good id o ho
      have hin : o.inPool = true := by
        have hl : ¬ o.ref.locked := fun hl => absurd (hgood.refs hl) hok.2.ne'
        simpa [hl] using hgood.pool
      refine h.update ho rfl (fun _ _ => rfl) (fun _ _ => rfl) ?_
      exact {hgood with
        active := fun _ => hin
        deinit := fun hd => by cases hd
        started := by
          have := hgood.started
          rw [hok.1] at this
          exact this}
    next => cases hs
  | get id =>
    obtain rfl := Option.some.inj hs
    unfold objectGet
    cases ho : s.objects[id]? with
    | none => exact h
    | some o =>
      have hgood := h.good id o ho
      dsimp only
      split_ifs
      · exact h.update ho rfl (fun _ _ => rfl) (fun _ _ => rfl) hgood
      · exact h.update ho rfl (fun _ _ => rfl) (fun _ _ => rfl) hgood.up
      · exact h.update ho rfl (fun _ _ => rfl) (fun _ _ => rfl) hgood
      · exact h
  | up id =>
    obtain ⟨o,ho,rfl⟩ := Option.map_eq_some_iff.mp hs
    exact h.update ho rfl (fun _ _ => rfl) (fun _ _ => rfl) (h.good id o ho).up
  | down id =>
    obtain ⟨o,ho,rfl⟩ := Option.map_eq_some_iff.mp hs
    exact h.reference ho (h.good id o ho).down
  | catchRef id =>
    obtain ⟨o,ho,rfl⟩ := Option.map_eq_some_iff.mp hs
    exact h.reference ho (h.good id o ho).catch
  | send k =>
    obtain ⟨id,hk,rfl⟩ := Option.map_eq_some_iff.mp hs
    have hcalls : ∀ j, undelivered {s with
        sending := s.sending.eraseIdx k, queue := s.queue++[id]} j = undelivered s j := by
      intro j
      have := count_eraseIdx hk j
      simp only [undelivered,count_append_single]
      omega
    constructor
    · intro j o ho
      rw [hcalls]
      exact h.good j o ho
    · intro j hj
      rw [hcalls]
      exact h.fresh j hj
  | deliver k =>
    obtain ⟨id,hk,rfl⟩ := Option.map_eq_some_iff.mp hs
    exact h.deliver hk
  | destroy id =>
    simp only [step] at hs
    split at hs
    next o ho =>
      split_ifs at hs with hmem
      obtain rfl := Option.some.inj hs
      have hgood := h.good id o ho
      have hstate : o.state = .deinit := by
        by_contra hn
        have hzero := hgood.started
        rw [if_neg hn] at hzero
        exact absurd (List.count_pos_iff.mpr hmem) (by omega)
      refine h.update ho rfl (fun _ _ => rfl) (fun _ _ => rfl) ?_
      exact {hgood with alive := fun hin => absurd ((hgood.deinit hstate).symm.trans hin) (by decide)}
    next => cases hs

theorem inv_init (build : Build) (h : init s) : Inv build s := by
  subst h
  exact ⟨fun id o ho => by simp at ho,fun id _ => ⟨rfl,rfl⟩⟩

def Counted (s : State) : Prop :=
  ∀ id o, s.objects[id]? = some o → undelivered s id = o.ref.dead

/-- An active object without references is waited for; a destructor is started once, of an
object that has no references and gets none; and one with references is in the pool. -/
structure Safe (s : State) : Prop where
  waiting : ∀ id o, s.objects[id]? = some o → o.state = .active → o.ref.refs = 0 →
    1 ≤ undelivered s id
  once : ∀ id, s.started.count id ≤ 1
  died : ∀ id o, s.objects[id]? = some o → o.state ≠ .init → o.ref.refs = 0 →
    undelivered s id = 0 → s.started.count id = 1
  unreferenced : ∀ id ∈ s.started, ∃ o, s.objects[id]? = some o ∧ o.ref.refs = 0 ∧
    (refUp o.ref).1 ≠ .ok ∧ (objectGet s id).2 = none
  referenced : ∀ id o, s.objects[id]? = some o → 0 < o.ref.refs → o.inPool ∧ id ∉ s.started

theorem Inv.safe {build : Build} (h : Inv build s) : Safe s where
  waiting id o ho ha hr := (h.good id o ho).waiting ((h.good id o ho).active ha) hr
  once id := by
    cases ho : s.objects[id]? with
    | none =>
      have := (h.fresh id (List.getElem?_eq_none_iff.mp ho)).2
      omega
    | some o =>
      rw [(h.good id o ho).started]
      split_ifs <;> omega
  died id o ho hs hr hcalls := by
    have hgood := h.good id o ho
    cases hstate : o.state with
    | init => exact absurd hstate hs
    | active =>
      have := hgood.waiting (hgood.active hstate) hr
      omega
    | deinit => rw [hgood.started,if_pos hstate]
  unreferenced id hid := by
    have hpos := List.count_pos_iff.mpr hid
    cases ho : s.objects[id]? with
    | none =>
      have := (h.fresh id (List.getElem?_eq_none_iff.mp ho)).2
      omega
    | some o =>
      have hgood := h.good id o ho
      have hstate : o.state = .deinit := by
        by_contra hn
        have := hgood.started
        rw [if_neg hn] at this
        omega
      have hin := hgood.deinit hstate
      have hlocked : o.ref.locked = true := by
        have := hgood.pool
        simpa [hin] using this
      refine ⟨o,rfl,hgood.refs hlocked,?_,?_⟩
      · by_cases hd : o.ref.destroyed <;> simp [refUp,hlocked,hd]
      · simp [objectGet,ho,hin]
  referenced id o ho hr := by
    have hgood := h.good id o ho
    have hlocked : ¬ o.ref.locked := fun hl => absurd (hgood.refs hl) hr.ne'
    have hin : o.inPool = true := by simpa [hlocked] using hgood.pool
    refine ⟨hin,fun hid => ?_⟩
    have hpos := List.count_pos_iff.mpr hid
    have hstate : o.state ≠ .deinit := fun hd =>
      absurd (hin.symm.trans (hgood.deinit hd)) (by decide)
    have := hgood.started
    rw [if_neg hstate] at this
    omega

theorem reaches_inv {build : Build} {ok : State → Event → Prop}
    (h : Reaches (step build) ok init s) : Inv build s :=
  h.invariant (Inv build) (fun _ => inv_init build) fun _ _ _ hi _ hs => hi.step hs

def DropsToZero (s : State) (e : Event) : Prop :=
  ∃ id o, (e = .down id ∨ e = .catchRef id) ∧ s.objects[id]? = some o ∧ o.ref.refs = 1 ∧
    o.ref.destroyed = false

theorem silent_step (h : s.sending = [] ∧ s.queue = [])
    (hok : ¬ DropsToZero s e) (hs : step .single s e = some t) :
    t.sending = [] ∧ t.queue = [] := by
  have hdown : ∀ id o, (e = .down id ∨ e = .catchRef id) → s.objects[id]? = some o →
      (refDown .single o.ref).2.2 = false := by
    intro id o he ho
    by_cases hr : o.ref.refs = 0 ∨ o.ref.destroyed
    · rw [refDown_refused _ hr]
    · have hne : o.ref.refs ≠ 1 := fun h1 =>
        hok ⟨id,o,he,ho,h1,by simpa using (not_or.mp hr).2⟩
      rw [refDown_many _ hr hne]
  obtain ⟨hsend,hqueue⟩ := h
  cases e with
  | create =>
    obtain rfl := Option.some.inj hs
    exact ⟨hsend,hqueue⟩
  | activate id =>
    simp only [step] at hs
    split at hs
    · split_ifs at hs
      obtain rfl := Option.some.inj hs
      exact ⟨hsend,hqueue⟩
    · cases hs
  | get id =>
    obtain rfl := Option.some.inj hs
    split <;> exact ⟨hsend,hqueue⟩
  | up id =>
    obtain ⟨o,ho,rfl⟩ := Option.map_eq_some_iff.mp hs
    exact ⟨hsend,hqueue⟩
  | down id =>
    obtain ⟨o,ho,rfl⟩ := Option.map_eq_some_iff.mp hs
    dsimp only
    rw [hdown id o (.inl rfl) ho]
    exact ⟨hsend,hqueue⟩
  | catchRef id =>
    obtain ⟨o,ho,rfl⟩ := Option.map_eq_some_iff.mp hs
    dsimp only [refCatch]
    rw [hdown id o (.inr rfl) ho]
    exact ⟨hsend,hqueue⟩
  | send k =>
    simp [step,hsend] at hs
  | deliver k =>
    simp [step,hqueue] at hs
  | destroy id =>
    simp only [step] at hs
    split at hs
    · split_ifs at hs
      obtain rfl := Option.some.inj hs
      exact ⟨hsend,hqueue⟩
    · cases hs

theorem not_counted_of_drops (h : Inv .single s)
    (hd : DropsToZero s e) (hs : step .single s e = some t) : ¬ Counted t := by
  obtain ⟨id,o,he,ho,hr,hdes⟩ := hd
  have hok : ¬ (o.ref.refs = 0 ∨ o.ref.destroyed) := by simp [hr,hdes]
  have ht : t = callWatcher .single (update s id {o with ref := {o.ref with refs := 0}}) id true := by
    have hlast := refDown_last .single hok hr
    rcases he with rfl | rfl
    · simp only [step,ho,Option.map_some,Option.some.injEq] at hs
      rw [← hs,hlast]
      rfl
    · simp only [step,ho,Option.map_some,Option.some.injEq,refCatch] at hs
      rw [← hs,hlast]
      rfl
  intro hc
  have hid : id < s.objects.length := (List.getElem?_eq_some_iff.mp ho).1
  have hobj : t.objects[id]? = some {o with ref := {o.ref with refs := 0}} := by
    rw [ht,callWatcher_objects]
    exact List.getElem?_set_self hid
  have hcount := hc id _ hobj
  rw [ht,undelivered_callWatcher,if_pos rfl,if_pos rfl] at hcount
  have hdead := (h.good id o ho).single rfl
  simp only [hdead] at hcount
  omega

/-- In every run objects die once and unreferenced. The deaths are counted in a secure
world, and in a single application as long as no object drops to zero references. -/
theorem objects_die_once (build : Build) :
    (∀ s, Reaches (step build) (fun _ _ => True) init s → Safe s) ∧
    (∀ s, Reaches (step build) (fun s e => build = .secure ∨ ¬ DropsToZero s e) init s →
      Counted s) ∧
    ∀ s t e, build = .single → Reaches (step build) (fun _ _ => True) init s → DropsToZero s e →
      step build s e = some t → ¬ Counted t := by
  refine ⟨fun s h => (reaches_inv h).safe,fun s h id o ho => ?_,?_⟩
  · have hinv := reaches_inv h
    cases build with
    | secure => exact (hinv.good id o ho).secure rfl
    | single =>
      have hsilent : s.sending = [] ∧ s.queue = [] := by
        refine h.invariant (fun s => s.sending = [] ∧ s.queue = []) ?_ ?_
        · rintro _ rfl
          exact ⟨rfl,rfl⟩
        · exact fun s e t hi hok hs => silent_step hi (hok.resolve_left (by decide)) hs
      rw [(hinv.good id o ho).single rfl,undelivered,hsilent.1,hsilent.2]
      rfl
  · rintro s t e rfl h hd hs
    exact not_counted_of_drops (reaches_inv h) hd hs

/-- An object of a single application that dies leaves a call without a death. -/
theorem single_not_counted : ∃ s, exec (step .single) ⟨[],[],[],[]⟩
    [.create,.activate 0,.down 0] = some s ∧ ¬ Counted s :=
  ⟨_,rfl,fun h => absurd (h 0 _ rfl) (by decide)⟩

end DirectFB.FusionObject
