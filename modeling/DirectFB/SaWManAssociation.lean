import DirectFB.SaWManGeometry
import DirectFB.Forest
import DirectFB.Reaches

/-! The associations of the windows of SaWMan with their parents. -/
set_option linter.unusedSectionVars false
namespace DirectFB.SaWMan.Association
open Forest Transition

/-- What a call answers. -/
inductive Result
  | ok | unsupported | invArg | idNotFound | noSharedMemory | refused | limitExceeded | failed
  deriving DecidableEq

/-- `sawman->windows`, the last identifier that was given, and the windows that are being created
but were not added yet. -/
structure State (ω : Type*) where
  windows : Windows ω
  managed : List ω
  windowIds : ℕ
  creating : List ω

/-- The answer of the application manager to a new window, with what becomes of its insertion if
there is no answer. -/
inductive Added
  | ok | noImpl (inserted : Bool) | refused
  deriving DecidableEq

/-- The parts of a configuration that `wm_set_window_config` is to change. -/
structure Change where
  bounds : Option Rectangle := none
  options : Option WindowOptions := none
  srcGeometry : Option Geometry := none
  dstGeometry : Option Geometry := none
  association : Option ℕ := none

variable {ω : Type*} [DecidableEq ω]

def State.modify (x : State ω) (w : ω) (f : Window ω → Window ω) : State ω :=
  {x with windows := SaWMan.modify x.windows w f}

def lookup (x : State ω) (id : ℕ) : Option ω := x.managed.find? fun w => (x.windows w).id = id

def setAssociation (association : ℕ) (w : Window ω) : Window ω :=
  {w with config := {w.config with association := association}}

def addChild (c : ω) (w : Window ω) : Window ω := {w with children := w.children++[c]}

def eraseChild (c : ω) (w : Window ω) : Window ω := {w with children := w.children.erase c}

def setParentWindow (parent : Option ω) (w : Window ω) : Window ω :=
  {w with parentWindow := parent}

def setParent (parent : Option ω) (w : Window ω) : Window ω :=
  {w with parent := parent, parentWindow := parent}

def findParent (x : State ω) (w : ω) (association : ℕ) : Except Result ω :=
  match lookup x association with
  | none => .error .idNotFound
  | some parent =>
    if (x.windows parent).toplevel ≠ (x.windows w).toplevel then .error .invArg else .ok parent

def State.create (x : State ω) (w : ω) (parent : Option ω) (config : WindowConfig) (creating : List ω) :
    State ω :=
  {x.modify w fun window => {window with
    id := x.windowIds+1
    parent := parent
    config := config} with windowIds := x.windowIds+1, creating := creating}

/-- `wm_preconfigure_window`, of a window that is to have the association, with the configuration
that the application manager makes of its own if it does not refuse it. -/
def preconfigure (x : State ω) (w : ω) (association : ℕ) (answer : Option WindowConfig) :
    State ω×Result :=
  let config := {(x.windows w).config with association := association}
  match if association ≠ 0 then (findParent x w association).map some
    else .ok (x.windows w).parent with
  | .error result => (x.create w (x.windows w).parent config x.creating,result)
  | .ok parent =>
    match answer with
    | some config => (x.create w parent config (w::x.creating),.ok)
    | none => (x.create w parent config x.creating,.refused)

/-- `init_subwindow`. A window that is not added to its top level window is not created. -/
def initSubwindow (x : State ω) (w top : ω) (added : Bool) : State ω×Result :=
  if (x.windows top).toplevel.isSome then ({x with creating := x.creating.erase w},.invArg)
  else if added then
    let x := x.modify w fun window => {window with toplevel := some top}
    (x.modify top fun window => {window with subwindows := window.subwindows++[w]},.ok)
  else ({x with creating := x.creating.erase w},.noSharedMemory)

/-- What `wm_add_window` and `wm_set_window_config` demand of a window that is kept above or under
its parent. -/
def keeps (x : State ω) (w : ω) (options : WindowOptions) : Result :=
  if options.keepAbove || options.keepUnder then
    match (x.windows w).parent with
    | none => .unsupported
    | some parent =>
      let own := (x.windows w).config.stacking.priority
      let other := (x.windows parent).config.stacking.priority
      if options.keepAbove then if other > own then .invArg else .ok
      else if other < own then .invArg else .ok
  else .ok

/-- `sawman_update_geometry`, at the end of a call. -/
def geometry (n : ℕ) (x : State ω) (w : ω) : Except Stop (State ω×Result) :=
  (updateGeometry n x.windows w).map fun windows => ({x with windows := windows},.ok)

def enlist (x : State ω) (w : ω) : State ω :=
  {x.modify w fun window => {window with
    children := []
    priority := window.config.stacking.priority} with
      managed := x.managed++[w], creating := x.creating.erase w}

/-- `wm_add_window`, if the vector of children of its parent has room for it or not. -/
def add (n : ℕ) (x : State ω) (w : ω) (answer : Added) (added : Bool) :
    Except Stop (State ω×Result) :=
  let result := keeps x w (x.windows w).options
  if result ≠ .ok then .ok ({x with creating := x.creating.erase w},result)
  else
    let y := enlist x w
    if answer = .refused then .ok ({y with managed := y.managed.erase w},.refused)
    else
      match (x.windows w).parent, (x.windows w).parentWindow with
      | some parent, none =>
        if answer = .noImpl false then geometry n y w
        else if added then
          geometry n ((y.modify w (setParentWindow (some parent))).modify parent (addChild w)) w
        else .ok (y,.noSharedMemory)
      | _, _ => geometry n y w

def removeChild (x : State ω) (parent w : ω) : Except Stop (State ω) :=
  if w ∈ (x.windows parent).children then
    .ok (x.modify parent (eraseChild w))
  else .error .index

/-- `wm_remove_window`. -/
def remove (x : State ω) (w : ω) (accepted : Bool) : Except Stop (State ω×Result) :=
  let x := {x with managed := x.managed.erase w}
  if accepted then do
    let x := (x.windows w).children.foldl (fun x c => x.modify c (setParent none)) x
    match (x.windows w).parent with
    | some parent =>
      let x ← removeChild x parent w
      .ok (x.modify w (setParent none),.ok)
    | none => .ok (x,.ok)
  else .ok ({x with managed := x.managed++[w]},.refused)

def dissociate (x : State ω) (w : ω) : Except Stop (State ω) :=
  if (x.windows w).parentWindow.isSome then
    match (x.windows w).parent with
    | none => .error .null
    | some parent => (removeChild x parent w).map fun x =>
        x.modify w fun window => setAssociation 0 (setParent none window)
  else .ok x

/-- The association of a window in `wm_set_window_config`. -/
def associate (x : State ω) (w : ω) (association : ℕ) (added : Bool) :
    Except Stop (State ω×Result) :=
  (dissociate x w).map fun x =>
    if association ≠ 0 then
      match findParent x w association with
      | .error result => (x,result)
      | .ok parent =>
        if added then
          ((x.modify parent (addChild w)).modify w fun window =>
            setAssociation association (setParent (some parent) window),.ok)
        else (x.modify w (setParentWindow none),.noSharedMemory)
    else (x,.ok)

def configure (change : Change) (w : Window ω) : Window ω :=
  {w with config := {w.config with
    bounds := change.bounds.getD w.config.bounds
    options := change.options.getD w.config.options
    srcGeometry := change.srcGeometry.getD w.config.srcGeometry
    dstGeometry := change.dstGeometry.getD w.config.dstGeometry}}

def Change.updatesGeometry (change : Change) : Bool :=
  change.bounds.isSome || change.srcGeometry.isSome || change.dstGeometry.isSome ||
    change.association.isSome

/-- The part of `wm_set_window_config` that is about the association. -/
def setAssociated (x : State ω) (w : ω) (association : Option ℕ) (added : Bool) :
    Except Stop (State ω×Result) :=
  match association with
  | some association =>
    if (x.windows w).config.association ≠ association then associate x w association added
    else .ok (x,.ok)
  | none => .ok (x,.ok)

/-- `wm_set_window_config`, if the application manager accepts the change, and the vector of
children of the new parent has room. -/
def setConfig (n : ℕ) (x : State ω) (w : ω) (change : Change) (accepted added : Bool) :
    Except Stop (State ω×Result) :=
  let result := (change.options.map (keeps x w)).getD .ok
  if result ≠ .ok then .ok (x,result)
  else if !accepted then .ok (x,.refused)
  else (setAssociated (x.modify w (configure change)) w change.association added).bind fun r =>
    if r.2 ≠ .ok then .ok r
    else if change.updatesGeometry then geometry n r.1 w
    else .ok (r.1,.ok)

inductive Event (ω : Type*)
  | preconfigure (window : ω) (association : ℕ) (answer : Option WindowConfig)
  | initSubwindow (window top : ω) (added : Bool)
  | add (window : ω) (answer : Added) (added : Bool)
  | remove (window : ω) (accepted : Bool)
  | setConfig (window : ω) (change : Change) (accepted added : Bool)

def Event.possible (x : State ω) : Event ω → Bool
  | .preconfigure w _ _ => (x.windows w).id = 0
  | .initSubwindow w top _ => w ∈ x.creating && (x.windows w).toplevel = none &&
      top ∈ x.managed
  | .add w _ _ => w ∈ x.creating
  | .remove w _ => w ∈ x.managed
  | .setConfig w _ _ _ => w ∈ x.managed

def run (n : ℕ) (x : State ω) : Event ω → Except Stop (State ω×Result)
  | .preconfigure w association answer => .ok (preconfigure x w association answer)
  | .initSubwindow w top added => .ok (initSubwindow x w top added)
  | .add w answer added => add n x w answer added
  | .remove w accepted => remove x w accepted
  | .setConfig w change accepted added => setConfig n x w change accepted added

def step (x : State ω) (e : ℕ×Event ω) : Option (State ω) :=
  if e.2.possible x then ((run e.1 x e.2).map Prod.fst).toOption else none

def Initial (x : State ω) : Prop :=
  x.managed = [] ∧ x.creating = [] ∧ x.windowIds = 0 ∧ ∀ w, (x.windows w).id = 0 ∧
    (x.windows w).toplevel = none ∧ (x.windows w).subwindows = [] ∧
    (x.windows w).parent = none ∧ (x.windows w).parentWindow = none ∧
    (x.windows w).children = []

def parent (x : State ω) (w : ω) : Option ω := (x.windows w).parent

/-- What a call must not do: an application manager that changes the association of a new window,
a new window that does not become a child of its parent, a window that is removed while it is the
parent of others, a window that is associated with one in its own tree. -/
def Kept (x : State ω) : Event ω → Prop
  | .preconfigure _ association answer =>
    ∀ config, answer = some config → config.association = association
  | .initSubwindow _ _ _ => True
  | .add w answer added => keeps x w (x.windows w).options = .ok → parent x w ≠ none →
      answer ≠ .refused → answer ≠ .noImpl false ∧ added = true
  | .remove w accepted => accepted = true → ∀ v, v ∈ x.managed ∨ v ∈ x.creating →
      parent x v ≠ some w
  | .setConfig w change accepted added => accepted = true → added = true →
      ∀ association p, change.association = some association → lookup x association = some p →
        (x.windows p).toplevel = (x.windows w).toplevel → ¬InTree (parent x) p w

def links (x : State ω) (w : ω) : ℕ×ℕ×Option ω×List ω×Option ω×Option ω×List ω :=
  ((x.windows w).id,(x.windows w).config.association,(x.windows w).toplevel,
    (x.windows w).subwindows,(x.windows w).parent,(x.windows w).parentWindow,
    (x.windows w).children)

def Named (x : State ω) (w : ω) : Prop :=
  (x.windows w).parent = none ∧ (x.windows w).parentWindow = none ∧
    (x.windows w).config.association = 0 ∨
  ∃ p ∈ x.managed, (x.windows w).parent = some p ∧ (x.windows w).parentWindow = some p ∧
    (x.windows w).config.association = (x.windows p).id

def Announced (x : State ω) (w : ω) : Prop :=
  (x.windows w).parentWindow = none ∧
  ((x.windows w).parent = none ∧ (x.windows w).config.association = 0 ∨
  ∃ p ∈ x.managed, (x.windows w).parent = some p ∧
    (x.windows w).config.association = (x.windows p).id ∧ (x.windows p).toplevel = none)

structure Linked (x : State ω) : Prop where
  ids : ∀ w v, (x.windows w).id = (x.windows v).id → (x.windows w).id ≠ 0 → w = v
  bound : ∀ w, (x.windows w).id ≤ x.windowIds
  fresh : ∀ w, (x.windows w).id = 0 → (x.windows w).toplevel = none ∧
    (x.windows w).parent = none ∧ (x.windows w).parentWindow = none ∧ w ∉ x.managed ∧
    w ∉ x.creating
  nodup : x.managed.Nodup
  apart : x.creating.Nodup ∧ ∀ w ∈ x.creating, w ∉ x.managed
  named : ∀ w ∈ x.managed, Named x w
  announced : ∀ w ∈ x.creating, Announced x w
  children : ∀ p w, w ∈ (x.windows p).children ↔
    w ∈ x.managed ∧ p ∈ x.managed ∧ (x.windows w).parent = some p
  childrenNodup : ∀ p, (x.windows p).children.Nodup
  forest : IsForest (parent x)
  parents : ∀ w p, (x.windows w).parent = some p → (x.windows p).id ≠ 0
  top : ∀ w t, (x.windows w).toplevel = some t → (x.windows t).toplevel = none ∧
    (x.windows t).id ≠ 0 ∧ t ∉ x.creating
  sub : ∀ t w, w ∈ (x.windows t).subwindows → (x.windows w).toplevel = some t
  subchild : ∀ p w, w ∈ (x.windows p).children → (x.windows p).toplevel ≠ none →
    (x.windows w).toplevel ≠ none

section Links
variable {x y : State ω} {w p t : ω}

theorem links_eq (h : links y = links x) (w : ω) : (y.windows w).id = (x.windows w).id ∧
    (y.windows w).config.association = (x.windows w).config.association ∧
    (y.windows w).toplevel = (x.windows w).toplevel ∧
    (y.windows w).subwindows = (x.windows w).subwindows ∧
    (y.windows w).parent = (x.windows w).parent ∧
    (y.windows w).parentWindow = (x.windows w).parentWindow ∧
    (y.windows w).children = (x.windows w).children := by
  have hw := congrFun h w
  simp only [links,Prod.mk.injEq] at hw
  exact hw

theorem Linked.congr (h : Linked x) (hy : links y = links x) (hm : y.managed = x.managed)
    (hc : y.creating = x.creating) (hi : y.windowIds = x.windowIds) : Linked y := by
  obtain ⟨windows,managed,windowIds,creating⟩ := y
  obtain rfl : managed = x.managed := hm
  obtain rfl : creating = x.creating := hc
  obtain rfl : windowIds = x.windowIds := hi
  have hid : ∀ w, (windows w).id = (x.windows w).id := fun w => (links_eq hy w).1
  have hassoc : ∀ w, (windows w).config.association = (x.windows w).config.association :=
    fun w => (links_eq hy w).2.1
  have htop : ∀ w, (windows w).toplevel = (x.windows w).toplevel :=
    fun w => (links_eq hy w).2.2.1
  have hsub : ∀ w, (windows w).subwindows = (x.windows w).subwindows :=
    fun w => (links_eq hy w).2.2.2.1
  have hparent : ∀ w, (windows w).parent = (x.windows w).parent :=
    fun w => (links_eq hy w).2.2.2.2.1
  have hpw : ∀ w, (windows w).parentWindow = (x.windows w).parentWindow :=
    fun w => (links_eq hy w).2.2.2.2.2.1
  have hchildren : ∀ w, (windows w).children = (x.windows w).children :=
    fun w => (links_eq hy w).2.2.2.2.2.2
  have hforest := h.forest
  have heq : parent x = fun w => (windows w).parent := funext fun w => (hparent w).symm
  rw [heq] at hforest
  refine ⟨?_,?_,?_,h.nodup,h.apart,?_,?_,?_,?_,hforest,?_,?_,?_,?_⟩
  all_goals simp only [Named,Announced,hid,hassoc,htop,hsub,hparent,hpw,hchildren]
  · exact h.ids
  · exact h.bound
  · exact h.fresh
  · exact h.named
  · exact h.announced
  · exact h.children
  · exact h.childrenNodup
  · exact h.parents
  · exact h.top
  · exact h.sub
  · exact h.subchild

/-- The geometry of a window is passed on in no cycle. -/
theorem Linked.passes (h : Linked x) : WellFounded (Passes x.windows) := by
  have hchildren : ∀ c w, c ∈ (x.windows w).children → Below (parent x) c w :=
    fun c w hc => ((h.children w c).mp hc).2.2
  -- sub windows have sub windows only as children
  have hsub : ∀ w, (x.windows w).toplevel ≠ none → Acc (Passes x.windows) w := by
    intro w
    induction w using h.forest.induction with
    | _ w ih =>
      intro hw
      refine .intro w fun c hc => ?_
      obtain hc | hc := hc
      · exact ih c (hchildren c w hc) (h.subchild w c hc hw)
      · exact absurd (h.top c w (h.sub w c hc)).1 hw
  refine ⟨fun w => ?_⟩
  induction w using h.forest.induction with
  | _ w ih =>
    refine .intro w fun c hc => ?_
    obtain hc | hc := hc
    · exact ih c (hchildren c w hc)
    · refine hsub c ?_
      rw [h.sub w c hc]
      exact Option.some_ne_none w

theorem Linked.abandon (h : Linked x) (w : ω) : Linked {x with creating := x.creating.erase w} := by
  have hsub : ∀ v ∈ x.creating.erase w, v ∈ x.creating := fun v hv => List.mem_of_mem_erase hv
  exact ⟨h.ids,h.bound,fun v hv => ⟨(h.fresh v hv).1,(h.fresh v hv).2.1,(h.fresh v hv).2.2.1,
      (h.fresh v hv).2.2.2.1,fun hin => (h.fresh v hv).2.2.2.2 (hsub v hin)⟩,h.nodup,
    ⟨h.apart.1.erase w,fun v hv => h.apart.2 v (hsub v hv)⟩,h.named,
    fun v hv => h.announced v (hsub v hv),h.children,h.childrenNodup,h.forest,h.parents,
    fun v t hv => ⟨(h.top v t hv).1,(h.top v t hv).2.1,fun hin => (h.top v t hv).2.2 (hsub t hin)⟩,
    h.sub,h.subchild⟩

@[simp] theorem modify_windows (x : State ω) (w v : ω) (f : Window ω → Window ω) :
    (x.modify w f).windows v = if v = w then f (x.windows v) else x.windows v :=
  modify_apply _ _ _ _

@[simp] theorem modify_managed (x : State ω) (w : ω) (f : Window ω → Window ω) :
    (x.modify w f).managed = x.managed := rfl

@[simp] theorem modify_creating (x : State ω) (w : ω) (f : Window ω → Window ω) :
    (x.modify w f).creating = x.creating := rfl

@[simp] theorem modify_windowIds (x : State ω) (w : ω) (f : Window ω → Window ω) :
    (x.modify w f).windowIds = x.windowIds := rfl

@[simp] theorem create_windows (x : State ω) (w v : ω) (q : Option ω) (config : WindowConfig)
    (creating : List ω) : (x.create w q config creating).windows v = if v = w then {x.windows v with
      id := x.windowIds+1
      parent := q
      config := config} else x.windows v :=
  modify_windows x w v fun window => {window with
    id := x.windowIds+1
    parent := q
    config := config}

@[simp] theorem create_managed (x : State ω) (w : ω) (q : Option ω) (config : WindowConfig)
    (creating : List ω) : (x.create w q config creating).managed = x.managed := rfl

@[simp] theorem create_creating (x : State ω) (w : ω) (q : Option ω) (config : WindowConfig)
    (creating : List ω) : (x.create w q config creating).creating = creating := rfl

@[simp] theorem create_windowIds (x : State ω) (w : ω) (q : Option ω) (config : WindowConfig)
    (creating : List ω) : (x.create w q config creating).windowIds = x.windowIds+1 := rfl

/-- A window gets a parent, or none, that is not in its tree. -/
theorem forest_update (h : IsForest (parent x)) {f : Window ω → Window ω} {q : Option ω}
    (hf : ∀ window, (f window).parent = q) (hq : ∀ p ∈ q, ¬InTree (parent x) p w) :
    IsForest (parent (x.modify w f)) := by
  cases q with
  | none =>
    refine h.mono fun c p hcp => ?_
    unfold parent at hcp
    rw [modify_windows] at hcp
    split_ifs at hcp with hc
    · rw [hf] at hcp
      cases hcp
    · exact hcp
  | some p =>
    have heq : parent (x.modify w f) = Function.update (parent x) w (some p) := by
      funext v
      unfold parent
      rw [modify_windows]
      by_cases hv : v = w
      · subst hv
        rw [if_pos rfl,hf,Function.update_self]
      · rw [if_neg hv,Function.update_of_ne hv]
    rw [heq]
    exact h.attach (hq p rfl)

/-- A new window that is made with a parent it may have. -/
theorem Linked.create (h : Linked x) (hw : (x.windows w).id = 0) {q : Option ω}
    (hq : ∀ p ∈ q, p ∈ x.managed) (config : WindowConfig) :
    Linked (x.create w q config x.creating) := by
  obtain ⟨hnotop,hnoparent,hnopw,hnot,hnotc⟩ := h.fresh w hw
  have hmanaged : ∀ p ∈ x.managed, (x.windows p).id ≠ 0 := fun p hp h0 =>
    (h.fresh p h0).2.2.2.1 hp
  have hforest := forest_update (w := w) h.forest (f := fun window => {window with
      id := x.windowIds+1
      parent := q
      config := config}) (fun _ => rfl) fun p hp hin => by
    obtain rfl | ⟨c,hcw,hwc⟩ := Relation.ReflTransGen.cases_tail hin
    · exact hnot (hq _ hp)
    · exact h.parents c w hwc hw
  have := h.ids
  have := h.bound
  have := h.fresh
  have := h.children
  have := h.childrenNodup
  have := h.parents
  have := h.top
  have := h.sub
  have := h.subchild
  have := h.named
  have := h.announced
  refine ⟨?_,?_,?_,h.nodup,h.apart,?_,?_,?_,?_,hforest,?_,?_,?_,?_⟩
  all_goals simp only [Named,Announced,create_windows,create_managed,create_creating,create_windowIds]
  all_goals grind [Named,Announced]

theorem Linked.announce (h : Linked x) (hw : (x.windows w).id ≠ 0) (hnot : w ∉ x.managed)
    (hnotc : w ∉ x.creating) (ha : Announced x w) (htop : ∀ v, (x.windows v).toplevel ≠ some w) :
    Linked {x with creating := w::x.creating} := by
  refine ⟨h.ids,h.bound,fun v hv => ?_,h.nodup,⟨List.nodup_cons.mpr ⟨hnotc,h.apart.1⟩,?_⟩,h.named,
    ?_,h.children,h.childrenNodup,h.forest,h.parents,fun v t hv => ?_,h.sub,h.subchild⟩
  · have := h.fresh v hv
    grind
  · exact List.forall_mem_cons.mpr ⟨hnot,h.apart.2⟩
  · exact List.forall_mem_cons.mpr ⟨ha,h.announced⟩
  · have := h.top v t hv
    grind

theorem parent_modify (x : State ω) (w : ω) {f : Window ω → Window ω}
    (hf : ∀ window, (f window).parent = window.parent) : parent (x.modify w f) = parent x := by
  funext v
  unfold parent
  rw [modify_windows]
  split_ifs
  · exact hf _
  · rfl

theorem Linked.setTop (h : Linked x) (hw : w ∈ x.creating) (hnotop : (x.windows w).toplevel = none)
    (ht : t ∈ x.managed) (htop : (x.windows t).toplevel = none) :
    Linked ((x.modify w fun window => {window with toplevel := some t}).modify t
      fun window => {window with subwindows := window.subwindows++[w]}) := by
  have hnot := h.apart.2 w hw
  have hforest := h.forest
  rw [← parent_modify x w (f := fun window => {window with toplevel := some t}) fun _ => rfl,
    ← parent_modify _ t (f := fun window => {window with subwindows := window.subwindows++[w]})
      fun _ => rfl] at hforest
  have hids := h.fresh
  refine ⟨?_,?_,?_,h.nodup,h.apart,?_,?_,?_,?_,hforest,?_,?_,?_,?_⟩
  all_goals simp only [Named,Announced,modify_windows,modify_managed,modify_creating,
    modify_windowIds]
  · have := h.ids
    grind
  · have := h.bound
    grind
  · grind
  · have := h.named
    grind [Named]
  · have := h.announced
    grind [Announced]
  · have := h.children
    grind
  · have := h.childrenNodup
    grind
  · have := h.parents
    grind
  · have := h.top
    have hapart := h.apart
    grind
  · have := h.sub
    have := h.top
    grind
  · have := h.subchild
    have := h.children
    grind

/-- A window is managed that has no parent. -/
theorem Linked.manage (h : Linked x) (hw : w ∈ x.creating) (hnone : (x.windows w).parent = none) :
    Linked {x with managed := x.managed++[w], creating := x.creating.erase w} := by
  have hnot := h.apart.2 w hw
  have hnodup := h.nodup
  have hapart := h.apart
  refine ⟨h.ids,h.bound,?_,?_,?_,?_,?_,?_,h.childrenNodup,h.forest,h.parents,?_,h.sub,h.subchild⟩
  · have := h.fresh
    grind
  · grind
  · grind
  · have := h.named
    have := h.announced
    grind [Named,Announced]
  · have := h.announced
    grind [Announced]
  · have := h.children
    have := h.named
    intro p v
    grind [Named]
  · have := h.top
    grind

theorem Linked.adopt (h : Linked x) (hw : w ∈ x.creating)
    (hsome : (x.windows w).parent = some p) :
    Linked (({x with managed := x.managed++[w], creating := x.creating.erase w}.modify w
      (setParentWindow (some p))).modify p (addChild w)) := by
  have hnot := h.apart.2 w hw
  have hnodup := h.nodup
  have hapart := h.apart
  have hannounced := h.announced w hw
  have hp : p ∈ x.managed := by grind [Announced]
  have hforest : IsForest (parent (({x with
      managed := x.managed++[w]
      creating := x.creating.erase w}.modify w (setParentWindow (some p))).modify p
      (addChild w))) := by
    rw [parent_modify _ p (f := addChild w) fun _ => rfl,
      parent_modify _ w (f := setParentWindow (some p)) fun _ => rfl]
    exact h.forest
  have hids := h.fresh
  refine ⟨?_,?_,?_,?_,?_,?_,?_,?_,?_,hforest,?_,?_,?_,?_⟩
  all_goals simp only [Named,Announced,modify_windows,modify_managed,modify_creating,
    modify_windowIds,addChild,setParentWindow]
  · have := h.ids
    grind
  · have := h.bound
    grind
  · grind
  · grind
  · grind
  · intro v hv
    by_cases hvw : v = w
    · refine .inr ⟨p,?_,?_,?_,?_⟩ <;> grind [Announced]
    · obtain hnone | ⟨q,hq⟩ := h.named v (by grind)
      · exact .inl (by grind)
      · refine .inr ⟨q,?_,?_,?_,?_⟩ <;> grind
  · intro v hv
    obtain ⟨hnopw,hnone | ⟨q,hq⟩⟩ := h.announced v (List.mem_of_mem_erase hv)
    · grind
    · refine ⟨by grind,.inr ⟨q,?_,?_,?_,?_⟩⟩ <;> grind
  · have := h.children
    have := h.named
    grind [Named]
  · have := h.childrenNodup
    have := h.children
    grind
  · have := h.parents
    grind
  · have := h.top
    grind
  · have := h.sub
    grind
  · have := h.subchild
    have := h.children
    grind [Announced]

variable {association n : ℕ} {r : Result}

/-- A window is associated with one that is not in its tree. -/
theorem Linked.associate (h : Linked x) (hw : w ∈ x.managed)
    (hnone : (x.windows w).parent = none) (hp : p ∈ x.managed)
    (htop : (x.windows p).toplevel = (x.windows w).toplevel)
    (hnot : ¬InTree (parent x) p w) (hid : (x.windows p).id = association) :
    Linked ((x.modify p (addChild w)).modify w fun window =>
      setAssociation association (setParent (some p) window)) := by
  have hids := h.fresh
  have hne : p ≠ w := fun heq => hnot (heq ▸ .refl)
  have heq : parent (x.modify p (addChild w)) = parent x := parent_modify x p fun _ => rfl
  have hforest := forest_update (x := x.modify p (addChild w)) (w := w) (q := some p)
    (f := fun window => setAssociation association (setParent (some p) window))
    (heq ▸ h.forest) (fun _ => rfl) fun q hq => by
      obtain rfl := Option.some.inj hq
      rw [heq]
      exact hnot
  refine ⟨?_,?_,?_,h.nodup,h.apart,?_,?_,?_,?_,hforest,?_,?_,?_,?_⟩
  all_goals simp only [Named,Announced,modify_windows,modify_managed,modify_creating,
    modify_windowIds,setAssociation,addChild,setParent]
  · have := h.ids
    grind
  · have := h.bound
    grind
  · grind
  · have := h.named
    grind [Named]
  · have := h.announced
    have := h.apart
    grind [Announced]
  · have := h.children
    grind
  · have := h.childrenNodup
    have := h.children
    grind
  · have := h.parents
    grind
  · have := h.top
    grind
  · have := h.sub
    grind
  · have := h.subchild
    have := h.children
    grind

/-- A window is no longer associated. -/
theorem Linked.dissociate (h : Linked x) (hw : w ∈ x.managed)
    (hsome : (x.windows w).parent = some p) :
    Linked ((x.modify p (eraseChild w)).modify w fun window =>
      setAssociation 0 (setParent none window)) := by
  have hids := h.fresh
  have heq : parent (x.modify p (eraseChild w)) = parent x := parent_modify x p fun _ => rfl
  have hforest := forest_update (x := x.modify p (eraseChild w)) (w := w) (q := none)
    (f := fun window => setAssociation 0 (setParent none window))
    (heq ▸ h.forest) (fun _ => rfl) fun q hq => by cases hq
  refine ⟨?_,?_,?_,h.nodup,h.apart,?_,?_,?_,?_,hforest,?_,?_,?_,?_⟩
  all_goals simp only [Named,Announced,modify_windows,modify_managed,modify_creating,
    modify_windowIds,setAssociation,eraseChild,setParent]
  · have := h.ids
    grind
  · have := h.bound
    grind
  · grind
  · have := h.named
    grind [Named]
  · have := h.announced
    have := h.apart
    grind [Announced]
  · have := h.children
    have := h.childrenNodup
    grind
  · have := h.childrenNodup
    grind
  · have := h.parents
    grind
  · have := h.top
    grind
  · have := h.sub
    grind
  · have := h.subchild
    have := h.children
    have := h.childrenNodup
    grind

theorem Linked.unmanage (h : Linked x) (hw : w ∈ x.managed)
    (hnone : (x.windows w).parent = none)
    (hno : ∀ v, v ∈ x.managed ∨ v ∈ x.creating → (x.windows v).parent ≠ some w) :
    Linked {x with managed := x.managed.erase w} := by
  have hnodup := h.nodup
  have hapart := h.apart
  refine ⟨h.ids,h.bound,?_,?_,?_,?_,?_,?_,h.childrenNodup,h.forest,h.parents,h.top,h.sub,h.subchild⟩
  · have := h.fresh
    grind
  · grind
  · grind
  · have := h.named
    grind [Named]
  · have := h.announced
    grind [Announced]
  · have := h.children
    grind

theorem lookup_spec (h : lookup x association = some p) :
    p ∈ x.managed ∧ (x.windows p).id = association := by
  unfold lookup at h
  exact ⟨List.mem_of_find?_eq_some h,by simpa using List.find?_some h⟩

/-- A new window is announced with a parent, or none, as its association says. -/
theorem created (h : Linked x) (hw : (x.windows w).id = 0) {q : Option ω} {config : WindowConfig}
    (hq : q = none ∧ config.association = 0 ∨
      ∃ p ∈ x.managed, q = some p ∧ config.association = (x.windows p).id ∧
        (x.windows p).toplevel = none) :
    Linked (x.create w q config (w::x.creating)) := by
  obtain ⟨hnotop,hnoparent,hnopw,hnot,hnotc⟩ := h.fresh w hw
  have hmanaged : ∀ p ∈ q, p ∈ x.managed := by
    intro p hp
    obtain ⟨rfl,-⟩ | ⟨p',hp',rfl,-⟩ := hq
    · cases hp
    · obtain rfl := Option.some.inj hp
      exact hp'
  have hself : (x.create w q config x.creating).windows w = {x.windows w with
      id := x.windowIds+1
      parent := q
      config := config} := by
    simp
  refine (h.create hw hmanaged config).announce (w := w) ?_ hnot hnotc ⟨?_,?_⟩ ?_
  · rw [hself]
    exact Nat.succ_ne_zero _
  · rw [hself]
    exact hnopw
  · rw [hself]
    obtain ⟨rfl,hassoc⟩ | ⟨p,hp,rfl,hassoc,htop⟩ := hq
    · exact .inl ⟨rfl,hassoc⟩
    · have hne : p ≠ w := fun heq => hnot (heq ▸ hp)
      have hother : (x.create w (some p) config x.creating).windows p = x.windows p := by
        simp [hne]
      refine .inr ⟨p,hp,rfl,?_,?_⟩
      · rw [hother]
        exact hassoc
      · rw [hother]
        exact htop
  · intro v hv
    have htop := h.top
    rw [create_windows] at hv
    grind

theorem findParent_spec (h : findParent x w association = .ok p) :
    lookup x association = some p ∧ (x.windows p).toplevel = (x.windows w).toplevel := by
  unfold findParent at h
  cases hp : lookup x association with
  | none =>
    rw [hp] at h
    cases h
  | some q =>
    rw [hp] at h
    dsimp only at h
    split_ifs at h with htop
    obtain rfl := Except.ok.inj h
    exact ⟨rfl,not_not.mp htop⟩

theorem preconfigure_linked (h : Linked x) (hw : (x.windows w).id = 0)
    {answer : Option WindowConfig}
    (hkept : ∀ config, answer = some config → config.association = association) :
    Linked (preconfigure x w association answer).1 := by
  obtain ⟨hnotop,hnoparent,-⟩ := h.fresh w hw
  unfold preconfigure
  dsimp only
  rw [hnoparent]
  split_ifs with h0
  · cases hp : findParent x w association with
    | error result => exact h.create hw (fun p hp => by cases hp) _
    | ok p =>
      obtain ⟨hlookup,htop⟩ := findParent_spec hp
      obtain ⟨hmem,hid⟩ := lookup_spec hlookup
      cases answer with
      | none => exact h.create hw (fun q hq => by obtain rfl := Option.some.inj hq; exact hmem) _
      | some config =>
        exact created h hw (.inr ⟨p,hmem,rfl,(hkept config rfl).trans hid.symm,htop.trans hnotop⟩)
  · cases answer with
    | none => exact h.create hw (fun p hp => by cases hp) _
    | some config => exact created h hw (.inl ⟨rfl,(hkept config rfl).trans (not_not.mp h0)⟩)

theorem initSubwindow_linked (h : Linked x) (hw : w ∈ x.creating)
    (hnotop : (x.windows w).toplevel = none) (ht : t ∈ x.managed) (added : Bool) :
    Linked (initSubwindow x w t added).1 := by
  unfold initSubwindow
  split_ifs with htop hadded
  · exact h.abandon w
  · exact h.setTop hw hnotop ht (by simpa using htop)
  · exact h.abandon w

/-- What concerns no links. -/
theorem links_modify {f : Window ω → Window ω} (hid : (f (x.windows w)).id = (x.windows w).id)
    (hassoc : (f (x.windows w)).config.association = (x.windows w).config.association)
    (htop : (f (x.windows w)).toplevel = (x.windows w).toplevel)
    (hsub : (f (x.windows w)).subwindows = (x.windows w).subwindows)
    (hparent : (f (x.windows w)).parent = (x.windows w).parent)
    (hpw : (f (x.windows w)).parentWindow = (x.windows w).parentWindow)
    (hchildren : (f (x.windows w)).children = (x.windows w).children) :
    links (x.modify w f) = links x := by
  funext v
  unfold links
  rw [modify_windows]
  split_ifs with hv
  · subst hv
    rw [hid,hassoc,htop,hsub,hparent,hpw,hchildren]
  · rfl

theorem geometry_spec {u : State ω} (hu : geometry n x w = .ok (u,r)) :
    (Linked x → Linked u) ∧ r = .ok := by
  unfold geometry at hu
  cases hg : updateGeometry n x.windows w with
  | error e =>
    rw [hg] at hu
    cases hu
  | ok windows =>
    rw [hg] at hu
    obtain ⟨rfl,rfl⟩ := Prod.mk.inj (Except.ok.inj hu)
    refine ⟨fun h => h.congr ?_ rfl rfl rfl,rfl⟩
    funext v
    unfold links
    dsimp only
    rw [updateGeometry_moved n hg v]

theorem add_linked (h : Linked x) (hw : w ∈ x.creating) {answer : Added} {added : Bool}
    (hkept : Kept x (.add w answer added)) {u : State ω}
    (hu : add n x w answer added = .ok (u,r)) : Linked u := by
  have hnot := h.apart.2 w hw
  obtain ⟨hnopw,hparent⟩ := h.announced w hw
  have hnil : (x.windows w).children = [] :=
    List.eq_nil_iff_forall_not_mem.mpr fun v hv => hnot ((h.children w v).mp hv).2.1
  have hlinks : links (enlist x w) = links {x with
      managed := x.managed++[w], creating := x.creating.erase w} :=
    links_modify (x := {x with managed := x.managed++[w], creating := x.creating.erase w})
      rfl rfl rfl rfl rfl rfl hnil.symm
  unfold add at hu
  dsimp only at hu
  rw [hnopw] at hu
  by_cases hkeeps : keeps x w (x.windows w).options = .ok
  swap
  · rw [if_pos hkeeps] at hu
    obtain ⟨rfl,-⟩ := Prod.mk.inj (Except.ok.inj hu)
    exact h.abandon w
  rw [if_neg (not_not.mpr hkeeps)] at hu
  by_cases hrefused : answer = .refused
  · rw [if_pos hrefused] at hu
    obtain ⟨rfl,-⟩ := Prod.mk.inj (Except.ok.inj hu)
    refine (h.abandon w).congr hlinks ?_ rfl rfl
    change (x.managed++[w]).erase w = x.managed
    rw [List.erase_append_right _ hnot,List.erase_cons_head,List.append_nil]
  rw [if_neg hrefused] at hu
  cases hcase : (x.windows w).parent with
  | none =>
    rw [hcase] at hu
    exact (geometry_spec hu).1 ((h.manage hw hcase).congr hlinks rfl rfl rfl)
  | some p =>
    rw [hcase] at hu
    have hk := hkept hkeeps (by
      unfold parent
      rw [hcase]
      exact Option.some_ne_none p) hrefused
    dsimp only at hu
    rw [if_neg hk.1,if_pos hk.2] at hu
    refine (geometry_spec hu).1 ((h.adopt hw hcase).congr ?_ rfl rfl rfl)
    funext v
    have hv := links_eq hlinks v
    simp only [links,modify_windows,addChild,setParentWindow]
    split_ifs <;> simp [hv]

/-- What a window was associated with does not matter when it is gone. -/
theorem Linked.forget (h : Linked x) (hnot : w ∉ x.managed) (hnotc : w ∉ x.creating)
    (association : ℕ) : Linked (x.modify w (setAssociation association)) := by
  have hforest := h.forest
  rw [← parent_modify x w (f := setAssociation association) fun _ => rfl] at hforest
  refine ⟨?_,?_,?_,h.nodup,h.apart,?_,?_,?_,?_,hforest,?_,?_,?_,?_⟩
  all_goals simp only [Named,Announced,modify_windows,modify_managed,modify_creating,
    modify_windowIds,setAssociation]
  · have := h.ids
    grind
  · have := h.bound
    grind
  · have := h.fresh
    grind
  · have := h.named
    grind [Named]
  · have := h.announced
    grind [Announced]
  · have := h.children
    grind
  · have := h.childrenNodup
    grind
  · have := h.parents
    grind
  · have := h.top
    grind
  · have := h.sub
    grind
  · have := h.subchild
    grind

theorem Linked.mem_children (h : Linked x) (hw : w ∈ x.managed)
    (hsome : (x.windows w).parent = some p) : w ∈ (x.windows p).children := by
  refine (h.children p w).mpr ⟨hw,?_,hsome⟩
  obtain ⟨hnone,-⟩ | ⟨q,hq,hsome',-⟩ := h.named w hw
  · cases hnone.symm.trans hsome
  · obtain rfl := Option.some.inj (hsome.symm.trans hsome')
    exact hq

theorem Linked.perm (h : Linked x) {l : List ω} (hl : l.Perm x.managed) :
    Linked {x with managed := l} := by
  refine ⟨h.ids,h.bound,?_,hl.nodup_iff.mpr h.nodup,?_,?_,?_,?_,h.childrenNodup,h.forest,h.parents,
    h.top,h.sub,h.subchild⟩
  all_goals simp only [Named,Announced,hl.mem_iff]
  · exact h.fresh
  · exact h.apart
  · exact h.named
  · exact h.announced
  · exact h.children

theorem remove_linked (h : Linked x) (hw : w ∈ x.managed) {accepted : Bool}
    (hkept : Kept x (.remove w accepted)) {u : State ω}
    (hu : remove x w accepted = .ok (u,r)) : Linked u := by
  have hnot : w ∉ x.managed.erase w := h.nodup.not_mem_erase
  have hnotc : w ∉ x.creating := fun hc => h.apart.2 w hc hw
  cases accepted with
  | false =>
    obtain ⟨rfl,-⟩ := Prod.mk.inj (Except.ok.inj hu)
    refine h.perm ?_
    exact (List.perm_append_singleton w _).trans (List.perm_cons_erase hw).symm
  | true =>
    have hno := hkept rfl
    have hnil : (x.windows w).children = [] := List.eq_nil_iff_forall_not_mem.mpr fun v hv =>
      hno v (.inl ((h.children w v).mp hv).1) ((h.children w v).mp hv).2.2
    unfold remove at hu
    simp only [if_true,hnil,List.foldl_nil] at hu
    cases hcase : (x.windows w).parent with
    | none =>
      rw [hcase] at hu
      obtain ⟨rfl,-⟩ := Prod.mk.inj (Except.ok.inj hu)
      exact h.unmanage hw hcase hno
    | some p =>
      rw [hcase] at hu
      obtain ⟨y,hy,heq⟩ := bind_ok hu
      obtain ⟨rfl,-⟩ := Prod.mk.inj (Except.ok.inj heq)
      unfold removeChild at hy
      rw [if_pos (h.mem_children hw hcase)] at hy
      obtain rfl := Except.ok.inj hy
      have hd := h.dissociate hw hcase
      have hgone := (hd.unmanage (w := w) hw ?_ ?_).forget (w := w) hnot hnotc
        (x.windows w).config.association
      · refine hgone.congr ?_ rfl rfl rfl
        funext v
        simp only [links,modify_windows,setAssociation,setParent,eraseChild]
        split_ifs <;> simp_all
      · simp [setAssociation,setParent]
      · intro v hv
        have hv := hno v hv
        simp only [modify_windows,setAssociation,setParent,eraseChild]
        unfold parent at hv
        split_ifs <;> simp_all

theorem dissociate_spec (h : Linked x) (hw : w ∈ x.managed) : ∃ y, dissociate x w = .ok y ∧
    Linked y ∧ y.managed = x.managed ∧ (y.windows w).parent = none ∧
    (y.windows w).parentWindow = none ∧ (y.windows w).config.association = 0 ∧
    (∀ v, (y.windows v).id = (x.windows v).id ∧ (y.windows v).toplevel = (x.windows v).toplevel) ∧
    ∀ c q, parent y c = some q → parent x c = some q := by
  unfold dissociate
  obtain ⟨hnone,hnopw,hassoc⟩ | ⟨p,hp,hsome,hpw,-⟩ := h.named w hw
  · rw [hnopw]
    exact ⟨x,rfl,h,rfl,hnone,hnopw,hassoc,fun _ => ⟨rfl,rfl⟩,fun _ _ => id⟩
  · rw [hpw,hsome]
    simp only [Option.isSome_some,if_true,removeChild,if_pos (h.mem_children hw hsome)]
    refine ⟨_,rfl,h.dissociate hw hsome,rfl,?_,?_,?_,fun v => ?_,fun c q hcq => ?_⟩
    · simp [setAssociation,setParent]
    · simp [setAssociation,setParent]
    · simp [setAssociation,setParent]
    · simp only [modify_windows,setAssociation,setParent,eraseChild]
      split_ifs <;> exact ⟨rfl,rfl⟩
    · unfold parent at hcq ⊢
      simp only [modify_windows,setAssociation,setParent,eraseChild] at hcq
      split_ifs at hcq <;> first | cases hcq | exact hcq

def Restored (x u : State ω) (w : ω) : Prop :=
  (u.windows w).parent = (x.windows w).parent ∧
    (u.windows w).parentWindow = (x.windows w).parentWindow ∧
    (u.windows w).config.association = (x.windows w).config.association ∨
  (u.windows w).parent = none ∧ (u.windows w).parentWindow = none ∧
    (u.windows w).config.association = 0

theorem associate_spec (h : Linked x) (hw : w ∈ x.managed) (association : ℕ) (added : Bool) :
    ∃ u r, associate x w association added = .ok (u,r) ∧ (r ≠ .ok → Restored x u w) ∧
      ((added = true → ∀ p, lookup x association = some p →
        (x.windows p).toplevel = (x.windows w).toplevel → ¬InTree (parent x) p w) → Linked u) := by
  obtain ⟨y,hy,hlinked,hmanaged,hnone,hnopw,hassoc,hsame,hparent⟩ := dissociate_spec h hw
  have hclear : Restored x y w := .inr ⟨hnone,hnopw,hassoc⟩
  have hlookup : lookup y association = lookup x association := by
    unfold lookup
    rw [hmanaged]
    congr 1
    funext v
    rw [(hsame v).1]
  unfold associate
  rw [hy]
  simp only [Except.map]
  by_cases h0 : association ≠ 0
  swap
  · rw [if_neg h0]
    exact ⟨y,.ok,rfl,fun _ => hclear,fun _ => hlinked⟩
  rw [if_pos h0]
  cases hp : findParent y w association with
  | error result => exact ⟨y,result,rfl,fun _ => hclear,fun _ => hlinked⟩
  | ok p =>
    obtain ⟨hfound,htop⟩ := findParent_spec hp
    obtain ⟨hmem,hid⟩ := lookup_spec hfound
    dsimp only
    cases added with
    | false =>
      refine ⟨_,_,rfl,fun _ => .inr ⟨?_,?_,?_⟩,fun _ => ?_⟩
      · simpa [setParentWindow] using hnone
      · simp [setParentWindow]
      · simpa [setParentWindow] using hassoc
      · refine hlinked.congr (links_modify rfl rfl rfl rfl rfl ?_ rfl) rfl rfl rfl
        exact hnopw.symm
    | true =>
      refine ⟨_,_,rfl,fun hne => absurd rfl hne,fun hnot => ?_⟩
      refine hlinked.associate (hmanaged ▸ hw) hnone hmem htop (fun hin => ?_) hid
      refine hnot rfl p (hlookup ▸ hfound) ?_ (Relation.ReflTransGen.mono hparent _ _ hin)
      rw [← (hsame p).2,htop,(hsame w).2]

theorem restored_refl (x : State ω) (w : ω) : Restored x x w := .inl ⟨rfl,rfl,rfl⟩

theorem Restored.congr {x' u' : State ω} (h : Restored x u w) (hx : links x' = links x)
    (hu : links u' = links u) : Restored x' u' w := by
  have hx := links_eq hx w
  have hu := links_eq hu w
  unfold Restored at h ⊢
  rw [hx.2.1,hx.2.2.2.2.1,hx.2.2.2.2.2.1,hu.2.1,hu.2.2.2.2.1,hu.2.2.2.2.2.1]
  exact h

theorem setConfig_spec (h : Linked x) (hw : w ∈ x.managed) {change : Change}
    {accepted added : Bool} {u : State ω}
    (hu : setConfig n x w change accepted added = .ok (u,r)) :
    (Kept x (.setConfig w change accepted added) → Linked u) ∧ (r ≠ .ok → Restored x u w) := by
  have hsame : links (x.modify w (configure change)) = links x :=
    links_modify rfl rfl rfl rfl rfl rfl rfl
  have hconfigured := h.congr hsame rfl rfl rfl
  unfold setConfig at hu
  dsimp only at hu
  by_cases hkeeps : (change.options.map (keeps x w)).getD .ok ≠ .ok
  · rw [if_pos hkeeps] at hu
    obtain ⟨rfl,-⟩ := Prod.mk.inj (Except.ok.inj hu)
    exact ⟨fun _ => h,fun _ => restored_refl x w⟩
  rw [if_neg hkeeps] at hu
  by_cases haccepted : accepted = true
  swap
  · rw [if_pos (by simpa using haccepted)] at hu
    obtain ⟨rfl,-⟩ := Prod.mk.inj (Except.ok.inj hu)
    exact ⟨fun _ => h,fun _ => restored_refl x w⟩
  rw [if_neg (by simpa using haccepted)] at hu
  have hassociated : ∃ y s, setAssociated (x.modify w (configure change)) w change.association
      added = .ok (y,s) ∧ (s ≠ .ok → Restored (x.modify w (configure change)) y w) ∧
      (Kept x (.setConfig w change accepted added) → Linked y) := by
    unfold setAssociated
    cases hcase : change.association with
    | none => exact ⟨_,_,rfl,fun _ => restored_refl _ w,fun _ => hconfigured⟩
    | some association =>
      dsimp only
      split_ifs
      swap
      · exact ⟨_,_,rfl,fun _ => restored_refl _ w,fun _ => hconfigured⟩
      obtain ⟨y,s,hy,hrestored,hlinked⟩ := associate_spec hconfigured hw association added
      refine ⟨y,s,hy,hrestored,fun hkept => hlinked fun hadded p hp htop => ?_⟩
      have hparent : parent (x.modify w (configure change)) = parent x :=
        parent_modify x w fun _ => rfl
      have hlookup : lookup (x.modify w (configure change)) association = lookup x association := by
        unfold lookup
        rw [modify_managed]
        congr 1
        funext v
        rw [(links_eq hsame v).1]
      rw [hparent]
      refine hkept haccepted hadded association p hcase (hlookup ▸ hp) ?_
      rw [← (links_eq hsame p).2.2.1,htop,(links_eq hsame w).2.2.1]
  obtain ⟨y,s,hy,hrestored,hlinked⟩ := hassociated
  rw [hy] at hu
  simp only [Except.bind] at hu
  by_cases hs : s ≠ .ok
  · rw [if_pos hs] at hu
    obtain ⟨rfl,rfl⟩ := Prod.mk.inj (Except.ok.inj hu)
    exact ⟨hlinked,fun hne => (hrestored hne).congr hsame.symm rfl⟩
  rw [if_neg hs] at hu
  by_cases hgeometry : change.updatesGeometry = true
  · rw [if_pos hgeometry] at hu
    obtain ⟨hgeo,rfl⟩ := geometry_spec hu
    exact ⟨fun hkept => hgeo (hlinked hkept),fun hne => absurd rfl hne⟩
  · rw [if_neg hgeometry] at hu
    obtain ⟨rfl,rfl⟩ := Prod.mk.inj (Except.ok.inj hu)
    exact ⟨hlinked,fun hne => absurd rfl hne⟩

theorem Linked.initial (h : Initial x) : Linked x := by
  obtain ⟨hm,hc,hi,hw⟩ := h
  have hforest : IsForest (parent x) := by
    refine ⟨fun w => .intro w fun c hcw => ?_⟩
    cases (hw c).2.2.2.1.symm.trans hcw
  refine ⟨fun w v _ hne => absurd (hw w).1 hne,fun w => ?_,fun w _ => ?_,?_,?_,?_,?_,fun p w => ?_,
    fun p => ?_,hforest,fun w p hp => ?_,fun w t ht => ?_,fun t w hs => ?_,fun p w hc => ?_⟩
  · rw [(hw w).1]
    exact Nat.zero_le _
  · rw [hm,hc]
    exact ⟨(hw w).2.1,(hw w).2.2.2.1,(hw w).2.2.2.2.1,List.not_mem_nil,List.not_mem_nil⟩
  · rw [hm]
    exact List.nodup_nil
  · rw [hc]
    exact ⟨List.nodup_nil,fun w hw => by cases hw⟩
  · rw [hm]
    exact fun w hw => by cases hw
  · rw [hc]
    exact fun w hw => by cases hw
  · rw [(hw p).2.2.2.2.2,hm]
    exact iff_of_false List.not_mem_nil fun h => by cases h.1
  · rw [(hw p).2.2.2.2.2]
    exact List.nodup_nil
  · cases (hw w).2.2.2.1.symm.trans hp
  · cases (hw w).2.1.symm.trans ht
  · rw [(hw t).2.2.1] at hs
    cases hs
  · rw [(hw p).2.2.2.2.2] at hc
    cases hc

theorem step_linked (h : Linked x) {e : ℕ×Event ω} (hkept : Kept x e.2)
    (hy : step x e = some y) : Linked y := by
  obtain ⟨n,e⟩ := e
  unfold step at hy
  split_ifs at hy with hpossible
  have hrun : ∃ r, run n x e = .ok (y,r) := by
    cases hrun : run n x e with
    | error e =>
      rw [hrun] at hy
      cases hy
    | ok r =>
      rw [hrun] at hy
      obtain rfl := Option.some.inj hy
      exact ⟨r.2,rfl⟩
  obtain ⟨r,hrun⟩ := hrun
  cases e with
  | preconfigure w association answer =>
    obtain rfl := congrArg Prod.fst (Except.ok.inj hrun)
    exact preconfigure_linked h (of_decide_eq_true hpossible) hkept
  | initSubwindow w t added =>
    obtain rfl := congrArg Prod.fst (Except.ok.inj hrun)
    simp only [Event.possible,Bool.and_eq_true,decide_eq_true_eq] at hpossible
    exact initSubwindow_linked h hpossible.1.1 hpossible.1.2 hpossible.2 added
  | add w answer added => exact add_linked h (of_decide_eq_true hpossible) hkept hrun
  | remove w accepted => exact remove_linked h (of_decide_eq_true hpossible) hkept hrun
  | setConfig w change accepted added =>
    exact (setConfig_spec h (of_decide_eq_true hpossible) hrun).1 hkept

end Links

structure Associated (x : State ω) : Prop where
  acyclic : ∀ w, ¬Relation.TransGen (Below (parent x)) w w
  once : ∀ w ∈ x.managed, ∀ p, (x.windows p).children.count w = if parent x w = some p then 1 else 0
  named : ∀ w ∈ x.managed, Named x w
  ends : ∀ w, ∃ n, ∀ k ≥ n, updateGeometry k x.windows w ≠ .error .depth

theorem Linked.associated {x : State ω} (h : Linked x) : Associated x := by
  refine ⟨h.forest.no_cycle,fun w hw p => ?_,h.named,fun w => ?_⟩
  · split_ifs with hp
    · exact List.count_eq_one_of_mem (h.childrenNodup p) (h.mem_children hw hp)
    · exact List.count_eq_zero.mpr fun hc => hp ((h.children p w).mp hc).2.2
  · obtain ⟨n,hn⟩ := updateGeometry_ends h.passes w
    exact ⟨n,fun k hk => hn k hk _ (.refl _)⟩

/-- Where no call does what it must not, the windows that are associated form a forest, and a change
of an association that fails leaves the one before, or none. -/
theorem association_forest {x : State ω} (h : Reaches step (fun x e => Kept x e.2) Initial x) :
    Associated x ∧ ∀ w change accepted added n u r, w ∈ x.managed →
      run n x (.setConfig w change accepted added) = .ok (u,r) → r ≠ .ok → Restored x u w := by
  have hlinked : Linked x :=
    h.invariant Linked (fun _ => Linked.initial) fun _ _ _ hs hkept hu => step_linked hs hkept hu
  exact ⟨hlinked.associated,fun w change accepted added n u r hw hu =>
    (setConfig_spec hlinked hw hu).2⟩

section Runs

def plain : Window ℕ where
  caps := {color := true}
  config := {bounds := ⟨0,0,10,10,by decide,by decide⟩}
  placement := ⟨⟨0,0,0,0,le_rfl,le_rfl⟩,⟨0,0,0,0,le_rfl,le_rfl⟩,⟨0,0,0,0,le_rfl,le_rfl⟩,
    ⟨le_rfl,le_rfl,le_rfl,le_rfl⟩⟩

def blank : State ℕ := ⟨fun _ => plain,[],0,[]⟩

theorem blank_initial : Initial blank :=
  ⟨rfl,rfl,rfl,fun _ => ⟨rfl,rfl,rfl,rfl,rfl,rfl⟩⟩

def newWindow (w association : ℕ) (added : Bool) : List (ℕ×Event ℕ) :=
  [(0,.preconfigure w association (some {plain.config with association := association})),
    (1,.add w .ok added)]

/-- The second window is a child of the first one. -/
theorem window_associated : ∃ x, Reaches step (fun x e => Kept x e.2) Initial x ∧ Associated x ∧
    parent x 1 = some 0 ∧ (x.windows 0).children = [1] := by
  have hmade : ∀ (x : State ℕ) w association, Kept x (.preconfigure w association
      (some {plain.config with association := association})) := by
    intro x w association config hconfig
    obtain rfl := Option.some.inj hconfig
    rfl
  have h1 : Reaches step (fun x e => Kept x e.2) Initial _ :=
    .step (0,.preconfigure 0 0 (some plain.config)) (.init blank_initial) (hmade _ 0 0) rfl
  have h2 : Reaches step (fun x e => Kept x e.2) Initial _ :=
    .step (1,.add 0 .ok true) h1 (fun _ hne => absurd rfl hne) rfl
  have h3 : Reaches step (fun x e => Kept x e.2) Initial _ :=
    .step (0,.preconfigure 1 1 _) h2 (hmade _ 1 1) rfl
  have h4 : Reaches step (fun x e => Kept x e.2) Initial _ :=
    .step (1,.add 1 .ok true) h3 (fun _ _ _ => ⟨by decide,rfl⟩) rfl
  exact ⟨_,h4,(association_forest h4).1,rfl,rfl⟩

/-- Two windows are each other's parents; a child keeps the association with a parent that is gone;
a window that found no room has a parent it is no child of. -/
theorem window_unassociated :
    (∃ x, Reaches step (fun _ _ => True) Initial x ∧ ¬Associated x ∧ parent x 0 = some 1 ∧
      parent x 1 = some 0) ∧
    (∃ x, Reaches step (fun _ _ => True) Initial x ∧ ¬Associated x ∧ parent x 1 = none ∧
      (x.windows 1).config.association = 1) ∧
    ∃ x, Reaches step (fun _ _ => True) Initial x ∧ ¬Associated x ∧ parent x 1 = some 0 ∧
      (x.windows 0).children = [] := by
  have hinit : Reaches step (fun _ _ => True) Initial blank := .init blank_initial
  refine ⟨?_,?_,?_⟩
  · have h := hinit.exec (fun _ _ => trivial) (show exec step blank
      (newWindow 0 0 true++newWindow 1 1 true++
        [(1,.setConfig 0 {association := some 2} true true)]) = some _ from rfl)
    refine ⟨_,h,fun hassociated => ?_,rfl,rfl⟩
    exact hassociated.acyclic 0 (.head (show Below _ 0 1 from rfl) (.single (show Below _ 1 0 from rfl)))
  · have h := hinit.exec (fun _ _ => trivial) (show exec step blank
      (newWindow 0 0 true++newWindow 1 1 true++[(0,.remove 0 true)]) = some _ from rfl)
    refine ⟨_,h,fun hassociated => ?_,rfl,rfl⟩
    obtain ⟨-,-,hclear⟩ | ⟨p,-,hsome,-⟩ := hassociated.named 1 (by decide)
    · cases hclear
    · cases hsome
  · have h := hinit.exec (fun _ _ => trivial) (show exec step blank
      (newWindow 0 0 true++newWindow 1 1 false) = some _ from rfl)
    refine ⟨_,h,fun hassociated => ?_,rfl,rfl⟩
    have honce := hassociated.once 1 (by decide) 0
    cases honce

end Runs

end DirectFB.SaWMan.Association
