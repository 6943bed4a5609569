import DirectFB.SaWManStacking

/-! The calls of the window manager on the windows of a tier, and what they leave of the lists of
what is visible. -/
set_option linter.unusedSectionVars false
namespace DirectFB.SaWMan.Manager
open Association Visible Stacking
variable {ω : Type*} [DecidableEq ω]

/-- The parts of a configuration that `wm_set_window_config` is to change, and if there are
others. -/
structure Change where
  position : Option (ℤ × ℤ) := none
  size : Option (ℕ × ℕ) := none
  opacity : Option (Fin 256) := none
  stacking : Option StackingClass := none
  options : Option WindowOptions := none
  z : Option ℤ := none
  srcGeometry : Option Geometry := none
  dstGeometry : Option Geometry := none
  association : Option ℕ := none
  others : Bool := false

/-- `flags == (CWCF_POSITION | CWCF_SIZE)` -/
def Change.boundsOnly (change : Change) : Bool :=
  change.position.isSome && change.size.isSome && change.opacity.isNone &&
    change.stacking.isNone && change.options.isNone && change.z.isNone &&
    change.srcGeometry.isNone && change.dstGeometry.isNone && change.association.isNone &&
    !change.others

def Change.updatesGeometry (change : Change) : Bool :=
  change.position.isSome || change.size.isSome || change.srcGeometry.isSome ||
    change.dstGeometry.isSome || change.association.isSome

def Change.updatesVisible (change : Change) : Bool :=
  change.position.isSome || change.size.isSome || change.opacity.isSome ||
    change.options.isSome || change.z.isSome

/-- The configuration of DirectFB, and what may fail in a call: the application manager may refuse
it, there may be no memory for the layout, for a list of keys or for another child, and the
surface may not get another size. -/
structure Answers where
  translucentWindows : Bool := true
  accepted : Bool := true
  room : Bool := true
  resized : Bool := true
  keysStored : Bool := true
  childAdded : Bool := true

def setOptions (options : WindowOptions) (w : Window ω) : Window ω :=
  {w with config := {w.config with options := options}}

def setBoundsX (x y : ℤ) (w : Window ω) : Window ω :=
  {w with config := {w.config with bounds := {w.config.bounds with x := x, y := y}}}

/-- The surface is reformatted as well. -/
def setSize (width height : ℕ) (w : Window ω) : Window ω :=
  {w with
    surface := w.surface.map fun surface => {surface with
      width := width
      height := height
      width_nonneg := Int.natCast_nonneg _
      height_nonneg := Int.natCast_nonneg _}
    config := {w.config with bounds := {w.config.bounds with
      w := width
      h := height
      w_nonneg := Int.natCast_nonneg _
      h_nonneg := Int.natCast_nonneg _}}}

def setZ (z : ℤ) (w : Window ω) : Window ω := {w with config := {w.config with z := z}}

/-- `sawman_set_opacity` -/
def setOpacity (translucentWindows : Bool) (opacity : Fin 256) (w : Window ω) : Window ω :=
  {w with config := {w.config with
    opacity := if !translucentWindows && opacity ≠ 0 then 0xff else opacity}}

def setGeometries (src dst : Option Geometry) (w : Window ω) : Window ω :=
  {w with config := {w.config with
    srcGeometry := src.getD w.config.srcGeometry
    dstGeometry := dst.getD w.config.dstGeometry}}

variable (borders : Borders) (tier : Tier)

/-- `sawman_update_geometry` -/
def geometry (n : ℕ) (x : Stacking.State ω) (w : ω) : Except Stop (Stacking.State ω) :=
  (updateGeometry n x.windows w).map fun windows =>
    {x with toState := {x.toState with windows := windows}}

/-- The options in `wm_set_window_config`. The window is inserted at its parent before it has
them. -/
def configureOptions (x : Stacking.State ω) (w : ω) (options : Option WindowOptions)
    (room : Bool) : Except Stop (Stacking.State ω) :=
  match options with
  | some options =>
    if options.keepAbove || options.keepUnder then
      (insertWindow borders tier x w (x.windows w).parent options.keepAbove room).map
        fun r => r.1.modify w (setOptions options)
    else .ok (x.modify w (setOptions options))
  | none => .ok x

def configureOpacity (x : Stacking.State ω) (w : ω) (opacity : Option (Fin 256))
    (translucentWindows first : Bool) : Stacking.State ω :=
  match opacity with
  | some opacity =>
    if decide (opacity = 0) = first then x.modify w (setOpacity translucentWindows opacity) else x
  | none => x

/-- `resize_window` -/
def resizeWindow (x : Stacking.State ω) (w : ω) (width height : ℕ) (resized : Bool) :
    Stacking.State ω × Result :=
  if width > 4096 ∨ height > 4096 then (x,.limitExceeded)
  else if (x.windows w).surface.isSome && !resized then (x,.failed)
  else (x.modify w (setSize width height),.ok)

/-- `set_window_bounds`, or `move_window` and `resize_window`, of which only the latter fails. -/
def configureBounds (x : Stacking.State ω) (w : ω) (change : Change) (resized : Bool) :
    Stacking.State ω × Result :=
  let move := fun x : Stacking.State ω =>
    change.position.elim x fun position => x.modify w (setBoundsX position.1 position.2)
  let resize := fun x : Stacking.State ω =>
    change.size.elim (x,.ok) fun size => resizeWindow x w size.1 size.2 resized
  if change.boundsOnly then
    let r := resize x
    if r.2 = .ok then (move r.1,.ok) else r
  else resize (move x)

/-- `sawman_set_stereo_depth` -/
def setStereoDepth (x : Stacking.State ω) (w : ω) (z : ℤ) : Except Stop (Stacking.State ω) :=
  let old := (x.windows w).config.z
  if old = z then .ok x
  else
    let x := x.modify w (setZ z)
    let stacking := (x.windows w).config.stacking
    let index := indexOf x.layout w
    if !(x.windows w).inserted then .ok x
    else if z > old then
      match x.layout[(index+1).toNat]? with
      | some relative =>
        if (x.windows relative).config.z < z then
          (restackWindow borders tier x w (some relative) 1 stacking).map Prod.fst
        else .ok x
      | none => .ok x
    else if 0 ≤ index-1 then
      match x.layout[(index-1).toNat]? with
      | some relative =>
        if (x.windows relative).config.z > z then
          (restackWindow borders tier x w (some relative) (-1) stacking).map Prod.fst
        else .ok x
      | none => .ok x
    else .ok x

/-- The parts of `wm_set_window_config` that end it if they fail, or the error. -/
def configure (x : Stacking.State ω) (w : ω) (change : Change) (a : Answers) :
    Except Stop (Stacking.State ω × Result) := do
  let x ← configureOptions borders tier x w change.options a.room
  let r := configureBounds (configureOpacity x w change.opacity a.translucentWindows true) w change
    a.resized
  if r.2 ≠ .ok then .ok r
  else
    let x ← change.stacking.elim (.ok r.1) fun stacking =>
      (restackWindow borders tier r.1 w (some w) 0 stacking).map Prod.fst
    let x := configureOpacity x w change.opacity a.translucentWindows false
    let x ← change.z.elim (.ok x) (setStereoDepth borders tier x w)
    if !a.keysStored then .ok (x,.noSharedMemory)
    else
      let x := x.modify w (setGeometries change.srcGeometry change.dstGeometry)
      let r ← setAssociated x.toState w change.association a.childAdded
      .ok ({x with toState := r.1},r.2)

def configureGeometry (n : ℕ) (x : Stacking.State ω) (w : ω) (change : Change) :
    Except Stop (Stacking.State ω) :=
  if change.updatesGeometry then geometry n x w else .ok x

/-- `wm_set_window_config` -/
def setWindowConfig (n : ℕ) (x : Stacking.State ω) (w : ω) (change : Change) (a : Answers) :
    Except Stop (Stacking.State ω × Result) :=
  let result := (change.options.map (keeps x.toState w)).getD .ok
  if result ≠ .ok then .ok (x,result)
  else if !a.accepted then .ok (x,.refused)
  else do
    let r ← configure borders tier x w change a
    if r.2 ≠ .ok then .ok r
    else
      let x ← configureGeometry n r.1 w change
      .ok (if change.updatesVisible then x.updateVisible borders tier else x,.ok)

/-- `dfb_updates_init` on the lists of a window. -/
def initLists (w : ω) (lists : Visible.Lists ω) : Visible.Lists ω
  | .background => lists .background
  | .window eye v => if v = w then (lists (.window eye v)).reset else lists (.window eye v)

def insertAdded (x : Stacking.State ω) (w : ω) (answer : Added) :
    Except Stop (Stacking.State ω × Result) :=
  match answer with
  | .noImpl room => insertWindow borders tier x w none true room
  | _ => .ok (x,.ok)

def removeInserted (x : Stacking.State ω) (w : ω) : Except Stop (Stacking.State ω) :=
  if (x.windows w).inserted then Stacking.removeWindow borders x w
  else .ok (withdrawWindow borders x w)

/-- `wm_add_window` -/
def addWindow (n : ℕ) (x : Stacking.State ω) (w : ω) (answer : Added) (childAdded : Bool) :
    Except Stop (Stacking.State ω × Result) :=
  let result := keeps x.toState w (x.windows w).options
  if result ≠ .ok then
    .ok ({x with toState := {x.toState with creating := x.creating.erase w}},result)
  else
    let x := {x with toState := enlist x.toState w, lists := initLists w x.lists}
    if answer = .refused then
      .ok ({x with toState := {x.toState with managed := x.managed.erase w}},.refused)
    else do
      let r ← insertAdded borders tier x w answer
      match (x.windows w).parent, (x.windows w).parentWindow with
      | some parent, none =>
        if r.2 ≠ .ok then (geometry n r.1 w).map (·,.ok)
        else if childAdded then
          (geometry n ((r.1.modify w (setParentWindow (some parent))).modify parent
            (addChild w)) w).map (·,.ok)
        else .ok (r.1,.noSharedMemory)
      | _, _ => (geometry n r.1 w).map (·,.ok)

/-- `dfb_window_create`: the window is preconfigured, becomes a sub window or not, and is added. -/
def createWindow (n : ℕ) (x : Stacking.State ω) (w : ω) (association : ℕ)
    (config : Option WindowConfig) (top : Option (ω × Bool)) (answer : Added) (childAdded : Bool) :
    Except Stop (Stacking.State ω × Result) :=
  let r := preconfigure x.toState w association config
  if r.2 ≠ .ok then .ok ({x with toState := r.1},r.2)
  else
    let r := top.elim (r.1,.ok) fun top => initSubwindow r.1 w top.1 top.2
    if r.2 ≠ .ok then .ok ({x with toState := r.1},r.2)
    else addWindow borders tier n {x with toState := r.1} w answer childAdded

/-- `wm_remove_window` -/
def removeWindow (x : Stacking.State ω) (w : ω) (accepted : Bool) :
    Except Stop (Stacking.State ω × Result) :=
  let managed := x.managed.erase w
  if !accepted then
    .ok ({x with toState := {x.toState with managed := managed++[w]}},.refused)
  else do
    let orphaned := (x.windows w).children.foldl (fun y c => y.modify c (setParent none))
      {x with toState := {x.toState with managed := managed}}
    let x ← removeInserted borders orphaned w
    match (x.windows w).parent with
    | some parent =>
      let y ← removeChild x.toState parent w
      .ok ({x with toState := y.modify w (setParent none)},.ok)
    | none => .ok (x,.ok)

/-- `wm_restack_window` -/
def wmRestackWindow (x : Stacking.State ω) (w : ω) (relative : Option ω) (relation : ℤ)
    (accepted : Bool) : Except Stop (Stacking.State ω × Result) :=
  if !accepted then .ok (x,.refused)
  else (restackWindow borders tier x w relative relation (x.windows w).config.stacking).map
    fun r => if r.2 ≠ .ok then r else (r.1.updateVisible borders tier,.ok)

inductive Event (ω : Type*)
  | create (window : ω) (association : ℕ) (config : Option WindowConfig)
      (top : Option (ω × Bool)) (answer : Added) (childAdded : Bool)
  | remove (window : ω) (accepted : Bool)
  | setConfig (window : ω) (change : Change) (answers : Answers)
  | restack (window : ω) (relative : Option ω) (relation : ℤ) (accepted : Bool)

def Event.possible (x : Stacking.State ω) : Event ω → Bool
  | .create w _ _ _ _ _ => (x.windows w).id = 0 && w ∉ x.layout &&
      x.layout.all fun v => (x.windows v).toplevel ≠ some w
  | .remove w _ => w ∈ x.managed
  | .setConfig w _ _ => w ∈ x.managed
  | .restack w _ _ _ => w ∈ x.managed

def run (n : ℕ) (x : Stacking.State ω) : Event ω → Except Stop (Stacking.State ω × Result)
  | .create w association config top answer childAdded =>
    createWindow borders tier n x w association config top answer childAdded
  | .remove w accepted => removeWindow borders x w accepted
  | .setConfig w change answers => setWindowConfig borders tier n x w change answers
  | .restack w relative relation accepted =>
    wmRestackWindow borders tier x w relative relation accepted

def step (x : Stacking.State ω) (e : ℕ × Event ω) : Option (Stacking.State ω) :=
  if e.2.possible x then ((run borders tier e.1 x e.2).map Prod.fst).toOption else none

variable {borders tier} {x y : Stacking.State ω} {w : ω}

section Fields

def shows (w : Window ω) : WindowCaps × Fin 256 × WindowOptions × ℤ × StackingClass × Bool × Option ω :=
  (w.caps,w.config.opacity,w.config.options,w.config.z,w.config.stacking,w.destroyed,w.toplevel)

def looks (w : Window ω) : WindowCaps × Fin 256 × WindowOptions × GeometryMode × ℤ × Placement :=
  (w.caps,w.config.opacity,w.config.options,w.config.dstGeometry.mode,w.config.z,w.placement)

theorem visible_congr {s s' : Windows ω} (h : ∀ v, shows (s' v) = shows (s v)) (v : ω) :
    visible borders s' v = visible borders s v := by
  have hv := h v
  simp only [shows,Prod.mk.injEq] at hv
  obtain ⟨h1,h2,h3,-,h5,h6,h7⟩ := hv
  have htop : ∀ t, (s' t).opacity = (s t).opacity := fun t => by
    have ht := h t
    simp only [shows,Prod.mk.injEq] at ht
    exact ht.2.1
  have hborder : (s' v).border borders = (s v).border borders := by
    unfold Window.border
    rw [h1,h5]
  have hop : (s' v).opacity = (s v).opacity := htop v
  unfold visible Window.input Window.options
  have hall : (fun t => decide (0 < (s' t).opacity)) = fun t => decide (0 < (s t).opacity) :=
    funext fun t => by rw [htop t]
  rw [hborder,h1,h3,h6,h7,hop,hall]

theorem looks_translucent {a b : Window ω} (h : looks a = looks b) :
    a.placement = b.placement ∧ a.config.z = b.config.z ∧ a.translucent = b.translucent := by
  simp only [looks,Prod.mk.injEq] at h
  obtain ⟨h1,h2,h3,h4,h5,h6⟩ := h
  refine ⟨h6,h5,?_⟩
  unfold Window.translucent Window.options Window.opacity
  rw [h1,h2,h3,h4]

theorem modify_keeps {β : Type*} {f : Window ω → β} {g : Window ω → Window ω}
    (h : ∀ w, f (g w) = f w) (a : Association.State ω) (w v : ω) :
    f ((a.modify w g).windows v) = f (a.windows v) := by
  rw [Association.modify_windows]
  split_ifs
  · exact h _
  · rfl

end Fields

section Config

variable {change : Change} {a : Answers}

def Change.plain (change : Change) : Prop :=
  change.options = none ∧ change.opacity = none ∧ change.z = none

def Change.inPlace (change : Change) (x : Stacking.State ω) (w : ω) : Prop :=
  ∀ stacking, change.stacking = some stacking → (x.windows w).toplevel ≠ none ∨
    Reinserts (x.setClass w stacking) w ∨ InPlace (x.setClass w stacking) w

def placed (w : Window ω) : ℤ × StackingClass × List ω × List ω × Bool × Option ω :=
  (w.priority,w.config.stacking,w.subwindows,w.children,kept w,w.toplevel)

def Settles (borders : Borders) (tier : Tier) (x y : Stacking.State ω) : Prop :=
  ∃ m, Keeps looks x m ∧ Keeps shows m y ∧ y.layout = m.layout ∧ y.lists = m.lists ∧
    (m.layout = x.layout ∧ m.lists = x.lists ∨ (Good x.lists → Fresh borders tier m))

def Unused (x : Stacking.State ω) : Prop :=
  x.layout = [] ∧ ∀ slot, (x.lists slot).num = 0

theorem Unused.congr (h : Unused x) (hl : y.layout = x.layout) (hv : y.lists = x.lists) :
    Unused y := by
  unfold Unused
  rw [hl,hv]
  exact h

theorem Settles.fresh (h : Settles borders tier x y) (hg : Good x.lists)
    (hx : Fresh borders tier x ∨ Unused x)
    (ha : ∀ v ∈ y.layout, Alike borders x.windows y.windows v) :
    Fresh borders tier y ∨ Unused y := by
  obtain ⟨m,hlooks,hshows,hlayout,hlists,hm⟩ := h
  rcases hm with ⟨hlayout',hlists'⟩ | hm
  · refine hx.imp (fun hx => ?_) fun hx => hx.congr (hlayout.trans hlayout') (hlists.trans hlists')
    unfold Fresh
    rw [hlists,hlists',hlayout,hlayout']
    exact Complete.of_alike hx fun v hv => ha v (by rwa [hlayout,hlayout'])
  · left
    unfold Fresh
    rw [hlists,hlayout]
    refine Complete.of_alike (hm hg) fun v hv => ?_
    obtain ⟨-,hsame⟩ := ha v (by rwa [hlayout])
    refine ⟨(visible_congr hshows v).symm,fun hvis => ?_⟩
    obtain ⟨h1,h2,h3⟩ := hsame hvis
    obtain ⟨h1',h2',h3'⟩ := looks_translucent (hlooks v)
    exact ⟨h1.trans h1'.symm,h2.trans h2'.symm,h3.trans h3'.symm⟩

end Config

section Remove

def single (w : Window ω) : Window ω :=
  {w with
    parent := none
    parentWindow := none
    children := []
    config := {w.config with association := 0}}

def HidesNothing (borders : Borders) (x : Stacking.State ω) (w : ω) : Prop :=
  ∀ v ∈ x.layout, v = w ∨ visible borders x.windows w = true ∧ (x.windows v).toplevel = some w →
    visible borders x.windows v = true → (x.windows v).translucent = true

end Remove

section Create

def seen (w : Window ω) : WindowCaps × WindowConfig × Bool × Option ω :=
  (w.caps,w.config,w.destroyed,w.toplevel)

structure Apart (w : ω) (x y : Stacking.State ω) : Prop where
  seen : ∀ v, v ≠ w → seen (y.windows v) = seen (x.windows v)
  placement : Keeps Window.placement x y

theorem Apart.visible (h : Apart w x y) {v : ω} (hv : v ≠ w)
    (ht : (x.windows v).toplevel ≠ some w) :
    visible borders y.windows v = visible borders x.windows v := by
  have hs := h.seen v hv
  simp only [Manager.seen,Prod.mk.injEq] at hs
  obtain ⟨h1,h2,h3,h4⟩ := hs
  have hborder : (y.windows v).border borders = (x.windows v).border borders := by
    unfold Window.border
    rw [h1,h2]
  have hop : (y.windows v).opacity = (x.windows v).opacity := congrArg WindowConfig.opacity h2
  unfold SaWMan.visible Window.input Window.options
  rw [hborder,h1,h2,h3,h4,hop]
  cases htop : (x.windows v).toplevel with
  | none => rfl
  | some t =>
    have htw : t ≠ w := fun h => ht (htop.trans (congrArg some h))
    have hst := h.seen t htw
    simp only [Manager.seen,Prod.mk.injEq] at hst
    have hopt : (y.windows t).opacity = (x.windows t).opacity :=
      congrArg WindowConfig.opacity hst.2.1
    rw [Option.all_some,Option.all_some,hopt]

theorem Apart.trans {z : Stacking.State ω} (h : Apart w x y) (h' : Apart w y z) : Apart w x z :=
  ⟨fun v hv => (h'.seen v hv).trans (h.seen v hv),h.placement.trans h'.placement⟩

end Create

def Initial (x : Stacking.State ω) : Prop :=
  Association.Initial x.toState ∧ x.layout = [] ∧ (∀ w, (x.windows w).inserted = false) ∧
    ∀ slot, (x.lists slot).num = 0 ∧ 0 < (x.lists slot).max

/-- What a call must not do, since the lists are not computed at its end: move a visible window
once it is inserted, remove one that hides others, or change the configuration of a window
otherwise than in its options, opacity, depth and bounds, so that other windows are seen. -/
def Kept (borders : Borders) (tier : Tier) (x : Stacking.State ω) : ℕ × Event ω → Prop
  | (n,.create w association config top answer childAdded) => ∀ y r,
      createWindow borders tier n x w association config top answer childAdded = .ok (y,r) →
      ∀ v ∈ y.layout, visible borders y.windows v = true →
        (y.windows v).placement = (x.windows v).placement
  | (_,.remove w accepted) => accepted = true → (x.windows w).inserted = true →
      HidesNothing borders x w
  | (n,.setConfig w change a) => ∀ y r, setWindowConfig borders tier n x w change a = .ok (y,r) →
      change.updatesVisible = true ∧ r = .ok ∨
      ((change.options.map (keeps x.toState w)).getD .ok ≠ .ok ∨ a.accepted = false) ∨
      change.plain ∧ change.inPlace x w ∧ ∀ v ∈ y.layout, Alike borders x.windows y.windows v
  | (_,.restack ..) => True

def middleTier : Tier := ⟨fun c => c == .middle,10,10,ten_nonneg,ten_nonneg⟩

def newWindow : Window Bool where
  config := {bounds := ⟨0,0,10,10,ten_nonneg,ten_nonneg⟩}
  surface := some ⟨10,10,ten_nonneg,ten_nonneg,false⟩
  placement := ⟨⟨0,0,0,0,zero_nonneg,zero_nonneg⟩,⟨0,0,0,0,zero_nonneg,zero_nonneg⟩,
    ⟨0,0,0,0,zero_nonneg,zero_nonneg⟩,by decide⟩

def noWindows : Stacking.State Bool where
  windows := fun _ => newWindow
  managed := []
  windowIds := 0
  creating := []
  layout := []
  lists := fun _ => ⟨fun _ => ⟨0,0,0,0⟩,10,0,⟨0,0,0,0⟩⟩

def createEvent : ℕ × Event Bool :=
  (2,.create false 0 (some newWindow.config) none (.noImpl true) true)

def showEvent (w : Bool) : ℕ × Event Bool := (2,.setConfig w {opacity := some 0xff} {})

def created : Stacking.State Bool :=
  (step noBorders middleTier noWindows createEvent).getD noWindows

def shown : Stacking.State Bool :=
  (step noBorders middleTier created (showEvent false)).getD noWindows

end DirectFB.SaWMan.Manager
