import DirectFB.Alternation
import DirectFB.WindowConfig

/-! The input side of the window manager: which window has the focus, is under the pointer
or grabs the pointer, the keyboard and single keys, and what events are posted to it. -/
namespace DirectFB.WindowStack
open Alternation

structure InputOptions where
  ghost : Bool := false
  shaped : Bool := false
  indestructible : Bool := false
  keepPosition : Bool := false
  keepSize : Bool := false
  keepStacking : Bool := false
  deriving DecidableEq

inductive StackingClass
  | upper | middle | lower
  deriving DecidableEq

/-- `get_priority` -/
def StackingClass.priority : StackingClass → ℤ
  | .upper => 1
  | .middle => 0
  | .lower => -1

inductive KeySelection
  | all | none
  | list (keys : List ℕ)

/-- A window, with what the input depends on. Of its surface it is known where a pixel is
not transparent. -/
structure InputWindow extends Window where
  input : InputOptions := {}
  noFocus : Bool := false
  stacking : StackingClass := .middle
  keySelection : KeySelection := .all
  surface : Option (ℤ → ℤ → Bool) := none

/-- The `symbol`, `id` and hardware `code` of a key. -/
structure KeyData where
  symbol : ℕ
  id : ℕ
  code : ℤ
  deriving DecidableEq

/-- `GrabbedKey` -/
structure GrabbedKey (ω : Type*) where
  symbol : ℕ
  modifiers : ℕ
  owner : ω

/-- An entry of `keys`, free if its code is -1. -/
structure KeyEntry (ω : Type*) extends KeyData where
  owner : Option ω

/-- `DFBWindowEvent`, with the position of the pointer in the window. -/
inductive WindowEvent
  | keyDown (key : KeyData)
  | keyUp (key : KeyData)
  | gotFocus
  | lostFocus
  | enter (p : ℤ × ℤ)
  | leave (p : ℤ × ℤ)
  | motion (p : ℤ × ℤ)
  | position (x y : ℤ)
  | size (w h : ℤ)
  | positionSize (bounds : Rectangle)
  | close

/-- `MAX_KEYS` -/
abbrev maxKeys : ℕ := 16

/-- The `StackData` of the default window manager, with the cursor of the stack. The windows
are listed from bottom to top. It is kept in mind what events were posted. -/
structure State (ω : Type*) where
  window : ω → InputWindow
  windows : List ω
  width : ℤ
  height : ℤ
  cursor : ℤ × ℤ
  cursorEnabled : Bool
  cursorSet : Bool
  translucentWindows : Bool
  modifiers : ℕ
  wmLevel : BitVec 3
  wmCycle : ℤ
  pointerWindow : Option ω
  keyboardWindow : Option ω
  focusedWindow : Option ω
  enteredWindow : Option ω
  unselkeysWindow : Option ω
  grabbedKeys : List (GrabbedKey ω)
  keys : Fin maxKeys → KeyEntry ω
  posted : List (ω × WindowEvent)

variable {ω : Type*} [DecidableEq ω]

/-- `post_event` -/
def post (x : State ω) (w : ω) (e : WindowEvent) : State ω :=
  {x with posted := x.posted++entryFor (some w) fun _ => e}

def InputWindow.shown (w : InputWindow) : Bool := decide (w.opacity ≠ 0) && !w.input.ghost

/-- `transform_point_in_window`, of the cursor. -/
def pointIn (x : State ω) (w : ω) : ℤ × ℤ :=
  let b := (x.window w).bounds
  let px := x.cursor.1-b.x
  let py := x.cursor.2-b.y
  match (x.window w).rotation with
  | .r0 => (px,py)
  | .r90 => (b.w-py-1,px)
  | .r180 => (b.w-px-1,b.h-py-1)
  | .r270 => (py,b.h-px-1)

/-- The test of `window_at_pointer`. -/
def InputWindow.isAt (w : InputWindow) (x y : ℤ) : Bool :=
  let b := w.transformWindowToStack
  let wx := x-b.x
  let wy := y-b.y
  w.shown && decide (b.x ≤ x) && decide (x < b.x+b.w) && decide (b.y ≤ y) && decide (y < b.y+b.h) &&
  match w.surface with
  | none => true
  | some opaquePixel =>
    !w.input.shaped || !(w.options.alphaChannel || w.options.colorKeying) ||
    (w.options.opaqueRegion && decide (w.opaqueRegion.Contains (wx,wy))) || opaquePixel wx wy

/-- `window_at_pointer` -/
def windowAtPointer (x : State ω) : Option ω :=
  if !x.cursorEnabled then x.windows.reverse.find? fun w => (x.window w).shown
  else x.windows.reverse.find? fun w => (x.window w).isAt x.cursor.1 x.cursor.2

def postTo (x : State ω) (w : Option ω) (e : ω → WindowEvent) : State ω :=
  match w with
  | some w => post x w (e w)
  | none => x

/-- `switch_focus` -/
def switchFocus (x : State ω) (next : Option ω) : State ω :=
  if x.focusedWindow = next then x
  else if next.any fun w => (x.window w).noFocus then x
  else
    let y := postTo (postTo x x.focusedWindow fun _ => .lostFocus) next fun _ => .gotFocus
    {y with focusedWindow := next}

/-- `update_focus`, and whether another window is under the cursor. -/
def updateFocus (x : State ω) : State ω × Bool :=
  if x.pointerWindow.isSome then (x,false)
  else
    let after := windowAtPointer x
    if x.enteredWindow = after then (x,false)
    else
      let y := switchFocus (postTo x x.enteredWindow fun w => .leave (pointIn x w)) after
      let z := postTo y after fun w => .enter (pointIn x w)
      ({z with enteredWindow := after},true)

/-- `ensure_focus` -/
def ensureFocus (x : State ω) : State ω :=
  if x.focusedWindow.isSome then x
  else
    match x.windows.reverse.find? fun w => (x.window w).shown with
    | some w => switchFocus x (some w)
    | none => x

/-- An entry of `keys` that is in use by a window. -/
def usedBy (x : State ω) (w : ω) (i : Fin maxKeys) : Bool :=
  (x.keys i).code ≠ -1 && (x.keys i).owner = some w

def releaseKey (w : ω) (x : State ω) (i : Fin maxKeys) : State ω :=
  if usedBy x w i then
    let y := if (x.window w).destroyed then x else post x w (.keyUp (x.keys i).toKeyData)
    {y with keys := Function.update y.keys i {y.keys i with code := -1, owner := none}}
  else x

/-- The windows that `withdraw_window` forgets. -/
def clearWindow (x : State ω) (w : ω) : State ω :=
  {x with
    enteredWindow := if x.enteredWindow = some w then none else x.enteredWindow
    focusedWindow := if x.focusedWindow = some w then none else x.focusedWindow
    keyboardWindow := if x.keyboardWindow = some w then none else x.keyboardWindow
    pointerWindow := if x.pointerWindow = some w then none else x.pointerWindow}

/-- `withdraw_window` -/
def withdrawWindow (x : State ω) (w : ω) : State ω :=
  let y := (List.finRange maxKeys).foldl (releaseKey w) (clearWindow x w)
  {y with unselkeysWindow := if y.unselkeysWindow = some w then none else y.unselkeysWindow}

/-- `remove_window` -/
def removeWindow (x : State ω) (w : ω) : State ω :=
  let y := withdrawWindow x w
  {y with
    grabbedKeys := y.grabbedKeys.filter fun g => g.owner ≠ w
    windows := y.windows.erase w}

def setWindow (x : State ω) (w : ω) (data : InputWindow) : State ω :=
  {x with window := Function.update x.window w data}

/-- `insert_window`, below the windows of a higher priority. -/
def insertWindow (x : State ω) (w : ω) : State ω :=
  let priority := (x.window w).stacking.priority
  let index := x.windows.findIdx fun v => decide (priority < (x.window v).stacking.priority)
  {x with windows := x.windows.insertIdx index w}

/-- `wm_add_window` -/
def addWindow (x : State ω) (w : ω) (data : InputWindow) : State ω :=
  (updateFocus (insertWindow (setWindow x w data) w)).1

/-- `move_window` -/
def moveWindow (x : State ω) (w : ω) (dx dy : ℤ) : State ω :=
  let moved := WindowConfig.moveWindow (x.window w).toWindow dx dy
  post (setWindow x w {x.window w with toWindow := moved}) w (.position moved.bounds.x moved.bounds.y)

/-- `resize_window` -/
def resizeWindow (x : State ω) (w : ω) (s : WindowConfig.Size) : State ω :=
  let r := WindowConfig.resizeWindow (x.window w).toWindow s
  if r.2 then
    (updateFocus (post (setWindow x w {x.window w with toWindow := r.1}) w (.size s.w s.h))).1
  else x

/-- `set_window_bounds` -/
def setWindowBounds (x : State ω) (w : ω) (px py : ℤ) (s : WindowConfig.Size) : State ω :=
  let r := WindowConfig.setWindowBounds (x.window w).toWindow px py s
  if r.2 then
    (updateFocus (post (setWindow x w {x.window w with toWindow := r.1}) w
      (.positionSize r.1.bounds))).1
  else x

/-- `set_opacity` -/
def setOpacity (x : State ω) (w : ω) (opacity : Fin 256) : State ω :=
  let old := (x.window w).opacity
  let new := WindowConfig.setOpacity x.translucentWindows (x.window w).toWindow opacity
  if old = new.opacity then x
  else
    let y := setWindow x w {x.window w with toWindow := new}
    let y := if old = 0 ∨ new.opacity = 0 then (updateFocus y).1 else y
    if new.opacity = 0 then ensureFocus (withdrawWindow y w) else y

/-- `dfb_window_destroy` -/
def destroyWindow (x : State ω) (w : ω) : State ω :=
  let y := removeWindow (setOpacity x w 0) w
  setWindow y w {y.window w with destroyed := true}

def priorityAt (x : State ω) (i : ℕ) : ℤ :=
  match x.windows[i]? with
  | some w => (x.window w).stacking.priority
  | none => 0

/-- The loop of `restack_window` that keeps a window below those of a higher priority. -/
def sink (x : State ω) (priority : ℤ) (old : ℕ) : ℕ → ℕ
  | 0 => 0
  | i+1 =>
    if priority < priorityAt x (if old < i+1 then i+1 else i) then sink x priority old i else i+1

/-- The loop of `restack_window` that keeps a window above those of a lower priority. -/
def rise (x : State ω) (priority : ℤ) (old : ℕ) : ℕ → ℕ → ℕ
  | 0, i => i
  | n+1, i =>
    if priorityAt x (if old > i then i else i+1) < priority then rise x priority old n (i+1) else i

/-- The index that `restack_window` wants for a window. -/
def desiredIndex (x : State ω) (old : ℕ) (relative : Option ω) (relation : ℤ) : ℕ :=
  let last : ℤ := x.windows.length-1
  match relative with
  | some v =>
    let index : ℤ := x.windows.idxOf v
    let index := if 0 < relation ∧ old < index then index-1
      else if relation < 0 ∧ index < old then index+1 else index
    (max 0 (min last (index+relation))).toNat
  | none => if relation ≠ 0 then last.toNat else 0

/-- `restack_window` -/
def restackWindow (x : State ω) (w : ω) (relative : Option ω) (relation : ℤ)
    (stacking : StackingClass) : State ω :=
  let x := setWindow x w {x.window w with stacking := stacking}
  let old := x.windows.idxOf w
  let lower := sink x stacking.priority old (desiredIndex x old relative relation)
  let index := rise x stacking.priority old (x.windows.length-1-lower) lower
  if index = old then x else {x with windows := (x.windows.eraseIdx old).insertIdx index w}

/-- `grab_keyboard` -/
def grabKeyboard (x : State ω) (w : ω) : State ω :=
  if x.keyboardWindow.isSome then x else {x with keyboardWindow := some w}

/-- `ungrab_keyboard` -/
def ungrabKeyboard (x : State ω) (w : ω) : State ω :=
  if x.keyboardWindow = some w then {x with keyboardWindow := none} else x

/-- `grab_pointer` -/
def grabPointer (x : State ω) (w : ω) : State ω :=
  if x.pointerWindow.isSome then x else {x with pointerWindow := some w}

/-- `ungrab_pointer` -/
def ungrabPointer (x : State ω) (w : ω) : State ω :=
  if x.pointerWindow = some w then (updateFocus {x with pointerWindow := none}).1 else x

/-- `CWMGT_UNSELECTED_KEYS` of `wm_grab`. -/
def grabUnselectedKeys (x : State ω) (w : ω) : State ω :=
  if x.unselkeysWindow.isSome then x else {x with unselkeysWindow := some w}

def ungrabUnselectedKeys (x : State ω) (w : ω) : State ω :=
  if x.unselkeysWindow = some w then {x with unselkeysWindow := none} else x

def GrabbedKey.is (g : GrabbedKey ω) (symbol modifiers : ℕ) : Bool :=
  g.symbol = symbol && g.modifiers = modifiers

/-- `grab_key`. The key is no longer grabbed implicitly. -/
def grabKey (x : State ω) (w : ω) (symbol modifiers : ℕ) : State ω :=
  if x.grabbedKeys.any (·.is symbol modifiers) then x
  else {x with
    grabbedKeys := x.grabbedKeys++[⟨symbol,modifiers,w⟩]
    keys := fun i =>
      if (x.keys i).code ≠ -1 ∧ (x.keys i).symbol = symbol then {x.keys i with code := -1}
      else x.keys i}

/-- `ungrab_key` -/
def ungrabKey (x : State ω) (w : ω) (symbol modifiers : ℕ) : State ω :=
  {x with grabbedKeys := x.grabbedKeys.eraseP fun g => g.is symbol modifiers && g.owner = w}

/-- `request_focus` -/
def requestFocus (x : State ω) (w : ω) : State ω :=
  let y := switchFocus x (some w)
  match y.enteredWindow with
  | some v =>
    if v = w then y else {post y v (.leave (pointIn y v)) with enteredWindow := none}
  | none => y

def explicitGrab (x : State ω) (symbol : ℕ) : Option ω :=
  (x.grabbedKeys.find? (·.is symbol x.modifiers)).map GrabbedKey.owner

/-- The entry of `keys` for a code. -/
def entryOf (x : State ω) (code : ℤ) : Option (Fin maxKeys) :=
  (List.finRange maxKeys).find? fun i => (x.keys i).code = code

def KeySelection.selects (s : KeySelection) (symbol : ℕ) : Bool :=
  match s with
  | .all => true
  | .none => false
  | .list keys => keys.contains symbol

def keyTarget (x : State ω) : Option ω := x.keyboardWindow.or x.focusedWindow

/-- `get_keyboard_window` for a `DIET_KEYPRESS`. -/
def pressWindow (x : State ω) (k : KeyData) : State ω × Option ω :=
  match explicitGrab x k.symbol with
  | some w => (x,some w)
  | none =>
    if k.code = -1 then (x,keyTarget x)
    else
      match entryOf x k.code with
      | some i => (x,(x.keys i).owner)
      | none =>
        match keyTarget x with
        | none => (x,none)
        | some w =>
          if !(x.window w).keySelection.selects k.symbol then (x,x.unselkeysWindow)
          else
            match entryOf x (-1) with
            | none => (x,none)
            | some i => ({x with keys := Function.update x.keys i ⟨k,some w⟩},some w)

/-- `get_keyboard_window` for a `DIET_KEYRELEASE`. -/
def releaseWindow (x : State ω) (k : KeyData) : State ω × Option ω :=
  match explicitGrab x k.symbol with
  | some w => (x,some w)
  | none =>
    if k.code = -1 then (x,keyTarget x)
    else
      match entryOf x k.code with
      | some i =>
        ({x with keys := Function.update x.keys i {x.keys i with code := -1}},(x.keys i).owner)
      | none => (x,none)

/-- `VISIBLE_WINDOW`, and not to be left where it is. -/
def InputWindow.canRaise (w : InputWindow) : Bool :=
  w.visible && !w.input.ghost && !w.input.keepStacking

def raise (x : State ω) (w : ω) : State ω :=
  requestFocus (restackWindow x w none 1 (x.window w).stacking) w

/-- The loop of `DIKS_SMALL_X`: the first window below an index that can be raised. -/
def cycleBelow (x : State ω) : ℕ → Option ℕ
  | 0 => none
  | i+1 =>
    match x.windows[i]? with
    | some w =>
      if (x.window w).canRaise && x.focusedWindow ≠ some w then some i else cycleBelow x i
    | none => cycleBelow x i

/-- The loop of `DIKS_SMALL_X`, which begins again once at the top. -/
def cycleFrom (x : State ω) : State ω :=
  match (cycleBelow x (min (x.windows.length : ℤ) x.wmCycle).toNat).or
    (cycleBelow x (x.windows.length-1)) with
  | some i =>
    match x.windows[i]? with
    | some w => {raise x w with wmCycle := i}
    | none => x
  | none => {x with wmCycle := -1}

/-- `DIKS_SMALL_X` -/
def cycleWindows (x : State ω) : State ω :=
  let y := {x with wmCycle := if x.wmCycle ≤ 0 then x.windows.length else x.wmCycle}
  if x.windows.length = 0 then y else cycleFrom y

/-- `dfb_window_set_rotation`, by 90 degrees more. -/
def InputWindow.rotated (w : InputWindow) : InputWindow :=
  let rotation : Rotation := match w.rotation with
    | .r0 => .r90
    | .r90 => .r180
    | .r180 => .r270
    | .r270 => .r0
  {w with rotation := rotation}

/-- `DIKS_META`, `DIKS_CONTROL` and `DIKS_ALT`, by the bits of `wm_level` they stand for. -/
def wmModifier (symbol : ℕ) : Option (BitVec 3) :=
  if symbol = 0xf210 then some 1
  else if symbol = 0xf202 then some 2
  else if symbol = 0xf204 then some 4
  else none

/-- `DFB_LOWER_CASE` -/
def lowerCase (symbol : ℕ) : ℕ := if 0x41 ≤ symbol ∧ symbol ≤ 0x5a then symbol ||| 0x20 else symbol

/-- The keys of the window manager. -/
inductive WmKey
  | x | s | c | e | a | w | d | p | r | print | f12
  deriving DecidableEq

/-- The cases of `handle_wm_key`. -/
def wmKey (symbol : ℕ) : Option WmKey :=
  match lowerCase symbol with
  | 0x78 => some .x
  | 0x73 => some .s
  | 0x63 => some .c
  | 0x65 => some .e
  | 0x61 => some .a
  | 0x77 => some .w
  | 0x64 => some .d
  | 0x70 => some .p
  | 0x72 => some .r
  | 0xf009 => some .print
  | 0xf10c => some .f12
  | _ => none

/-- `is_wm_key`, which leaves out `DIKS_F12`. -/
def isWmKey (symbol : ℕ) : Bool :=
  match wmKey symbol with
  | some .f12 => false
  | some _ => true
  | none => false

def focusedToStack (x : State ω) : Option ω :=
  x.focusedWindow.filter fun w => !(x.window w).input.keepStacking

/-- `handle_wm_key`. What is dumped or repainted is left out. -/
def handleWmKey (x : State ω) : WmKey → State ω
  | .x => cycleWindows x
  | .s =>
    match x.windows.find? fun w => (x.window w).canRaise && (x.window w).stacking = .middle with
    | some w => raise x w
    | none => x
  | .c => postTo x x.enteredWindow fun _ => .close
  | .e => (updateFocus x).1
  | .a =>
    match focusedToStack x with
    | some w => (updateFocus (restackWindow x w none 0 (x.window w).stacking)).1
    | none => x
  | .w =>
    match focusedToStack x with
    | some w => restackWindow x w none 1 (x.window w).stacking
    | none => x
  | .d =>
    match x.enteredWindow with
    | some w => if (x.window w).input.indestructible then x else destroyWindow x w
    | none => x
  | .p => {x with cursorEnabled := x.cursorEnabled || x.cursorSet, pointerWindow := none}
  | .r =>
    match x.focusedWindow with
    | some w =>
      if (x.window w).input.keepPosition then x else setWindow x w (x.window w).rotated
    | none => x
  | .print => x
  | .f12 => x

/-- The bits of `wm_level` after a press. -/
def pressLevel (x : State ω) (symbol : ℕ) : State ω :=
  if x.wmLevel ≠ 0 then
    match wmModifier symbol with
    | some bit => {x with wmLevel := x.wmLevel ||| bit}
    | none => x
  else if wmModifier symbol = some 1 then {x with wmLevel := 1, wmCycle := 0}
  else x

def takenKey (x : State ω) (symbol : ℕ) : Option WmKey :=
  if x.wmLevel ≠ 0 ∧ wmModifier symbol = none then wmKey symbol else none

/-- `handle_key_press` -/
def handleKeyPress (x : State ω) (k : KeyData) : State ω :=
  match takenKey x k.symbol with
  | some key => handleWmKey x key
  | none =>
    let r := pressWindow (pressLevel x k.symbol) k
    postTo r.1 r.2 fun _ => .keyDown k

/-- The bits of `wm_level` after a release. -/
def releaseLevel (x : State ω) (symbol : ℕ) : State ω :=
  match wmModifier symbol with
  | some bit => {x with wmLevel := x.wmLevel &&& ~~~bit}
  | none => x

/-- A release that `handle_key_release` keeps for the window manager. -/
def keptRelease (x : State ω) (symbol : ℕ) : Bool :=
  decide (x.wmLevel ≠ 0) && (wmModifier symbol).isNone && isWmKey symbol

/-- `handle_key_release` -/
def handleKeyRelease (x : State ω) (k : KeyData) : State ω :=
  if keptRelease x k.symbol then x
  else
    let r := releaseWindow (releaseLevel x k.symbol) k
    postTo r.1 r.2 fun _ => .keyUp k

def clamp (low high v : ℤ) : ℤ := max low (min high v)

def motionSize (w h : ℤ) : WindowConfig.Size :=
  ⟨clamp 48 2048 w,clamp 48 2048 h,by unfold clamp; omega,by unfold clamp; omega⟩

/-- `dfb_window_resize`, which leaves a window of the size alone. -/
def windowResize (x : State ω) (w : ω) (s : WindowConfig.Size) : State ω :=
  if (x.window w).bounds.w = s.w ∧ (x.window w).bounds.h = s.h then x else resizeWindow x w s

/-- The motion that a window is told of, `case 0` of `perform_motion`. -/
def tellMotion (x : State ω) : State ω :=
  match x.pointerWindow with
  | some w => post x w (.motion (pointIn x w))
  | none =>
    let r := updateFocus x
    if r.2 then r.1 else postTo r.1 r.1.enteredWindow fun w => .motion (pointIn r.1 w)

/-- The other cases of `perform_motion`, for the entered window. -/
def dragWindow (x : State ω) (w : ω) (dx dy : ℤ) : State ω :=
  let config := x.window w
  if 4 ≤ x.wmLevel then
    setOpacity x w (Fin.ofNat 256 (clamp 8 255 (config.opacity.val+dx)).toNat)
  else if 2 ≤ x.wmLevel then
    if config.input.keepSize then x
    else windowResize x w (motionSize (config.bounds.w+dx) (config.bounds.h+dy))
  else if config.input.keepPosition then x else moveWindow x w dx dy

/-- `perform_motion` -/
def performMotion (x : State ω) (dx dy : ℤ) : State ω :=
  if !x.cursorEnabled then x
  else
    let cursor := (clamp 0 (x.width-1) (x.cursor.1+dx),clamp 0 (x.height-1) (x.cursor.2+dy))
    let y := {x with cursor := cursor}
    if cursor = x.cursor then y
    else if y.wmLevel = 0 then tellMotion y
    else
      match y.enteredWindow with
      | some w => dragWindow y w (cursor.1-x.cursor.1) (cursor.2-x.cursor.2)
      | none => y

/-- What `wm_set_window_config` sets without a look at the focus. -/
structure Look where
  options : WindowOptions
  input : InputOptions
  opaqueRegion : OpaqueRegion
  rotation : Rotation
  keySelection : KeySelection
  surface : Option (ℤ → ℤ → Bool)

def setLook (x : State ω) (w : ω) (look : Look) : State ω :=
  setWindow x w {x.window w with
    options := look.options
    input := look.input
    opaqueRegion := look.opaqueRegion
    rotation := look.rotation
    keySelection := look.keySelection
    surface := look.surface}

inductive Event (ω : Type*)
  | add (w : ω) (data : InputWindow)
  | destroy (w : ω)
  | opacity (w : ω) (opacity : Fin 256)
  | move (w : ω) (dx dy : ℤ)
  | resize (w : ω) (size : WindowConfig.Size)
  | bounds (w : ω) (x y : ℤ) (size : WindowConfig.Size)
  | look (w : ω) (look : Look)
  | stacking (w : ω) (stacking : StackingClass)
  | restack (w : ω) (relative : Option ω) (relation : ℤ)
  | cursor (enabled : Bool)
  | motion (dx dy : ℤ)
  | grabKeyboard (w : ω)
  | ungrabKeyboard (w : ω)
  | grabPointer (w : ω)
  | ungrabPointer (w : ω)
  | grabUnselectedKeys (w : ω)
  | ungrabUnselectedKeys (w : ω)
  | grabKey (w : ω) (symbol modifiers : ℕ)
  | ungrabKey (w : ω) (symbol modifiers : ℕ)
  | requestFocus (w : ω)
  | modifiers (modifiers : ℕ)
  | press (key : KeyData)
  | release (key : KeyData)

def managed (x : State ω) (w : ω) (y : State ω) : Option (State ω) :=
  if w ∈ x.windows then some y else none

def step (x : State ω) : Event ω → Option (State ω)
  | .add w data =>
    if w ∉ x.windows ∧ (x.window w).destroyed = false ∧ data.destroyed = false then
      some (addWindow x w data)
    else none
  | .destroy w => managed x w (destroyWindow x w)
  | .opacity w opacity => managed x w (setOpacity x w opacity)
  | .move w dx dy => managed x w (moveWindow x w dx dy)
  | .resize w s => managed x w (resizeWindow x w s)
  | .bounds w px py s => managed x w (setWindowBounds x w px py s)
  | .look w look => managed x w (setLook x w look)
  | .stacking w stacking => managed x w (restackWindow x w (some w) 0 stacking)
  | .restack w relative relation =>
    managed x w (updateFocus (restackWindow x w relative relation (x.window w).stacking)).1
  | .cursor enabled => some {x with cursorEnabled := enabled, cursorSet := true}
  | .motion dx dy => some (performMotion x dx dy)
  | .grabKeyboard w => managed x w (grabKeyboard x w)
  | .ungrabKeyboard w => managed x w (ungrabKeyboard x w)
  | .grabPointer w => managed x w (grabPointer x w)
  | .ungrabPointer w => managed x w (ungrabPointer x w)
  | .grabUnselectedKeys w => managed x w (grabUnselectedKeys x w)
  | .ungrabUnselectedKeys w => managed x w (ungrabUnselectedKeys x w)
  | .grabKey w symbol modifiers => managed x w (grabKey x w symbol modifiers)
  | .ungrabKey w symbol modifiers => managed x w (ungrabKey x w symbol modifiers)
  | .requestFocus w => managed x w (requestFocus x w)
  | .modifiers modifiers => some {x with modifiers := modifiers}
  | .press k => some (handleKeyPress x k)
  | .release k => some (handleKeyRelease x k)

/-- `wm_init_stack` -/
def init (x : State ω) : Prop :=
  x.windows = [] ∧ x.posted = [] ∧ x.grabbedKeys = [] ∧
  (x.pointerWindow = none ∧ x.keyboardWindow = none ∧ x.focusedWindow = none ∧
    x.enteredWindow = none ∧ x.unselkeysWindow = none) ∧
  (∀ i, (x.keys i).code = -1 ∧ (x.keys i).owner = none)

end DirectFB.WindowStack
