import DirectFB.SaWManAssociation
import DirectFB.SaWManVisible

/-! The order of the windows of SaWMan in their layout. -/
set_option linter.unusedSectionVars false
namespace DirectFB.SaWMan.Stacking
open Association Visible
variable {ω : Type*} [DecidableEq ω]

/-- What `fusion_vector_index_of` answers if there is no such element. -/
def notFound : ℤ := -2^29

/-- `fusion_vector_index_of` -/
def indexOf (l : List ω) (a : ω) : ℤ :=
  if a ∈ l then l.length-1-l.reverse.idxOf a else notFound

/-- `fusion_vector_at` -/
def vectorAt (l : List ω) (index : ℤ) : Except Stop ω :=
  if 0 ≤ index then
    match l[index.toNat]? with
    | some a => .ok a
    | none => .error .index
  else .error .index

/-- `fusion_vector_insert` -/
def vectorInsert (l : List ω) (a : ω) (index : ℤ) : Except Stop (List ω) :=
  if 0 ≤ index ∧ index ≤ l.length then .ok (l.insertIdx index.toNat a) else .error .index

/-- `fusion_vector_move` -/
def vectorMove (l : List ω) (old new : ℤ) : Except Stop (List ω) :=
  if old = new then .ok l
  else if 0 ≤ new ∧ new < l.length then
    (vectorAt l old).map fun a => (l.eraseIdx old.toNat).insertIdx new.toNat a
  else .error .index

/-- The association of windows, together with `sawman->layout`, from the bottom up, and the lists
of what is visible. -/
structure State (ω : Type*) extends Association.State ω where
  layout : List ω
  lists : Visible.Lists ω

def kept (w : Window ω) : Bool := w.options.keepAbove || w.options.keepUnder

def setInserted (inserted : Bool) (w : Window ω) : Window ω := {w with inserted := inserted}

def setSubwindows (subwindows : List ω) (w : Window ω) : Window ω :=
  {w with subwindows := subwindows}

/-- `sawwin->priority`, with a new class. -/
def setStacking (stacking : StackingClass) (w : Window ω) : Window ω :=
  {w with config := {w.config with stacking := stacking}, priority := stacking.priority}

def State.modify (x : State ω) (w : ω) (f : Window ω → Window ω) : State ω :=
  {x with toState := x.toState.modify w f}

variable (borders : Borders) (tier : Tier)

def State.updateVisible (x : State ω) : State ω :=
  {x with lists := sawmanUpdateVisible borders tier x.windows x.layout x.lists}

/-- The sub windows of its top level window after a sub window is moved to its parent. These are
core windows, and the `SaWManWindow` of the parent is none of them. -/
def keepSubwindow (s : Windows ω) (w t : ω) : Except Stop (List ω) :=
  let subwindows := (s t).subwindows
  let index := indexOf subwindows w
  let parent := notFound
  if (s w).parent.isNone then .ok subwindows
  else if (s w).options.keepUnder then
    if index < parent-1 then vectorMove subwindows index (parent-1)
    else if index > parent-1 then vectorMove subwindows index parent
    else .ok subwindows
  else if (s w).options.keepAbove then
    if index < parent+1 then vectorMove subwindows index parent
    else if index > parent+1 then vectorMove subwindows index (parent+1)
    else .ok subwindows
  else .ok subwindows

def keepAtParent (x : State ω) (w : ω) : Except Stop (State ω) :=
  match (x.windows w).toplevel with
  | some t => (keepSubwindow x.windows w t).map fun l => x.modify t (setSubwindows l)
  | none => .ok x

def belowSubwindow (s : Windows ω) (w t : ω) : Except Stop ω :=
  let index := indexOf (s t).subwindows w
  if index = 0 then .ok t else vectorAt (s t).subwindows (index-1)

/-- Which window a window is inserted next to, and if above it. -/
def relativeTo (s : Windows ω) (w : ω) (relative : Option ω) (top : Bool) :
    Except Stop (Option ω × Bool) :=
  match (s w).toplevel, (s w).parent with
  | some t, _ => (belowSubwindow s w t).map fun below => (some below,true)
  | none, some parent =>
    .ok <| if kept (s w) then
      if (s w).options.keepAbove then (some ((s parent).subwindows.getLast?.getD parent),true)
      else (some parent,false)
    else (relative,top)
  | none, none => .ok (relative,top)

def insertionIndex (x : State ω) (w : ω) (relative : Option ω) (top : Bool) : ℤ :=
  match relative with
  | some relative => indexOf x.layout relative+if top then 1 else 0
  | none => x.layout.findIdx fun other =>
      if top then (x.windows other).priority > (x.windows w).priority
      else (x.windows other).priority ≥ (x.windows w).priority

/-- `sawman_insert_window`, if the layout has room for another window or not. -/
def insertWindow (x : State ω) (w : ω) (relative : Option ω) (top room : Bool) :
    Except Stop (State ω × Result) := do
  let x ← keepAtParent x w
  let (relative,top) ← relativeTo x.windows w relative top
  let index := insertionIndex x w relative top
  if (x.windows w).inserted then
    let old := indexOf x.layout w
    let layout ← vectorMove x.layout old (if old < index then index-1 else index)
    .ok ({x with layout := layout}.updateVisible borders tier,.ok)
  else if room then
    let layout ← vectorInsert x.layout w index
    .ok (({x with layout := layout}.modify w (setInserted true)).updateVisible borders tier,.ok)
  else .ok (x,.noSharedMemory)

def hide (w : Window ω) : Window ω := {w with config := {w.config with opacity := 0}}

/-- `sawman_withdraw_window`, of what is modelled: a visible window is hidden. -/
def withdrawWindow (x : State ω) (w : ω) : State ω :=
  if visible borders x.windows w && (x.windows w).inserted then
    x.modify w hide
  else x

/-- `sawman_remove_window`, of a window that is inserted. -/
def removeWindow (x : State ω) (w : ω) : Except Stop (State ω) :=
  let x := withdrawWindow borders x w
  if w ∈ x.layout then
    .ok ({x with layout := x.layout.eraseIdx (indexOf x.layout w).toNat}.modify w
      (setInserted false))
  else .error .index

def down (cond : ℕ → Bool) : ℕ → ℕ
  | 0 => 0
  | n+1 => if cond (n+1) then down cond n else n+1

def up (cond : ℕ → Bool) : ℕ → ℕ → ℕ
  | 0, index => index
  | n+1, index => if cond index then up cond n (index+1) else index

def clamp (index : ℤ) (count : ℕ) : ℕ := min index.toNat (count-1)

/-- The position in a list next to another element of it, or on top, or at the bottom. -/
def desired (l : List ω) (old : ℤ) (relative : Option ω) (relation additional : ℤ) : ℕ :=
  match relative with
  | some relative =>
    let index := indexOf l relative
    let index := if 0 < relation then if old < index then index-1 else index
      else if relation < 0 then if old > index then index+1 else index else index
    clamp (index+relation+if 0 < relation then additional else 0) l.length
  | none => if relation ≠ 0 then l.length-1 else 0

def between (l : List ω) (cond : ω → ω → Bool) (under other : ℕ) : Bool :=
  match l[under]?, l[other]? with
  | some under, some other => cond under other
  | _, _ => false

/-- The position of a top level window that is restacked. -/
def restackIndex (x : State ω) (w : ω) (relative : Option ω) (relation : ℤ) : ℕ :=
  let s := x.windows
  let l := x.layout
  let count := l.length
  let old := indexOf l w
  let priority := (s w).priority
  let index := desired l old relative relation (s w).subwindows.length
  -- not above a window with a higher priority
  let index := down (fun index =>
    (l[if old < index then index else index-1]?).any fun o => priority < (s o).priority) index
  -- not below a window with a lower priority
  let index := up (fun index =>
    (l[if old > index then index else index+1]?).any fun o => priority > (s o).priority)
    (count-1-index) index
  let sticks := fun under other => (s other).toplevel.isSome || (s other).options.keepAbove ||
    (s under).options.keepUnder
  if relation < 0 then down (fun index => between l sticks (index-1) index) index
  else if 0 < relation then
    up (fun index => between l sticks index (index+1)) (count-1-index) index
  else index

def reinsert (l : List ω) (x : State ω) : Except Stop (State ω) :=
  l.foldlM (fun x w => (insertWindow borders tier x w none false true).map Prod.fst) x

def reinsertKept (w : ω) (subs : Bool) (x : State ω) : Except Stop (State ω) :=
  (x.windows w).children.foldlM (fun x c =>
    if kept (x.windows c) then
      reinsert borders tier (c::if subs then (x.windows c).subwindows else []) x
    else .ok x) x

/-- `sawman_restack_window` on a sub window. Its loops would read the core windows among which it
is as `SaWManWindow`s. -/
def restackSubwindow (x : State ω) (w t : ω) (relative : Option ω) (relation : ℤ) :
    Except Stop (State ω × Result) :=
  let l := (x.windows t).subwindows
  let old := indexOf l w
  if relative.any fun r => indexOf l r < 0 then .ok (x,.invArg)
  else
    let index := desired l old relative relation 0
    if relation < 0 ∧ 0 < index ∨ 0 < relation ∧ index < l.length-1 then .error .object
    else if old = index then .ok (x,.ok)
    else do
      let l ← vectorMove l old index
      let x ← reinsert borders tier [w] (x.modify t (setSubwindows l))
      let x ← reinsertKept borders tier w false x
      .ok (x,.ok)

def State.setClass (x : State ω) (w : ω) (stacking : StackingClass) : State ω :=
  if stacking ≠ (x.windows w).config.stacking then x.modify w (setStacking stacking) else x

/-- `sawman_restack_window` -/
def restackWindow (x : State ω) (w : ω) (relative : Option ω) (relation : ℤ)
    (stacking : StackingClass) : Except Stop (State ω × Result) :=
  let x := x.setClass w stacking
  if !(x.windows w).inserted || kept (x.windows w) then .ok (x,.ok)
  else
    match (x.windows w).toplevel with
    | some t => restackSubwindow borders tier x w t relative relation
    | none =>
      let old := indexOf x.layout w
      let index := restackIndex x w relative relation
      if old = index then .ok (x,.ok)
      else do
        let layout ← vectorMove x.layout old index
        let x ← reinsert borders tier (x.windows w).subwindows {x with layout := layout}
        let x ← reinsertKept borders tier w true x
        .ok (x,.ok)

variable {borders tier} {x y : State ω} {w : ω}

@[simp] theorem State.modify_windows (x : State ω) (w v : ω) (f : Window ω → Window ω) :
    (x.modify w f).windows v = if v = w then f (x.windows v) else x.windows v :=
  modify_apply _ _ _ _

def Keeps {β : Type*} (f : Window ω → β) (x y : State ω) : Prop :=
  ∀ v, f (y.windows v) = f (x.windows v)

variable {β : Type*} {r : Result}

theorem Keeps.trans {f : Window ω → β} {z : State ω} (h : Keeps f x y)
    (h' : Keeps f y z) : Keeps f x z := fun v => (h' v).trans (h v)

def core (w : Window ω) : Window ω := {w with subwindows := [], inserted := false}

def Fresh (borders : Borders) (tier : Tier) (x : State ω) : Prop :=
  Complete borders tier x.windows x.layout x.lists

def InPlace (x : State ω) (w : ω) : Prop :=
  ∀ below above, x.layout = below++w::above →
    (∀ o ∈ below.getLast?, (x.windows o).priority ≤ (x.windows w).priority) ∧
    ∀ o ∈ above.head?, (x.windows w).priority ≤ (x.windows o).priority

def Reinserts (x : State ω) (w : ω) : Prop :=
  (x.windows w).subwindows ≠ [] ∨ ∃ c ∈ (x.windows w).children, kept (x.windows c)

end DirectFB.SaWMan.Stacking
