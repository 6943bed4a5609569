import DirectFB.Reaches
import DirectFB.UpdateRegion
import DirectFB.Updates

/-! The buffers of a window stack with buffer mode TRIPLE. Windows and cursor are drawn to
the back buffer; a flip makes it the front buffer, the idle buffer the back buffer and the
front buffer the idle buffer, and what they lack is copied from the new front buffer. -/
namespace DirectFB.TripleBuffer
open Transition

structure Screen where
  width : ℤ
  height : ℤ
  rotation : Rotation
  surface : Region

/-- `transform_stack_to_dest` -/
def Screen.dest (s : Screen) (r : Region) : Region :=
  match s.rotation with
  | .r0 => r
  | .r90 => ⟨r.y1,s.width-r.x2-1,r.y2,s.width-r.x1-1⟩
  | .r180 => ⟨s.width-r.x2-1,s.height-r.y2-1,s.width-r.x1-1,s.height-r.y1-1⟩
  | .r270 => ⟨s.height-r.y2-1,r.x1,s.height-r.y1-1,r.x2⟩

structure Cursor where
  x : ℤ
  y : ℤ
  hotX : ℤ
  hotY : ℤ
  w : ℤ
  h : ℤ
  opacity : Fin 256
  enabled : Bool

/-- `CoreCursorUpdateFlags` -/
structure CursorFlags where
  enable : Bool := false
  disable : Bool := false
  position : Bool := false
  size : Bool := false
  shape : Bool := false
  opacity : Bool := false

abbrev Image (π : Type*) := ℤ × ℤ → π

/-- The buffers and the `StackData`, the flips that are to be notified of, what was drawn
last at each pixel, and whether all that `flush_updating` assumes held. -/
structure State (π : Type*) where
  front : Image π
  back : Image π
  idle : Image π
  canvas : Image π
  cursorBs : Image π
  cursorRegion : Region
  cursorDrawn : Bool
  cursorBsValid : Bool
  active : Bool
  updating : Updates
  updated : Updates
  notifications : ℕ
  assumed : Bool

variable {π : Type*} (s : Screen)

def paint (x : State π) (r : Region) (f : Image π) : State π :=
  let draw := fun (image : Image π) p =>
    if r.Contains p ∧ s.surface.Contains p then f p else image p
  {x with back := draw x.back, canvas := draw x.canvas}

/-- `dfb_gfx_copy_regions_client`, between two buffers of the surface. -/
def copyRegions (l : List Region) (source destination : Image π) : Image π := fun p =>
  if (∃ r ∈ l, r.Contains p) ∧ s.surface.Contains p then source p else destination p

def flip (x : State π) : State π := {x with front := x.back, back := x.idle, idle := x.front}

def copied (u v : Updates) : Updates :=
  {u with regions := fun i => if i < u.num then u.regions i else v.regions i}

/-- The first step of `flush_updating`: updated are those regions that were updating. -/
def makeUpdated (x : State π) : State π :=
  let y := {x with assumed := x.assumed && 0 < x.updating.num && x.updated.num = 0}
  if x.updating.num = 0 then y
  else {y with updated := copied x.updating x.updated, updating := x.updating.reset}

/-- The last step of `flush_updating`. It uses the updated regions, which may be reset. -/
def copyBack (leftNumRegions : ℕ) (x : State π) : State π :=
  {x with back :=
    copyRegions s ((List.range leftNumRegions).map x.updated.regions) x.front x.back}

/-- `defaultwm_surface_reaction` and `defaultwm_surface_display_notify`. -/
def displayed (flush : State π → State π) (x : State π) : State π :=
  let y := if x.updated.num = 0 then x else {x with
    idle := copyRegions s ((List.range x.updated.num).map x.updated.regions) x.front x.idle
    updated := x.updated.reset}
  if y.updating.num = 0 then y else flush y

/-- `flush_updating`. Of each flip it is notified at once or later. -/
def flushUpdating : List Bool → State π → State π
  | [], x =>
    let y := flip (makeUpdated x)
    copyBack s x.updating.num {y with notifications := y.notifications+1}
  | sync::syncs, x =>
    let y := flip (makeUpdated x)
    copyBack s x.updating.num (if sync then displayed s (flushUpdating syncs) y
      else {y with notifications := y.notifications+1})

def addUpdates (l : List Region) (x : State π) : State π :=
  {x with updating := l.foldl Updates.add x.updating}

/-- The part of `repaint_stack` and `wm_update_cursor` for `DLBM_TRIPLE`. -/
def schedule (l : List Region) (syncs : List Bool) (x : State π) : State π :=
  let y := addUpdates l x
  if y.updated.num = 0 then flushUpdating s syncs y else y

def backup (x : State π) (r origin : Region) : State π :=
  {x with cursorBs := fun q =>
    let p := (q.1+origin.x1,q.2+origin.y1)
    if r.Contains p ∧ s.surface.Contains p then x.back p else x.cursorBs q}

/-- `draw_cursor`, clipped to a region. -/
def drawCursor (x : State π) (r : Region) (blend : ℤ × ℤ → π → π) : State π :=
  paint s x r fun p => blend p (x.back p)

/-- One turn of the loop of `repaint_stack`. -/
def repaint (image : Image π) (blend : ℤ × ℤ → π → π) (x : State π) (update : Region) :
    State π × Option Region :=
  match (s.dest update).intersect s.surface with
  | none => (x,none)
  | some dest =>
    let y := paint s x dest image
    let cursor := s.dest x.cursorRegion
    if x.cursorDrawn then
      match dest.intersect cursor with
      | some r => (drawCursor s (backup s y r cursor) r blend,some dest)
      | none => (y,some dest)
    else (y,some dest)

/-- The loop of `repaint_stack`, with the regions to be flipped. -/
def repaintAll (image : Image π) (blend : ℤ × ℤ → π → π) : List Region → State π →
    State π × List Region
  | [], x => (x,[])
  | update::updates, x =>
    let r := repaint s image blend x update
    let rest := repaintAll image blend updates r.1
    (rest.1,r.2.toList++rest.2)

/-- `repaint_stack`. As many regions are added as there are updates. -/
def repaintStack (x : State π) (updates : List Region) (image : Image π)
    (blend : ℤ × ℤ → π → π) (syncs : List Bool) : Option (State π) :=
  if x.active then
    let r := repaintAll s image blend updates x
    if r.2.length = updates.length then some (schedule s r.2 syncs r.1) else none
  else some x

def moveCursor (x : State π) (c : Cursor) : State π × Bool :=
  let region : Region := ⟨c.x-c.hotX,c.y-c.hotY,c.x-c.hotX+c.w-1,c.y-c.hotY+c.h-1⟩
  match region.intersect ⟨0,0,s.width-1,s.height-1⟩ with
  | some r => ({x with cursorBsValid := false, cursorRegion := r},true)
  | none => ({x with cursorBsValid := false, cursorRegion := region},false)

def restore (x : State π) (oldDest : Region) : State π :=
  let y := if x.cursorDrawn && x.active then
    paint s x oldDest fun p => x.cursorBs (p.1-oldDest.x1,p.2-oldDest.y1) else x
  {y with cursorDrawn := false}

def showCursor (x : State π) (dest : Region) (blend : ℤ × ℤ → π → π) : State π :=
  let y := if x.cursorBsValid then x else {backup s x dest dest with cursorBsValid := true}
  {drawCursor s y dest blend with cursorDrawn := true}

/-- The regions that `wm_update_cursor` adds. -/
def cursorUpdates (restored : Bool) (oldDest : Region) : Option Region → List Region
  | some dest =>
    if restored then
      if oldDest.intersects dest then [oldDest.union dest] else [dest,oldDest]
    else [dest]
  | none => if restored then [oldDest] else []

/-- The later part of `wm_update_cursor`, under the skirmish. -/
def redrawCursor (x : State π) (c : Cursor) (flags : CursorFlags) (blend : ℤ × ℤ → π → π)
    (oldDest : Region) (syncs : List Bool) : State π :=
  let restored := x.cursorDrawn && x.active
  let y := restore s x oldDest
  if flags.disable then y
  else
    let dest := (s.dest x.cursorRegion).intersect s.surface
    let shown := if c.opacity = 0 then none else dest
    let z := match shown with
      | some dest => showCursor s y dest blend
      | none => y
    let updates := cursorUpdates restored oldDest shown
    if updates = [] then z else schedule s updates syncs z

/-- `wm_update_cursor` -/
def updateCursor (x : State π) (c : Cursor) (flags : CursorFlags) (blend : ℤ × ℤ → π → π)
    (syncs : List Bool) : State π :=
  let oldDest := s.dest x.cursorRegion
  let moved := if flags.enable || flags.position || flags.size then moveCursor s x c else (x,true)
  let invisible := c.opacity = 0 || !c.enabled
  if !moved.2 then moved.1
  else if !(flags.enable || flags.disable || flags.size || flags.opacity) && invisible then moved.1
  else redrawCursor s moved.1 c flags blend oldDest syncs

inductive Event (π : Type*)
  | activate (active : Bool)
  | repaint (updates : List Region) (image : Image π) (blend : ℤ × ℤ → π → π) (syncs : List Bool)
  | cursor (c : Cursor) (flags : CursorFlags) (blend : ℤ × ℤ → π → π) (syncs : List Bool)
  | notify (syncs : List Bool)

/-- One section under `update_skirmish`. -/
def step (x : State π) : Event π → Option (State π)
  | .activate active => some {x with active := active}
  | .repaint updates image blend syncs =>
    if updates = [] then none else repaintStack s x updates image blend syncs
  | .cursor c flags blend syncs => some (updateCursor s x c flags blend syncs)
  | .notify syncs =>
    if x.notifications = 0 then none
    else some (displayed s (flushUpdating s syncs) {x with notifications := x.notifications-1})

/-- `MAX_UPDATING_REGIONS` and `MAX_UPDATED_REGIONS` -/
def maxRegions : ℕ := 8

def init (x : State π) : Prop :=
  x.back = x.front ∧ x.idle = x.front ∧ x.canvas = x.front ∧ x.cursorDrawn = false ∧
  x.updating.num = 0 ∧ x.updating.max = maxRegions ∧ x.updated.num = 0 ∧
  x.notifications = 0 ∧ x.assumed = true

def Kept (x : State π) : Event π → Prop
  | .cursor _ flags _ _ => ¬ (flags.disable ∧ x.cursorDrawn ∧ x.active)
  | _ => True

/-- The buffers differ at most where they are to be updated, or in some more regions. -/
structure InStep (x : State π) (more : List Region) : Prop where
  canvas : ∀ p, s.surface.Contains p → x.back p = x.canvas p
  back : ∀ p, s.surface.Contains p → x.back p ≠ x.front p →
    x.updating.Covers p ∨ ∃ r ∈ more, r.Contains p
  idle : ∀ p, s.surface.Contains p → x.idle p ≠ x.front p → x.updated.Covers p
  good : x.updating.Good
  waiting : x.notifications = if x.updated.num = 0 then 0 else 1
  assumed : x.assumed = true

structure Inv (x : State π) : Prop extends InStep s x [] where
  flushed : x.updated.num = 0 → x.updating.num = 0

variable {p : ℤ × ℤ} {l : List Region}

theorem covers_map {u : Updates} :
    (∃ r ∈ (List.range u.num).map u.regions, r.Contains p) ↔ u.Covers p := by
  simp only [List.mem_map,List.mem_range,exists_exists_and_eq_and]
  rfl

theorem InStep.paint {s : Screen} {x : State π} {more : List Region} (h : InStep s x more)
    (r : Region) (f : Image π) : InStep s (paint s x r f) (r::more) where
  canvas p hp := by
    simp only [TripleBuffer.paint]
    split_ifs
    · rfl
    · exact h.canvas p hp
  back p hp hne := by
    simp only [TripleBuffer.paint] at hne
    by_cases hr : r.Contains p
    · exact .inr ⟨r,List.mem_cons_self,hr⟩
    · rw [if_neg fun hc => hr hc.1] at hne
      rcases h.back p hp hne with hc | ⟨r',hr',hc⟩
      · exact .inl hc
      · exact .inr ⟨r',List.mem_cons_of_mem _ hr',hc⟩
  idle := h.idle
  good := h.good
  waiting := h.waiting
  assumed := h.assumed

theorem InStep.mono {s : Screen} {x : State π} {l m : List Region} (h : InStep s x l)
    (hlm : ∀ p, s.surface.Contains p → (∃ r ∈ l, r.Contains p) → ∃ r ∈ m, r.Contains p) :
    InStep s x m where
  canvas := h.canvas
  back p hp hne := (h.back p hp hne).imp id (hlm p hp)
  idle := h.idle
  good := h.good
  waiting := h.waiting
  assumed := h.assumed

theorem InStep.add {s : Screen} {x : State π} (h : InStep s x l) :
    InStep s (addUpdates l x) [] := by
  have hgood : ∀ (l : List Region) (u : Updates), u.Good → (l.foldl Updates.add u).Good ∧
      ∀ p, u.Covers p ∨ (∃ r ∈ l, r.Contains p) → (l.foldl Updates.add u).Covers p := by
    intro l
    induction l with
    | nil => exact fun u hu => ⟨hu,fun p hp => by simpa using hp⟩
    | cons r l ih =>
      intro u hu
      obtain ⟨hg,hc⟩ := ih (u.add r) (hu.add r)
      refine ⟨hg,fun p hp => hc p ?_⟩
      rcases hp with hp | ⟨r',hr',hp⟩
      · exact .inl (hu.covers_add (.inl hp))
      · rcases List.mem_cons.mp hr' with rfl | hr'
        · exact .inl (hu.covers_add (.inr hp))
        · exact .inr ⟨r',hr',hp⟩
  obtain ⟨hg,hc⟩ := hgood l x.updating h.good
  exact ⟨h.canvas,fun p hp hne => .inl (hc p (h.back p hp hne)),h.idle,hg,h.waiting,h.assumed⟩

theorem addUpdates_num_pos {x : State π} (hl : l ≠ []) : 0 < (addUpdates l x).updating.num := by
  have hpos : ∀ (l : List Region) (u : Updates), 0 < u.num → 0 < (l.foldl Updates.add u).num := by
    intro l
    induction l with
    | nil => exact fun u hu => hu
    | cons r l ih => exact fun u _ => ih _ (Updates.add_num_pos u r)
  obtain ⟨r,l,rfl⟩ := List.exists_cons_of_ne_nil hl
  exact hpos l _ (Updates.add_num_pos x.updating r)

/-- After the flip the new front buffer differs from the others where the updates are. -/
structure Flipped (x : State π) : Prop where
  canvas : ∀ p, s.surface.Contains p → x.front p = x.canvas p
  back : ∀ p, s.surface.Contains p → x.back p ≠ x.front p → x.updated.Covers p
  idle : ∀ p, s.surface.Contains p → x.idle p ≠ x.front p → x.updated.Covers p
  good : x.updating.Good
  num : x.updating.num = 0
  waiting : x.notifications = 0
  assumed : x.assumed = true

theorem covers_copied {u v : Updates} (h : u.Covers p) : (copied u v).Covers p := by
  obtain ⟨i,hi,hc⟩ := h
  refine ⟨i,hi,?_⟩
  change (if i < u.num then u.regions i else v.regions i).Contains p
  rwa [if_pos hi]

theorem InStep.flipped {s : Screen} {x : State π} (h : InStep s x []) (hz : x.updated.num = 0)
    (hpos : 0 < x.updating.num) : Flipped s (flip (makeUpdated x)) ∧
      (flip (makeUpdated x)).updated.num = x.updating.num := by
  have hidle : ∀ p, s.surface.Contains p → x.idle p = x.front p := by
    intro p hp
    by_contra hne
    obtain ⟨i,hi,_⟩ := h.idle p hp hne
    omega
  have hback : ∀ p, s.surface.Contains p → x.back p ≠ x.front p → x.updating.Covers p := by
    intro p hp hne
    simpa using h.back p hp hne
  unfold makeUpdated
  dsimp only
  rw [if_neg hpos.ne']
  refine ⟨⟨h.canvas,fun p hp hne => ?_,fun p hp hne => ?_,h.good.reset,rfl,?_,?_⟩,rfl⟩
  · have hne : x.idle p ≠ x.back p := hne
    rw [hidle p hp] at hne
    exact covers_copied (hback p hp hne.symm)
  · have hne : x.front p ≠ x.back p := hne
    exact covers_copied (hback p hp hne.symm)
  · change x.notifications = 0
    rw [h.waiting,if_pos hz]
  · change (x.assumed && decide (0 < x.updating.num) && decide (x.updated.num = 0)) = true
    rw [h.assumed,hz]
    simpa using hpos

/-- Copying back what was updated. -/
theorem Flipped.copyBack {s : Screen} {x y : State π} {n : ℕ} (h : Flipped s x)
    (hn : x.updated.num = n) (hfront : y.front = x.front) (hback : y.back = x.back)
    (hcanvas : y.canvas = x.canvas) (hupdating : y.updating = x.updating)
    (hregions : y.updated.regions = x.updated.regions) (hassumed : y.assumed = x.assumed)
    (hwaiting : y.notifications = if y.updated.num = 0 then 0 else 1)
    (hidle : ∀ p, s.surface.Contains p → y.idle p ≠ y.front p → y.updated.Covers p) :
    Inv s (copyBack s n y) := by
  have hcopy : ∀ p, s.surface.Contains p → copyRegions s ((List.range n).map y.updated.regions)
      y.front y.back p = y.front p := by
    intro p hp
    unfold copyRegions
    split_ifs with hc
    · rfl
    · by_contra hne
      rw [hback,hfront] at hne
      refine hc ⟨?_,hp⟩
      rw [hregions,← hn]
      exact covers_map.mpr (h.back p hp hne)
  refine ⟨⟨fun p hp => ?_,fun p hp hne => absurd (hcopy p hp) hne,hidle,?_,hwaiting,?_⟩,fun _ => ?_⟩
  · change copyRegions s ((List.range n).map y.updated.regions) y.front y.back p = y.canvas p
    rw [hcopy p hp,hfront,hcanvas]
    exact h.canvas p hp
  · change y.updating.Good
    rw [hupdating]
    exact h.good
  · change y.assumed = true
    rw [hassumed]
    exact h.assumed
  · change y.updating.num = 0
    rw [hupdating]
    exact h.num

theorem copy_idle {s : Screen} {x : State π}
    (h : ∀ p, s.surface.Contains p → x.idle p ≠ x.front p → x.updated.Covers p)
    (hp : s.surface.Contains p) :
    copyRegions s ((List.range x.updated.num).map x.updated.regions) x.front x.idle p =
      x.front p := by
  unfold copyRegions
  split_ifs with hc
  · rfl
  · by_contra hne
    exact hc ⟨covers_map.mpr (h p hp hne),hp⟩

/-- A flush with nothing updated brings the buffers back in step, whenever it is notified
of the flip. -/
theorem InStep.flush {s : Screen} {x : State π} (h : InStep s x []) (hz : x.updated.num = 0)
    (hpos : 0 < x.updating.num) (syncs : List Bool) : Inv s (flushUpdating s syncs x) := by
  obtain ⟨hflip,hnum⟩ := h.flipped hz hpos
  have hlater : Inv s (copyBack s x.updating.num {flip (makeUpdated x) with
      notifications := (flip (makeUpdated x)).notifications+1}) := by
    refine hflip.copyBack hnum rfl rfl rfl rfl rfl rfl ?_ hflip.idle
    dsimp only
    rw [hnum,if_neg hpos.ne',hflip.waiting]
  cases syncs with
  | nil => exact hlater
  | cons sync syncs =>
    cases sync with
    | false => exact hlater
    | true =>
      have hnz : (flip (makeUpdated x)).updated.num ≠ 0 := by
        rw [hnum]
        exact hpos.ne'
      simp only [flushUpdating,if_true]
      unfold displayed
      -- the updating regions were reset before the flip
      rw [if_neg hnz,if_pos hflip.num]
      refine hflip.copyBack hnum rfl rfl rfl rfl rfl rfl ?_ fun p hp hne => ?_
      · exact hflip.waiting
      · exact absurd (copy_idle hflip.idle hp) hne

theorem InStep.schedule {s : Screen} {x : State π} (h : InStep s x l)
    (hl : l ≠ []) (syncs : List Bool) : Inv s (schedule s l syncs x) := by
  unfold TripleBuffer.schedule
  dsimp only
  split_ifs with hz
  · exact h.add.flush hz (addUpdates_num_pos hl) syncs
  · exact ⟨h.add,fun hc => absurd hc hz⟩

theorem Inv.displayed {s : Screen} {x : State π} (h : Inv s x) (hn : x.notifications ≠ 0)
    (syncs : List Bool) : Inv s (displayed s (flushUpdating s syncs)
      {x with notifications := x.notifications-1}) := by
  have hnz : x.updated.num ≠ 0 := fun hz => hn (by rw [h.waiting,if_pos hz])
  have hone : x.notifications = 1 := by rw [h.waiting,if_neg hnz]
  unfold TripleBuffer.displayed
  dsimp only
  rw [if_neg hnz]
  have hstep : InStep s {x with
      idle := copyRegions s ((List.range x.updated.num).map x.updated.regions) x.front x.idle
      updated := x.updated.reset
      notifications := x.notifications-1} [] := by
    refine ⟨h.canvas,h.back,fun p hp hne => absurd (copy_idle h.idle hp) hne,h.good,?_,h.assumed⟩
    dsimp only
    rw [hone]
    rfl
  split_ifs with hz
  · exact ⟨hstep,fun _ => hz⟩
  · exact hstep.flush rfl (Nat.pos_of_ne_zero hz) syncs

theorem InStep.backup {s : Screen} {x : State π} (h : InStep s x l)
    (r origin : Region) : InStep s (backup s x r origin) l :=
  ⟨h.canvas,h.back,h.idle,h.good,h.waiting,h.assumed⟩

/-- One turn of the loop draws in the region to be flipped only. -/
theorem InStep.repaint {s : Screen} {x : State π} (h : InStep s x l)
    (image : Image π) (blend : ℤ × ℤ → π → π) (update : Region) :
    InStep s (repaint s image blend x update).1 ((repaint s image blend x update).2.toList++l) := by
  unfold TripleBuffer.repaint
  split
  · exact h
  · next dest _ =>
    have hdest := h.paint dest image
    dsimp only
    split_ifs
    · split
      · next r hr =>
        have hdraw := (hdest.backup r (s.dest x.cursorRegion)).paint r fun p =>
          blend p ((TripleBuffer.backup s (TripleBuffer.paint s x dest image) r
            (s.dest x.cursorRegion)).back p)
        refine hdraw.mono ?_
        rintro p _ ⟨r',hr',hp⟩
        rcases List.mem_cons.mp hr' with rfl | hr'
        · exact ⟨dest,List.mem_cons_self,((Region.intersect_contains hr p).mp hp).1⟩
        · exact ⟨r',hr',hp⟩
      · exact hdest
    · exact hdest

theorem InStep.repaintAll {s : Screen} (image : Image π) (blend : ℤ × ℤ → π → π)
    (updates : List Region) {x : State π} (h : InStep s x l) :
    InStep s (repaintAll s image blend updates x).1
      ((repaintAll s image blend updates x).2++l) := by
  induction updates generalizing x l with
  | nil => exact h
  | cons update updates ih =>
    refine (ih (h.repaint image blend update)).mono ?_
    rintro p _ ⟨r,hr,hp⟩
    refine ⟨r,?_,hp⟩
    simp only [repaintAll,List.mem_append] at hr ⊢
    tauto

theorem Inv.repaintStack {s : Screen} {x y : State π} {updates : List Region} {image : Image π}
    {blend : ℤ × ℤ → π → π} {syncs : List Bool} (h : Inv s x) (hne : updates ≠ [])
    (hy : repaintStack s x updates image blend syncs = some y) : Inv s y := by
  unfold TripleBuffer.repaintStack at hy
  dsimp only at hy
  split_ifs at hy with hactive hlen
  · obtain rfl := Option.some.inj hy
    have hall := h.toInStep.repaintAll image blend updates
    rw [List.append_nil] at hall
    refine hall.schedule (fun hnil => hne ?_) syncs
    rw [hnil] at hlen
    exact List.length_eq_zero_iff.mp hlen.symm
  · obtain rfl := Option.some.inj hy
    exact h

theorem Inv.moveCursor {s : Screen} {x : State π} (h : Inv s x) (c : Cursor) :
    Inv s (moveCursor s x c).1 ∧ (moveCursor s x c).1.cursorDrawn = x.cursorDrawn ∧
      (moveCursor s x c).1.active = x.active := by
  unfold TripleBuffer.moveCursor
  dsimp only
  split <;>
    exact ⟨⟨⟨h.canvas,h.back,h.idle,h.good,h.waiting,h.assumed⟩,h.flushed⟩,rfl,rfl⟩

theorem InStep.restore {s : Screen} {x : State π} (h : InStep s x []) (oldDest : Region) :
    InStep s (restore s x oldDest) (if x.cursorDrawn && x.active then [oldDest] else []) := by
  unfold TripleBuffer.restore
  dsimp only
  split_ifs
  · have hold := h.paint oldDest fun p => x.cursorBs (p.1-oldDest.x1,p.2-oldDest.y1)
    exact ⟨hold.canvas,hold.back,hold.idle,hold.good,hold.waiting,hold.assumed⟩
  · exact ⟨h.canvas,h.back,h.idle,h.good,h.waiting,h.assumed⟩

theorem Inv.restore {s : Screen} {x : State π} (h : Inv s x) (oldDest : Region)
    (hno : (x.cursorDrawn && x.active) = false) : Inv s (restore s x oldDest) := by
  have hrest := h.toInStep.restore oldDest
  rw [hno] at hrest
  refine ⟨hrest,fun hz => ?_⟩
  unfold TripleBuffer.restore at hz ⊢
  rw [hno] at hz ⊢
  exact h.flushed hz

theorem InStep.showCursor {s : Screen} {x : State π} (h : InStep s x l)
    (dest : Region) (blend : ℤ × ℤ → π → π) : InStep s (showCursor s x dest blend) (dest::l) := by
  unfold TripleBuffer.showCursor
  dsimp only
  split_ifs
  · have hdraw := h.paint dest fun p => blend p (x.back p)
    exact ⟨hdraw.canvas,hdraw.back,hdraw.idle,hdraw.good,hdraw.waiting,hdraw.assumed⟩
  · have hdraw := (h.backup dest dest).paint dest fun p => blend p (x.back p)
    exact ⟨hdraw.canvas,hdraw.back,hdraw.idle,hdraw.good,hdraw.waiting,hdraw.assumed⟩

theorem cursorUpdates_covers {restored : Bool} {oldDest : Region} {shown : Option Region} (h : ∃ r ∈ shown.toList++(if restored then [oldDest] else []), r.Contains p) :
    ∃ r ∈ cursorUpdates restored oldDest shown, r.Contains p := by
  obtain ⟨r,hr,hp⟩ := h
  cases shown with
  | none => exact ⟨r,hr,hp⟩
  | some dest =>
    cases restored with
    | false => exact ⟨r,by simpa [cursorUpdates] using hr,hp⟩
    | true =>
      have hr : r = dest ∨ r = oldDest := by simpa using hr
      simp only [cursorUpdates,if_true]
      split_ifs
      · refine ⟨_,List.mem_cons_self,?_⟩
        rcases hr with rfl | rfl
        · exact (Region.within_union_right _ _).contains hp
        · exact (Region.within_union_left _ _).contains hp
      · exact ⟨r,by simpa using hr,hp⟩

/-- The cursor is redrawn and what this changes is flipped, unless it was drawn and gets
disabled. -/
theorem Inv.redrawCursor {s : Screen} {x : State π} {flags : CursorFlags} (h : Inv s x)
    (c : Cursor) (blend : ℤ × ℤ → π → π) (oldDest : Region) (syncs : List Bool)
    (hkept : ¬ (flags.disable ∧ x.cursorDrawn ∧ x.active)) :
    Inv s (redrawCursor s x c flags blend oldDest syncs) := by
  have hrest := h.toInStep.restore oldDest
  unfold TripleBuffer.redrawCursor
  dsimp only
  by_cases hd : flags.disable = true
  · rw [if_pos hd]
    refine h.restore oldDest ?_
    by_contra hc
    exact hkept ⟨hd,by simpa using hc⟩
  · rw [if_neg hd]
    generalize (if c.opacity = 0 then none else
      (s.dest x.cursorRegion).intersect s.surface) = shown
    have hshown : InStep s (match shown with
        | some dest => showCursor s (TripleBuffer.restore s x oldDest) dest blend
        | none => TripleBuffer.restore s x oldDest)
        (cursorUpdates (x.cursorDrawn && x.active) oldDest shown) := by
      have hboth : InStep s (match shown with
          | some dest => showCursor s (TripleBuffer.restore s x oldDest) dest blend
          | none => TripleBuffer.restore s x oldDest)
          (shown.toList++if x.cursorDrawn && x.active then [oldDest] else []) := by
        cases shown with
        | none => exact hrest
        | some dest => exact hrest.showCursor dest blend
      exact hboth.mono fun p _ => cursorUpdates_covers
    split_ifs with hnil
    · cases shown with
      | some dest =>
        simp only [cursorUpdates] at hnil
        split_ifs at hnil
      | none =>
        refine h.restore oldDest ?_
        by_contra hc
        rw [Bool.not_eq_false] at hc
        rw [hc] at hnil
        cases hnil
    · exact hshown.schedule hnil syncs

theorem Inv.updateCursor {s : Screen} {x : State π} {flags : CursorFlags} (h : Inv s x)
    (c : Cursor) (blend : ℤ × ℤ → π → π) (syncs : List Bool)
    (hkept : ¬ (flags.disable ∧ x.cursorDrawn ∧ x.active)) :
    Inv s (updateCursor s x c flags blend syncs) := by
  have hmoved : ∀ b : Bool, Inv s (if b then TripleBuffer.moveCursor s x c else (x,true)).1 ∧
      (if b then TripleBuffer.moveCursor s x c else (x,true)).1.cursorDrawn = x.cursorDrawn ∧
      (if b then TripleBuffer.moveCursor s x c else (x,true)).1.active = x.active := by
    intro b
    split_ifs
    · exact h.moveCursor c
    · exact ⟨h,rfl,rfl⟩
  obtain ⟨hinv,hdrawn,hactive⟩ := hmoved (flags.enable || flags.position || flags.size)
  unfold TripleBuffer.updateCursor
  dsimp only
  generalize (if (flags.enable || flags.position || flags.size) = true then
    TripleBuffer.moveCursor s x c else (x,true)) = moved at hinv hdrawn hactive ⊢
  split_ifs
  · exact hinv
  · exact hinv
  · exact hinv.redrawCursor c blend _ syncs (by rwa [hdrawn,hactive])

theorem Inv.init {s : Screen} {x : State π} (h : init x) : Inv s x := by
  obtain ⟨hback,hidle,hcanvas,_,hnum,hmax,hupd,hnot,hass⟩ := h
  refine ⟨⟨fun p _ => by rw [hback,hcanvas],fun p _ hne => absurd (congrFun hback p) hne,
    fun p _ hne => absurd (congrFun hidle p) hne,⟨fun i hi => ?_,?_,?_⟩,?_,hass⟩,fun _ => hnum⟩
  · rw [hnum] at hi
    exact absurd hi (Nat.not_lt_zero i)
  · rw [hnum]
    exact Nat.zero_le _
  · rw [hmax]
    decide
  · rw [hnot,hupd]
    rfl

theorem Inv.step {s : Screen} {x y : State π} {e : Event π} (h : Inv s x) (hkept : Kept x e)
    (hs : step s x e = some y) : Inv s y := by
  cases e with
  | activate active =>
    obtain rfl := Option.some.inj hs
    exact ⟨⟨h.canvas,h.back,h.idle,h.good,h.waiting,h.assumed⟩,h.flushed⟩
  | repaint updates image blend syncs =>
    obtain ⟨hne,hy⟩ := Option.ite_none_left_eq_some.mp hs
    exact h.repaintStack hne hy
  | cursor c flags blend syncs =>
    obtain rfl := Option.some.inj hs
    exact h.updateCursor c blend syncs hkept
  | notify syncs =>
    obtain ⟨hn,hy⟩ := Option.ite_none_left_eq_some.mp hs
    exact Option.some.inj hy ▸ h.displayed hn syncs

def strip : Screen := ⟨4,1,.r0,⟨0,0,3,0⟩⟩

def blank : State ℕ where
  front := fun _ => 0
  back := fun _ => 0
  idle := fun _ => 0
  canvas := fun _ => 0
  cursorBs := fun _ => 0
  cursorRegion := ⟨0,0,0,0⟩
  cursorDrawn := false
  cursorBsValid := false
  active := true
  updating := ⟨fun _ => ⟨0,0,0,0⟩,8,0,⟨0,0,0,0⟩⟩
  updated := ⟨fun _ => ⟨0,0,0,0⟩,8,0,⟨0,0,0,0⟩⟩
  notifications := 0
  assumed := true

def pointer (enabled : Bool) : Cursor := ⟨1,0,0,0,1,1,255,enabled⟩

end DirectFB.TripleBuffer
