import DirectFB.CardState

/-! The acquisition of a state for an operation of the driver: what was checked is invalidated, the
driver is asked, the buffers and the card are locked, and the state is set. -/
namespace DirectFB.StateAcquire

open CardState

structure Device where
  taskManager : Bool
  checkState : Bool
  readSysmem : Bool
  writeSysmem : Bool
  renderOpts : Bool

/-- The answers to one acquisition: of the locks, whether they are got, of the driver, which
functions it turns on or off, and of `SetState`, what it leaves. -/
structure Answers where
  shutdown : Bool := false
  prevail : Bool := true
  added : Finset Accel := ∅
  removed : Finset Accel := ∅
  dstSystemonly : Bool := false
  srcSystemonly : Bool := false
  lockDst : Bool := true
  lockSrc : Bool := true
  lockMask : Bool := true
  lockSrc2 : Bool := true
  lockCard : Bool := true
  hw : Finset Modification := ∅
  set : Finset Accel := ∅

/-- The states that share the card. A state is given by its address and its holder; the locks are
those that one thread has. -/
structure Card (T S : Type*) where
  states : T → CardState S
  surfaces : S → CoreSurface
  state : Option T
  locked : S → ℕ
  skirmish : S → ℕ
  lock : ℕ
  identity : ℕ

/-- A card after an acquisition, the functions that were answered, what `SetState` was given, and
whether the state is acquired. -/
structure Outcome (T S : Type*) where
  card : Card T S
  answered : Finset Accel
  setState : Option (Finset Modification)
  acquired : Bool

section Check

variable {S : Type*} [DecidableEq S]

def clipLow (s : CardState S) : CardState S :=
  let s := if s.clip.x1 < 0 then {s with clip := {s.clip with x1 := 0}}.modify .clip else s
  if s.clip.y1 < 0 then {s with clip := {s.clip with y1 := 0}}.modify .clip else s

def clipHigh (s : CardState S) (cx2 cy2 : ℤ) : CardState S :=
  let s := if s.clip.x2 > cx2 then
    {s with clip := {s.clip with x2 := cx2, x1 := min s.clip.x1 cx2}}.modify .clip else s
  if s.clip.y2 > cy2 then
    {s with clip := {s.clip with y2 := cy2, y1 := min s.clip.y1 cy2}}.modify .clip else s

def missing (s : CardState S) (accel : Accel) : Bool :=
  accel.blitting && (s.source.isNone || s.masked && s.sourceMask.isNone ||
    accel = .blit2 && s.source2.isNone)

/-- The part before the skirmishs are taken, with whether it goes on. -/
def enter (d : Device) (surfaces : S → CoreSurface) (s : CardState S) (accel : Accel)
    (a : Answers) : Bool × CardState S :=
  if d.taskManager then (false,s)
  else
    let s := clipLow s
    match s.destination with
    | none => (false,s)
    | some dst =>
      if (surfaces dst).numBuffers = 0 then (false,s)
      else if missing s accel then (false,s)
      else
        let s := clipHigh s ((surfaces dst).w-1) ((surfaces dst).h-1)
        (d.checkState && accel ∉ s.disabled && !a.shutdown,s)

/-- The checked functions that are left of `checked`. -/
def invalidate (modified : Finset Modification) (checked : Finset Accel) : Finset Accel :=
  if .destination ∈ modified ∨ .srcBlend ∈ modified ∨ .dstBlend ∈ modified ∨
      .renderOptions ∈ modified then ∅
  else
    let checked :=
      if .source ∈ modified ∨ .blittingFlags ∈ modified ∨ .sourceMask ∈ modified ∨
        .sourceMaskVals ∈ modified then checked \ Accel.allBlit
      else if .source2 ∈ modified then checked.erase .blit2
      else checked
    if .drawingFlags ∈ modified then checked \ Accel.allDraw else checked

def prepare (surfaces : S → CoreSurface) (s : CardState S) : CardState S :=
  let s := s.updateDestination surfaces
  {s with checked := invalidate s.modified s.checked}

def updateSources (surfaces : S → CoreSurface) (s : CardState S) (accel : Accel) : CardState S :=
  if accel.blitting then
    let s := s.updateSource surfaces
    let s := if s.masked then s.updateSourceMask surfaces else s
    if accel = .blit2 then s.updateSource2 surfaces else s
  else s

/-- The driver's `CheckState`, if the function needs it, with the functions it answers. -/
def checkState (s : CardState S) (accel : Accel) (a : Answers) : CardState S × Finset Accel :=
  if accel ∈ s.checked then (s,∅)
  else
    let enabled := (s.accel ∩ s.checked) \ a.removed ∪ a.added
    ({s with accel := enabled, checked := insert accel s.checked ∪ enabled},insert accel a.added)

def moveModified (s : CardState S) : CardState S :=
  {s with modHw := s.modHw ∪ s.modified, modified := ∅}

def check (surfaces : S → CoreSurface) (s : CardState S) (accel : Accel) (a : Answers) :
    CardState S × Finset Accel :=
  let r := checkState (updateSources surfaces (prepare surfaces s) accel) accel a
  (moveModified r.1,r.2)

end Check

section Acquire

variable {T S : Type*} [DecidableEq T] [DecidableEq S]

def Card.put (c : Card T S) (t : T) (s : CardState S) : Card T S :=
  {c with states := Function.update c.states t s}

def locks (s : CardState S) (accel : Accel) : List (Option S) :=
  s.destination::if accel.blitting then
    s.source::(if s.masked then [s.sourceMask] else [])++(if accel = .blit2 then [s.source2] else [])
  else []

/-- `fusion_skirmish_prevail_multi`. -/
def Card.prevail (c : Card T S) (l : List S) : Card T S :=
  {c with skirmish := fun u => c.skirmish u+l.count u}

/-- `fusion_skirmish_dismiss_multi`. -/
def Card.dismiss (c : Card T S) (l : List S) : Card T S :=
  {c with skirmish := fun u => c.skirmish u-l.count u}

/-- `dfb_surface_buffer_lock`. -/
def Card.lockBuffer (c : Card T S) (u : S) : Card T S :=
  {c with locked := Function.update c.locked u (c.locked u+1)}

/-- `dfb_surface_unlock_buffer`. -/
def Card.unlockBuffer (c : Card T S) (u : S) : Card T S :=
  {c with locked := Function.update c.locked u (c.locked u-1)}

/-- `Core_PushIdentity`. -/
def Card.pushIdentity (c : Card T S) : Card T S := {c with identity := c.identity+1}

/-- `Core_PopIdentity`. -/
def Card.popIdentity (c : Card T S) : Card T S := {c with identity := c.identity-1}

def Card.unwind (c : Card T S) (l : List S) : Card T S := c.popIdentity.dismiss l

def Card.setFlag (c : Card T S) (t : T) (flag : LockFlag) : Card T S :=
  c.put t {c.states t with flags := insert flag (c.states t).flags}

def Card.unlockFlagged (c : Card T S) (t : T) (flag : LockFlag) (surface : Option S) :
    Option (Card T S) :=
  if flag ∈ (c.states t).flags then
    surface.map fun u =>
      (c.unlockBuffer u).put t {c.states t with flags := (c.states t).flags.erase flag}
  else some c

def Card.unlockBuffers (c : Card T S) (t : T) : Option (Card T S) :=
  let s := c.states t
  s.destination.bind fun dst => ((c.unlockBuffer dst).unlockFlagged t .source s.source).bind fun c =>
    (c.unlockFlagged t .sourceMask s.sourceMask).bind fun c => c.unlockFlagged t .source2 s.source2

/-- The buffers of the sources, with those of the destination locked. The answer tells whether all
are locked. -/
def lockSources (d : Device) (c : Card T S) (t : T) (accel : Accel) (a : Answers) (dst : S)
    (l : List S) : Option (Bool × Card T S) :=
  let s := c.states t
  s.source.bind fun src =>
  let c := if a.srcSystemonly && !d.readSysmem then
    c.put t {s with accel := s.accel \ Accel.allBlit, checked := s.checked ∪ Accel.allBlit} else c
  if !a.lockSrc then some (false,(c.unlockBuffer dst).unwind l)
  else
    let c := c.lockBuffer src
    (if s.masked then s.sourceMask.map fun mask =>
      if !a.lockMask then (false,((c.unlockBuffer src).unlockBuffer dst).unwind l)
      else (true,(c.lockBuffer mask).setFlag t .sourceMask)
    else some (true,c)).bind fun r =>
    if !r.1 then some r
    else
      let c := r.2
      (if accel = .blit2 then s.source2.bind fun source2 =>
        if !a.lockSrc2 then
          (c.unlockFlagged t .sourceMask s.sourceMask).map fun c =>
            (false,((c.unlockBuffer src).unlockBuffer dst).unwind l)
        else some (true,(c.lockBuffer source2).setFlag t .source2)
      else some (true,c)).map fun r => if !r.1 then r else (true,r.2.setFlag t .source)

/-- The part inside the skirmishs, up to their dismissal. -/
def lockBuffers (d : Device) (c : Card T S) (t : T) (accel : Accel) (a : Answers) (l : List S) :
    Option (Bool × Card T S) :=
  let s := c.states t
  let c := c.pushIdentity
  s.destination.bind fun dst =>
  if a.dstSystemonly && !(d.readSysmem && d.writeSysmem) || !d.renderOpts && s.matrix then
    some (false,(c.put t {s with accel := ∅, checked := Accel.all}).unwind l)
  else if accel ∉ s.accel then some (false,c.unwind l)
  else if !a.lockDst then some (false,c.unwind l)
  else
    let c := c.lockBuffer dst
    (if accel.blitting then lockSources d c t accel a dst l else some (true,c)).map fun r =>
      if !r.1 then r else (true,r.2.dismiss l)

/-- The part under the lock of the card, with what `SetState` was given. -/
def setState (c : Card T S) (t : T) (accel : Accel) (a : Answers) :
    Card T S × Option (Finset Modification) :=
  let s := c.states t
  let s := if c.state ≠ some t then {s with modHw := s.modHw ∪ Modification.all, set := ∅} else s
  let s := {s with modHw := s.modHw ∪ s.modified}
  let c := {c with state := some t}
  if s.modHw ≠ ∅ ∨ accel ∉ s.set then
    (c.put t {s with modHw := a.hw, set := a.set, modified := ∅},some s.modHw)
  else (c.put t {s with modified := ∅},none)

/-- `dfb_gfxcard_state_check_acquire`. It does not return where the skirmishs are not got, or where
a surface is missing that it looks into. -/
def checkAcquire (d : Device) (c : Card T S) (t : T) (accel : Accel) (a : Answers) :
    Option (Outcome T S) :=
  let l := locks (c.states t) accel
  let r := enter d c.surfaces (c.states t) accel a
  if !r.1 then some ⟨c.put t r.2,∅,none,false⟩
  else (l.mapM id).bind fun l =>
    if !a.prevail then none
    else
      let c := c.prevail l
      let checked := check c.surfaces r.2 accel a
      (lockBuffers d (c.put t checked.1) t accel a l).bind fun r =>
      if !r.1 then some ⟨r.2,checked.2,none,false⟩
      else if !a.lockCard then
        (r.2.unlockBuffers t).map fun c : Card T S => ⟨c.popIdentity,checked.2,none,false⟩
      else
        let c := {r.2 with lock := r.2.lock+1}
        let set := setState c t accel a
        some ⟨set.1,checked.2,set.2,true⟩

/-- `dfb_gfxcard_state_release`. -/
def release (c : Card T S) (t : T) : Option (Card T S) :=
  ({c with lock := c.lock-1}.unlockBuffers t).map fun c : Card T S => c.popIdentity

end Acquire

end DirectFB.StateAcquire
