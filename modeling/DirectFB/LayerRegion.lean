import DirectFB.LayerConfig
import DirectFB.Reaches
import DirectFB.Region
import DirectFB.Types

/-! A region of a layer: five bits of state, and what the driver has of it. -/
namespace DirectFB.LayerRegion
open Transition LayerConfig

/-- What a region needs of a `CoreSurface`. -/
structure CoreSurface where
  id : ℕ
  w : ℤ
  h : ℤ
  format : ℕ
  colorspace : ℕ
  numBuffers : ℕ
  rotation : ℕ
  stereo : Bool
  deriving DecidableEq

/-- `CoreLayerRegion`, with a field for each `CLRSF_`, and whether it has `region_data`. -/
structure CoreLayerRegion where
  configured : Bool
  enabled : Bool
  active : Bool
  realized : Bool
  frozen : Bool
  config : CoreLayerRegionConfig
  surface : Option CoreSurface
  regionData : Bool

/-- The region and what is around it: how often it is in `added_regions`, the configuration and
surface of the last `SetRegion` that succeeded, and how often the region, the surfaces and their
buffers (those of the right eye apart) are locked. -/
structure State where
  region : CoreLayerRegion
  added : ℕ
  driver : Option (CoreLayerRegionConfig × Option CoreSurface)
  lock : ℕ
  surfaceLocks : ℕ → ℕ
  bufferLocks : ℕ × Bool → ℤ

/-- Which functions the driver has, and whether it has data of its own for a region. -/
structure DisplayLayerFuncs where
  regionData : Bool
  updateRegion : Bool

structure Outcome where
  testRegion : DirectResult := .ok
  memory : Bool := true
  addRegion : DirectResult := .ok
  removeRegion : DirectResult := .ok
  setLeft : DirectResult := .ok
  setRight : DirectResult := .ok
  setRegion : DirectResult := .ok
  flipLeft : DirectResult := .ok
  flipRight : DirectResult := .ok
  flipRegion : DirectResult := .ok
  updateRegion : DirectResult := .ok

/-- The `DFBSurfaceFlipFlags` that decide what is done. -/
structure FlipFlags where
  blit : Bool := false
  swap : Bool := false
  update : Bool := false

namespace State

/-- `dfb_layer_region_lock` -/
def lockRegion (x : State) : State := {x with lock := x.lock+1}

/-- `dfb_layer_region_unlock` -/
def unlockRegion (x : State) : State := {x with lock := x.lock-1}

/-- `dfb_surface_lock` -/
def lockSurface (x : State) (s : CoreSurface) : State :=
  {x with surfaceLocks := Function.update x.surfaceLocks s.id (x.surfaceLocks s.id+1)}

/-- `dfb_surface_unlock` -/
def unlockSurface (x : State) (s : CoreSurface) : State :=
  {x with surfaceLocks := Function.update x.surfaceLocks s.id (x.surfaceLocks s.id-1)}

def addBufferLock (x : State) (s : CoreSurface) (right : Bool) (n : ℤ) : State :=
  {x with bufferLocks :=
    Function.update x.bufferLocks (s.id,right) (x.bufferLocks (s.id,right)+n)}

/-- `region_buffer_lock`, with what locking the left and the right buffer answers. -/
def regionBufferLock (x : State) (s : CoreSurface) (left right : DirectResult) :
    State × DirectResult :=
  if left ≠ .ok then (x,left)
  else
    let y := x.addBufferLock s false 1
    if s.stereo then if right ≠ .ok then (y,right) else (y.addBufferLock s true 1,.ok)
    else (y,.ok)

/-- `region_buffer_unlock`, of the locks that `region_buffer_lock` was given. -/
def regionBufferUnlock (x : State) (s : CoreSurface) : State :=
  let y := x.addBufferLock s false (-1)
  if s.stereo then y.addBufferLock s true (-1) else y

def setDriver (x : State) (config : CoreLayerRegionConfig) (surface : Option CoreSurface) : State :=
  {x with driver := some (config,surface)}

/-- `dfb_layer_region_set`, once the buffers are locked. -/
def callSetRegion (x : State) (config : CoreLayerRegionConfig) (surface : Option CoreSurface)
    (o : Outcome) : State × DirectResult :=
  if o.setRegion = .ok then (x.setDriver config surface,.ok) else (x,o.setRegion)

/-- `dfb_layer_region_set` -/
def regionSet (x : State) (config : CoreLayerRegionConfig) (flags : ConfigFlags)
    (surface : Option CoreSurface) (o : Outcome) : State × DirectResult :=
  if x.region.frozen then (x,.ok)
  else
    match surface with
    | none => x.callSetRegion config surface o
    | some s =>
      if flags.locking then
        let r := (x.lockSurface s).regionBufferLock s o.setLeft o.setRight
        let y := r.1.unlockSurface s
        if r.2 ≠ .ok then (y,r.2)
        else
          let r' := y.callSetRegion config surface o
          (r'.1.regionBufferUnlock s,r'.2)
      else x.callSetRegion config surface o

/-- `dfb_layer_region_unrealize`, which goes on where `RemoveRegion` fails. -/
def unrealize (x : State) (_ : Outcome) : State × DirectResult :=
  ({x with
    added := x.added-1
    region := {x.region with regionData := false, realized := false, frozen := true}},.ok)

def add (x : State) (funcs : DisplayLayerFuncs) : State :=
  {x with
    added := x.added+1
    region := {x.region with regionData := funcs.regionData, realized := true}}

/-- `dfb_layer_region_realize` -/
def realize (funcs : DisplayLayerFuncs) (x : State) (o : Outcome) : State × DirectResult :=
  if x.region.frozen then (x,.ok)
  else if funcs.regionData = true ∧ o.memory = false then (x,.noLocalMemory)
  -- `region_data` is freed again
  else if o.addRegion ≠ .ok then ({x with region := {x.region with regionData := false}},o.addRegion)
  else
    let y := x.add funcs
    let r := y.regionSet y.region.config ConfigFlags.all y.region.surface o
    if r.2 ≠ .ok then ((r.1.unrealize o).1,r.2) else (r.1,.ok)

def setActive (x : State) (active : Bool) : State :=
  {x with region := {x.region with active := active}}

def setEnabled (x : State) (enabled : Bool) : State :=
  {x with region := {x.region with enabled := enabled}}

def setFrozen (x : State) (frozen : Bool) : State :=
  {x with region := {x.region with frozen := frozen}}

/-- `dfb_layer_region_activate` -/
def activate (funcs : DisplayLayerFuncs) (x : State) (o : Outcome) : State × DirectResult :=
  let y := x.lockRegion
  if y.region.active then (y.unlockRegion,.ok)
  else
    let r : State × DirectResult := if y.region.enabled then y.realize funcs o else (y,.ok)
    if r.2 ≠ .ok then (r.1.unlockRegion,r.2) else ((r.1.setActive true).unlockRegion,.ok)

/-- `dfb_layer_region_deactivate` -/
def deactivate (x : State) (o : Outcome) : State × DirectResult :=
  let y := x.lockRegion
  if y.region.active = false then (y.unlockRegion,.ok)
  else
    let r : State × DirectResult := if y.region.realized then y.unrealize o else (y,.ok)
    if r.2 ≠ .ok then (r.1.unlockRegion,r.2) else ((r.1.setActive false).unlockRegion,.ok)

/-- `dfb_layer_region_enable` -/
def enable (funcs : DisplayLayerFuncs) (x : State) (o : Outcome) : State × DirectResult :=
  let y := x.lockRegion
  if y.region.enabled then (y.unlockRegion,.ok)
  else
    let r : State × DirectResult := if y.region.active then y.realize funcs o else (y,.ok)
    if r.2 ≠ .ok then (r.1.unlockRegion,r.2) else ((r.1.setEnabled true).unlockRegion,.ok)

/-- `dfb_layer_region_disable`, which would not unlock the region where unrealizing it failed. -/
def disable (x : State) (o : Outcome) : State × DirectResult :=
  let y := x.lockRegion
  if y.region.enabled = false then (y.unlockRegion,.ok)
  else
    let r : State × DirectResult := if y.region.realized then y.unrealize o else (y,.ok)
    if r.2 ≠ .ok then (r.1,r.2) else ((r.1.setEnabled false).unlockRegion,.ok)

/-- `dfb_layer_region_set_surface` -/
def setSurface (x : State) (surface : CoreSurface) (o : Outcome) : State × DirectResult :=
  let y := x.lockRegion
  if y.region.surface = some surface then (y.unlockRegion,.ok)
  else
    let r : State × DirectResult :=
      if y.region.realized then
        y.regionSet y.region.config {surface := true, palette := true} (some surface) o
      else (y,.ok)
    if r.2 ≠ .ok then (r.1.unlockRegion,r.2)
    else
      (unlockRegion {r.1 with region := {r.1.region with surface := some surface}},.ok)

/-- `dfb_layer_region_set_configuration` -/
def setConfiguration (x : State) (config : CoreLayerRegionConfig) (flags : ConfigFlags)
    (o : Outcome) : State × DirectResult :=
  let y := x.lockRegion
  let new := y.region.config.updated config flags
  if o.testRegion ≠ .ok then (y.unlockRegion,o.testRegion)
  else
    let z := if flags.freeze then y.setFrozen true else y
    let r : State × DirectResult :=
      if z.region.realized = true ∧ z.region.frozen = false then
        z.regionSet new flags z.region.surface o
      else (z,.ok)
    if r.2 ≠ .ok then (r.1.unlockRegion,r.2)
    else
      (unlockRegion {r.1 with region := {r.1.region with config := new, configured := true}},.ok)

/-- The part of `dfb_layer_region_flip_update` that unfreezes the region. -/
def unfreeze (funcs : DisplayLayerFuncs) (x : State) (surface : CoreSurface) (o : Outcome) :
    State × DirectResult :=
  if x.region.frozen then
    let y := x.setFrozen false
    if y.region.realized then y.regionSet y.region.config ConfigFlags.all (some surface) o
    else if y.region.enabled && y.region.active then y.realize funcs o
    else (y,.ok)
  else (x,.ok)

end State

def whole (s : CoreSurface) : Option Region → Bool
  | none => true
  | some u => u.x1 = 0 && u.y1 = 0 && u.x2 = s.w-1 && u.y2 = s.h-1

def swaps (s : CoreSurface) (update : Option Region) (flags : FlipFlags) : Bool :=
  flags.swap || !flags.blit && s.rotation = 0 && whole s update

/-- What there is to be done for a flip: the buffers are swapped, the driver is told about an
update, or the buffer mode is none to be flipped in. -/
inductive FlipKind
  | swap | update | bug
  deriving DecidableEq

def flipKind (mode : BufferMode) (s : CoreSurface) (update : Option Region) (flags : FlipFlags) :
    FlipKind :=
  if flags.update then .update
  else
    match mode with
    | .triple | .backVideo => if swaps s update flags then .swap else .update
    | .backSystem | .frontOnly => .update
    | .windows | .unknown => .bug

namespace State

/-- The flip, with the surface locked. -/
def flip (funcs : DisplayLayerFuncs) (x : State) (s : CoreSurface) (o : Outcome) :
    FlipKind → State × DirectResult
  | .swap =>
    if x.region.realized then
      let r := x.regionBufferLock s o.flipLeft o.flipRight
      if r.2 ≠ .ok then r else (r.1.regionBufferUnlock s,o.flipRegion)
    else (x,.ok)
  | .update =>
    if funcs.updateRegion && x.region.realized then
      -- the result is not looked at, so that a lock may be released that was not obtained
      (((x.regionBufferLock s o.flipLeft o.flipRight).1).regionBufferUnlock s,o.updateRegion)
    else (x,.ok)
  | .bug => (x,.bug)

/-- `dfb_layer_region_flip_update` and `dfb_layer_region_flip_update_stereo`, with the region
locked and the kind of region checked. -/
def flipLocked (funcs : DisplayLayerFuncs) (x : State) (update : Option Region) (flags : FlipFlags)
    (o : Outcome) : State × DirectResult :=
  match x.region.surface with
  | none => (x.unlockRegion,.unsupported)
  | some s =>
    let r := x.unfreeze funcs s o
    if r.2 ≠ .ok then (r.1.unlockRegion,r.2)
    else
      let y := r.1.lockSurface s
      let r' := y.flip funcs s o (flipKind y.region.config.buffermode s update flags)
      ((r'.1.unlockSurface s).unlockRegion,r'.2)

/-- `dfb_layer_region_flip_update_stereo` -/
def flipUpdateStereo (funcs : DisplayLayerFuncs) (x : State) (update : Option Region)
    (flags : FlipFlags) (o : Outcome) : State × DirectResult :=
  let y := x.lockRegion
  if y.region.config.options.stereo = false then (y.unlockRegion,.unsupported)
  else y.flipLocked funcs update flags o

/-- `dfb_layer_region_flip_update`, without the task manager. -/
def flipUpdate (funcs : DisplayLayerFuncs) (x : State) (update : Option Region)
    (flags : FlipFlags) (o : Outcome) : State × DirectResult :=
  let y := x.lockRegion
  if y.region.config.options.stereo then
    let r := y.flipUpdateStereo funcs update flags o
    (r.1.unlockRegion,r.2)
  else y.flipLocked funcs update flags o

end State

inductive Call
  | activate
  | deactivate
  | enable
  | disable
  | setSurface (surface : CoreSurface)
  | setConfiguration (config : CoreLayerRegionConfig) (flags : ConfigFlags)
  | flipUpdate (update : Option Region) (flags : FlipFlags)

def perform (funcs : DisplayLayerFuncs) (x : State) (o : Outcome) : Call → State × DirectResult
  | .activate => x.activate funcs o
  | .deactivate => x.deactivate o
  | .enable => x.enable funcs o
  | .disable => x.disable o
  | .setSurface surface => x.setSurface surface o
  | .setConfiguration config flags => x.setConfiguration config flags o
  | .flipUpdate update flags => x.flipUpdate funcs update flags o

def Call.asserted (x : State) : Call → Bool
  | .setConfiguration config _ => config.buffermode ≠ .windows
  | .flipUpdate _ _ =>
    match x.region.surface with
    | some s => x.region.config.options.stereo || !s.stereo
    | none => true
  | _ => true

def step (funcs : DisplayLayerFuncs) (x : State) (e : Call × Outcome) : Option State :=
  if e.1.asserted x then some (perform funcs x e.2 e.1).1 else none

structure Configured (x : State) : Prop where
  configured : x.region.configured = true
  enabled : x.region.enabled = false
  realized : x.region.realized = false
  frozen : x.region.frozen = true
  regionData : x.region.regionData = false
  added : x.added = 0

def Pair (s : CoreSurface) (left right : DirectResult) : Prop :=
  s.stereo = true → left = .ok → right = .ok

def Locked (s : CoreSurface) (left right : DirectResult) : Prop :=
  left = .ok ∧ (s.stereo = true → right = .ok)

def Unfrozen (funcs : DisplayLayerFuncs) (x : State) (s : CoreSurface) (o : Outcome) : Prop :=
  x.region.frozen = true →
    if x.region.realized then
      x.driver = some (x.region.config,some s) ∨ Locked s o.setLeft o.setRight ∧ o.setRegion = .ok
    else x.region.enabled = true → x.region.active = true →
      (funcs.regionData = true → o.memory = true) ∧ o.addRegion = .ok

/-- No lock of a right buffer fails where the left one is locked, a flip that unfreezes the
region is taken by the driver, and no lock fails for `UpdateRegion`. -/
def Kept (funcs : DisplayLayerFuncs) (x : State) (e : Call × Outcome) : Prop :=
  (∀ s, (x.region.surface = some s ∨ e.1 = .setSurface s) →
    Pair s e.2.setLeft e.2.setRight ∧ Pair s e.2.flipLeft e.2.flipRight) ∧
  match e.1 with
  | .flipUpdate update flags => ∀ s, x.region.surface = some s →
    Unfrozen funcs x s e.2 ∧
      (flipKind x.region.config.buffermode s update flags = .update → funcs.updateRegion = true →
        Locked s e.2.flipLeft e.2.flipRight)
  | _ => True

/-- The state bits of the region, its place in `added_regions` and what the driver has. -/
structure Good (r : CoreLayerRegion) (added : ℕ)
    (driver : Option (CoreLayerRegionConfig × Option CoreSurface)) : Prop where
  realized : r.realized = true → r.enabled = true ∧ r.active = true ∧ added = 1
  unrealized : r.realized = false → added = 0 ∧ r.regionData = false
  shown : r.enabled = true → r.active = true → r.frozen = false → r.realized = true
  set : r.realized = true → r.frozen = false → driver = some (r.config,r.surface)

def Inv (x : State) : Prop := Good x.region x.added x.driver

structure Balanced (x y : State) : Prop where
  lock : y.lock = x.lock
  surfaceLocks : y.surfaceLocks = x.surfaceLocks
  bufferLocks : y.bufferLocks = x.bufferLocks

namespace State

section Locks
variable {x : State} {s : CoreSurface} {left right : DirectResult}

theorem addBufferLock_undo (x : State) (s : CoreSurface) (eye : Bool) :
    (x.addBufferLock s eye 1).addBufferLock s eye (-1) = x := by
  unfold addBufferLock
  dsimp only
  rw [Function.update_idem,Function.update_self,Int.add_neg_cancel_right,Function.update_eq_self]

theorem addBufferLock_comm (x : State) (s : CoreSurface) (m n : ℤ) :
    (x.addBufferLock s true m).addBufferLock s false n =
      (x.addBufferLock s false n).addBufferLock s true m := by
  have hne : (s.id,true) ≠ (s.id,false) := by simp
  unfold addBufferLock
  dsimp only
  rw [Function.update_of_ne hne.symm,Function.update_of_ne hne,Function.update_comm hne]

/-- What was locked is unlocked. -/
theorem bufferLock_undo (x : State) (s : CoreSurface) (left right : DirectResult)
    (h : (x.regionBufferLock s left right).2 = .ok) :
    (x.regionBufferLock s left right).1.regionBufferUnlock s = x := by
  unfold regionBufferLock at h ⊢
  unfold regionBufferUnlock
  dsimp only at h ⊢
  by_cases hleft : left ≠ .ok
  · rw [if_pos hleft] at h
    exact absurd h hleft
  rw [if_neg hleft] at h ⊢
  by_cases hstereo : s.stereo = true
  · rw [if_pos hstereo] at h ⊢
    by_cases hright : right ≠ .ok
    · rw [if_pos hright] at h
      exact absurd h hright
    · rw [if_neg hright,if_pos hstereo,addBufferLock_comm,addBufferLock_undo,addBufferLock_undo]
  · rw [if_neg hstereo,if_neg hstereo]
    exact addBufferLock_undo x s false

theorem bufferLock_failed (x : State) (hpair : Pair s left right)
    (h : (x.regionBufferLock s left right).2 ≠ .ok) :
    (x.regionBufferLock s left right).1 = x := by
  unfold regionBufferLock at h ⊢
  dsimp only at h ⊢
  by_cases hleft : left ≠ .ok
  · rw [if_pos hleft]
  rw [if_neg hleft] at h ⊢
  by_cases hstereo : s.stereo = true
  · have hright := hpair hstereo (not_not.mp hleft)
    rw [if_pos hstereo,if_neg (not_not_intro hright)] at h
    exact absurd rfl h
  · rw [if_neg hstereo] at h
    exact absurd rfl h

theorem bufferLock_locked (x : State) (h : Locked s left right) :
    (x.regionBufferLock s left right).2 = .ok := by
  unfold regionBufferLock
  dsimp only
  rw [if_neg (not_not_intro h.1)]
  split_ifs with hstereo hright
  · exact absurd (h.2 hstereo) hright
  · rfl
  · rfl

theorem bufferUnlock_surface (x : State) (s : CoreSurface) :
    (x.unlockSurface s).regionBufferUnlock s = (x.regionBufferUnlock s).unlockSurface s := by
  unfold regionBufferUnlock
  dsimp only
  split_ifs
  · rfl
  · rfl

theorem bufferUnlock_driver (x : State) (s : CoreSurface) (config : CoreLayerRegionConfig)
    (surface : Option CoreSurface) : (x.setDriver config surface).regionBufferUnlock s =
      (x.regionBufferUnlock s).setDriver config surface := by
  unfold regionBufferUnlock
  dsimp only
  split_ifs
  · rfl
  · rfl

theorem lockSurface_undo (x : State) (s : CoreSurface) : (x.lockSurface s).unlockSurface s = x := by
  unfold lockSurface unlockSurface
  dsimp only
  rw [Function.update_idem,Function.update_self,Nat.add_sub_cancel,Function.update_eq_self]

end Locks

section Driver
variable {x : State} {config : CoreLayerRegionConfig} {flags : ConfigFlags}
  {surface : Option CoreSurface} {o : Outcome} {funcs : DisplayLayerFuncs}

/-- `SetRegion` succeeds, or nothing is changed. -/
theorem callSetRegion_cases (x : State) (config : CoreLayerRegionConfig)
    (surface : Option CoreSurface) (o : Outcome) :
    (x.callSetRegion config surface o).2 = .ok ∧
        (x.callSetRegion config surface o).1 = x.setDriver config surface ∨
      (x.callSetRegion config surface o).2 ≠ .ok ∧ (x.callSetRegion config surface o).1 = x ∧
        o.setRegion ≠ .ok := by
  unfold callSetRegion
  split_ifs with hok
  · exact .inl ⟨rfl,rfl⟩
  · exact .inr ⟨hok,rfl,hok⟩

/-- The driver has the configuration, or nothing is changed, be it that the region is frozen. -/
theorem regionSet_cases (x : State) (config : CoreLayerRegionConfig) (flags : ConfigFlags)
    (surface : Option CoreSurface) (o : Outcome)
    (hpair : ∀ s, surface = some s → Pair s o.setLeft o.setRight) :
    (x.regionSet config flags surface o).2 = .ok ∧ x.region.frozen = false ∧
        (x.regionSet config flags surface o).1 = x.setDriver config surface ∨
      (x.regionSet config flags surface o).2 = .ok ∧ x.region.frozen = true ∧
        (x.regionSet config flags surface o).1 = x ∨
      (x.regionSet config flags surface o).2 ≠ .ok ∧ (x.regionSet config flags surface o).1 = x ∧
        ¬ ((∀ s, surface = some s → Locked s o.setLeft o.setRight) ∧ o.setRegion = .ok) := by
  unfold regionSet
  by_cases hfrozen : x.region.frozen = true
  · rw [if_pos hfrozen]
    exact .inr (.inl ⟨rfl,hfrozen,rfl⟩)
  rw [if_neg hfrozen]
  have hthawed := Bool.eq_false_of_not_eq_true hfrozen
  cases surface with
  | none =>
    obtain ⟨hret,hset⟩ | ⟨hret,hset,hfail⟩ := callSetRegion_cases x config none o
    · exact .inl ⟨hret,hthawed,hset⟩
    · exact .inr (.inr ⟨hret,hset,fun hok => hfail hok.2⟩)
  | some s =>
    dsimp only
    by_cases hlocking : flags.locking = true
    · rw [if_pos hlocking]
      have hlocked : Locked s o.setLeft o.setRight → _ := bufferLock_locked (x.lockSurface s)
      have hundo := bufferLock_undo (x.lockSurface s) s o.setLeft o.setRight
      have hfailed := bufferLock_failed (x.lockSurface s) (hpair s rfl)
      generalize (x.lockSurface s).regionBufferLock s o.setLeft o.setRight = r at hlocked hundo hfailed
      by_cases hr : r.2 = .ok
      · have hunlocked : (r.1.unlockSurface s).regionBufferUnlock s = x := by
          rw [bufferUnlock_surface,hundo hr,lockSurface_undo]
        rw [if_neg (not_not_intro hr)]
        obtain ⟨hret,hset⟩ | ⟨hret,hset,hfail⟩ :=
          callSetRegion_cases (r.1.unlockSurface s) config (some s) o
        · refine .inl ⟨hret,hthawed,?_⟩
          rw [hset]
          exact (bufferUnlock_driver _ s config (some s)).trans
            (congrArg (fun y => setDriver y config (some s)) hunlocked)
        · refine .inr (.inr ⟨hret,?_,fun hok => hfail hok.2⟩)
          rw [hset]
          exact hunlocked
      · rw [if_pos hr,hfailed hr,lockSurface_undo]
        exact .inr (.inr ⟨hr,rfl,fun hok => hr (hlocked (hok.1 s rfl))⟩)
    · rw [if_neg hlocking]
      obtain ⟨hret,hset⟩ | ⟨hret,hset,hfail⟩ := callSetRegion_cases x config (some s) o
      · exact .inl ⟨hret,hthawed,hset⟩
      · exact .inr (.inr ⟨hret,hset,fun hok => hfail hok.2⟩)

/-- The ways to realize a region: it is frozen, the driver does not add it, it is removed again
as it cannot be set, or it is set. -/
theorem realize_cases (x : State) (funcs : DisplayLayerFuncs) (o : Outcome)
    (hpair : ∀ s, x.region.surface = some s → Pair s o.setLeft o.setRight)
    (hdata : x.region.regionData = false) :
    (x.realize funcs o).2 = .ok ∧ x.region.frozen = true ∧ (x.realize funcs o).1 = x ∨
      (x.realize funcs o).2 ≠ .ok ∧ (x.realize funcs o).1 = x ∧
        ¬ ((funcs.regionData = true → o.memory = true) ∧ o.addRegion = .ok) ∨
      (x.realize funcs o).2 ≠ .ok ∧ (x.realize funcs o).1 = ((x.add funcs).unrealize o).1 ∨
      (x.realize funcs o).2 = .ok ∧ x.region.frozen = false ∧
        (x.realize funcs o).1 = (x.add funcs).setDriver x.region.config x.region.surface := by
  unfold realize
  by_cases hfrozen : x.region.frozen = true
  · rw [if_pos hfrozen]
    exact .inl ⟨rfl,hfrozen,rfl⟩
  rw [if_neg hfrozen]
  by_cases hmemory : funcs.regionData = true ∧ o.memory = false
  · rw [if_pos hmemory]
    refine .inr (.inl ⟨fun hret => (by cases hret),rfl,fun hok => ?_⟩)
    rw [hok.1 hmemory.1] at hmemory
    exact Bool.noConfusion hmemory.2
  rw [if_neg hmemory]
  by_cases hadd : o.addRegion ≠ .ok
  · rw [if_pos hadd]
    refine .inr (.inl ⟨hadd,?_,fun hok => hadd hok.2⟩)
    change ({x with region := {x.region with regionData := false}} : State) = x
    rw [← hdata]
  rw [if_neg hadd]
  dsimp only
  have hset := regionSet_cases (x.add funcs) (x.add funcs).region.config ConfigFlags.all
    (x.add funcs).region.surface o hpair
  generalize (x.add funcs).regionSet (x.add funcs).region.config ConfigFlags.all
    (x.add funcs).region.surface o = r at hset
  obtain ⟨hret,hthawed,hr⟩ | ⟨-,hf,-⟩ | ⟨hret,hr,-⟩ := hset
  · rw [if_neg (not_not_intro hret)]
    exact .inr (.inr (.inr ⟨rfl,hthawed,hr⟩))
  · exact absurd hf hfrozen
  · rw [if_pos hret]
    refine .inr (.inr (.inl ⟨hret,?_⟩))
    rw [hr]

end Driver

end State

section Good
variable {r : CoreLayerRegion} {added : ℕ}
  {driver : Option (CoreLayerRegionConfig × Option CoreSurface)}

theorem good_unrealized (hrealized : r.realized = false) (hadded : added = 0)
    (hdata : r.regionData = false)
    (hoff : r.enabled = false ∨ r.active = false ∨ r.frozen = true) : Good r added driver := by
  refine ⟨fun hr => ?_,fun _ => ⟨hadded,hdata⟩,fun he ha hf => ?_,fun hr => ?_⟩
  · rw [hrealized] at hr
    cases hr
  · rw [he,ha,hf] at hoff
    simp at hoff
  · rw [hrealized] at hr
    cases hr

theorem good_realized (hrealized : r.realized = true) (henabled : r.enabled = true)
    (hactive : r.active = true) (hadded : added = 1)
    (hset : r.frozen = false → driver = some (r.config,r.surface)) : Good r added driver := by
  refine ⟨fun _ => ⟨henabled,hactive,hadded⟩,fun hr => ?_,fun _ _ _ => hrealized,fun _ => hset⟩
  rw [hrealized] at hr
  cases hr

theorem Good.not_realized (h : Good r added driver) (hoff : ¬ (r.enabled = true ∧ r.active = true)) :
    r.realized = false := by
  cases hr : r.realized with
  | false => rfl
  | true => exact absurd ⟨(h.realized hr).1,(h.realized hr).2.1⟩ hoff

end Good

section Operations
variable {x : State} {o : Outcome} {funcs : DisplayLayerFuncs}

theorem activate_spec (h : Inv x)
    (hpair : ∀ s, x.region.surface = some s → Pair s o.setLeft o.setRight) :
    Inv (x.activate funcs o).1 ∧ Balanced x (x.activate funcs o).1 := by
  unfold State.activate
  dsimp only
  by_cases hactive : x.lockRegion.region.active = true
  · rw [if_pos hactive]
    exact ⟨h,rfl,rfl,rfl⟩
  rw [if_neg hactive]
  have hinactive : x.region.active = false := Bool.eq_false_of_not_eq_true hactive
  have hunrealized := h.not_realized fun hon => hactive hon.2
  obtain ⟨hadded,hdata⟩ := h.unrealized hunrealized
  by_cases henabled : x.lockRegion.region.enabled = true
  · rw [if_pos henabled]
    have hcases := State.realize_cases x.lockRegion funcs o hpair hdata
    generalize x.lockRegion.realize funcs o = r at hcases
    obtain ⟨hret,hfrozen,hr⟩ | ⟨hret,hr,-⟩ | ⟨hret,hr⟩ | ⟨hret,hthawed,hr⟩ := hcases
    · rw [if_neg (not_not_intro hret),hr]
      exact ⟨good_unrealized hunrealized hadded hdata (.inr (.inr hfrozen)),rfl,rfl,rfl⟩
    · rw [if_pos hret,hr]
      exact ⟨h,rfl,rfl,rfl⟩
    · rw [if_pos hret,hr]
      exact ⟨good_unrealized rfl hadded rfl (.inr (.inr rfl)),rfl,rfl,rfl⟩
    · rw [if_neg (not_not_intro hret),hr]
      refine ⟨good_realized rfl henabled rfl ?_ fun _ => rfl,rfl,rfl,rfl⟩
      exact congrArg (· + 1) hadded
  · rw [if_neg henabled,if_neg (not_not_intro rfl)]
    exact ⟨good_unrealized hunrealized hadded hdata (.inl (Bool.eq_false_of_not_eq_true henabled)),
      rfl,rfl,rfl⟩

theorem enable_spec (h : Inv x)
    (hpair : ∀ s, x.region.surface = some s → Pair s o.setLeft o.setRight) :
    Inv (x.enable funcs o).1 ∧ Balanced x (x.enable funcs o).1 := by
  unfold State.enable
  dsimp only
  by_cases henabled : x.lockRegion.region.enabled = true
  · rw [if_pos henabled]
    exact ⟨h,rfl,rfl,rfl⟩
  rw [if_neg henabled]
  have hunrealized := h.not_realized fun hon => henabled hon.1
  obtain ⟨hadded,hdata⟩ := h.unrealized hunrealized
  by_cases hactive : x.lockRegion.region.active = true
  · rw [if_pos hactive]
    have hcases := State.realize_cases x.lockRegion funcs o hpair hdata
    generalize x.lockRegion.realize funcs o = r at hcases
    obtain ⟨hret,hfrozen,hr⟩ | ⟨hret,hr,-⟩ | ⟨hret,hr⟩ | ⟨hret,hthawed,hr⟩ := hcases
    · rw [if_neg (not_not_intro hret),hr]
      exact ⟨good_unrealized hunrealized hadded hdata (.inr (.inr hfrozen)),rfl,rfl,rfl⟩
    · rw [if_pos hret,hr]
      exact ⟨h,rfl,rfl,rfl⟩
    · rw [if_pos hret,hr]
      exact ⟨good_unrealized rfl hadded rfl (.inr (.inr rfl)),rfl,rfl,rfl⟩
    · rw [if_neg (not_not_intro hret),hr]
      refine ⟨good_realized rfl rfl hactive ?_ fun _ => rfl,rfl,rfl,rfl⟩
      exact congrArg (· + 1) hadded
  · rw [if_neg hactive,if_neg (not_not_intro rfl)]
    exact ⟨good_unrealized hunrealized hadded hdata
      (.inr (.inl (Bool.eq_false_of_not_eq_true hactive))),rfl,rfl,rfl⟩

theorem deactivate_spec (h : Inv x) : Inv (x.deactivate o).1 ∧ Balanced x (x.deactivate o).1 := by
  unfold State.deactivate
  dsimp only
  by_cases hactive : x.lockRegion.region.active = false
  · rw [if_pos hactive]
    exact ⟨h,rfl,rfl,rfl⟩
  rw [if_neg hactive]
  by_cases hrealized : x.lockRegion.region.realized = true
  · obtain ⟨-,-,hadded⟩ := h.realized hrealized
    have hret : ¬ (x.lockRegion.unrealize o).2 ≠ .ok := not_not_intro rfl
    rw [if_pos hrealized,if_neg hret]
    refine ⟨good_unrealized rfl ?_ rfl (.inr (.inl rfl)),rfl,rfl,rfl⟩
    exact congrArg (· - 1) hadded
  · obtain ⟨hadded,hdata⟩ := h.unrealized (Bool.eq_false_of_not_eq_true hrealized)
    rw [if_neg hrealized,if_neg (not_not_intro rfl)]
    exact ⟨good_unrealized (Bool.eq_false_of_not_eq_true hrealized) hadded hdata (.inr (.inl rfl)),
      rfl,rfl,rfl⟩

theorem disable_spec (h : Inv x) : Inv (x.disable o).1 ∧ Balanced x (x.disable o).1 := by
  unfold State.disable
  dsimp only
  by_cases henabled : x.lockRegion.region.enabled = false
  · rw [if_pos henabled]
    exact ⟨h,rfl,rfl,rfl⟩
  rw [if_neg henabled]
  by_cases hrealized : x.lockRegion.region.realized = true
  · obtain ⟨-,-,hadded⟩ := h.realized hrealized
    have hret : ¬ (x.lockRegion.unrealize o).2 ≠ .ok := not_not_intro rfl
    rw [if_pos hrealized,if_neg hret]
    refine ⟨good_unrealized rfl ?_ rfl (.inl rfl),rfl,rfl,rfl⟩
    exact congrArg (· - 1) hadded
  · obtain ⟨hadded,hdata⟩ := h.unrealized (Bool.eq_false_of_not_eq_true hrealized)
    rw [if_neg hrealized,if_neg (not_not_intro rfl)]
    exact ⟨good_unrealized (Bool.eq_false_of_not_eq_true hrealized) hadded hdata (.inl rfl),
      rfl,rfl,rfl⟩

theorem setSurface_spec (h : Inv x) {surface : CoreSurface}
    (hpair : Pair surface o.setLeft o.setRight) :
    Inv (x.setSurface surface o).1 ∧ Balanced x (x.setSurface surface o).1 := by
  unfold State.setSurface
  dsimp only
  by_cases hsame : x.lockRegion.region.surface = some surface
  · rw [if_pos hsame]
    exact ⟨h,rfl,rfl,rfl⟩
  rw [if_neg hsame]
  by_cases hrealized : x.lockRegion.region.realized = true
  · obtain ⟨henabled,hactive,hadded⟩ := h.realized hrealized
    rw [if_pos hrealized]
    have hcases := State.regionSet_cases x.lockRegion x.lockRegion.region.config
      {surface := true, palette := true} (some surface) o
      fun s hs => (by rwa [← Option.some.inj hs])
    generalize x.lockRegion.regionSet x.lockRegion.region.config {surface := true, palette := true}
      (some surface) o = r at hcases
    obtain ⟨hret,-,hr⟩ | ⟨hret,hfrozen,hr⟩ | ⟨hret,hr,-⟩ := hcases
    · rw [if_neg (not_not_intro hret),hr]
      exact ⟨good_realized hrealized henabled hactive hadded fun _ => rfl,rfl,rfl,rfl⟩
    · rw [if_neg (not_not_intro hret),hr]
      refine ⟨good_realized hrealized henabled hactive hadded fun hthawed => ?_,rfl,rfl,rfl⟩
      exact Bool.noConfusion (hfrozen.symm.trans hthawed)
    · rw [if_pos hret,hr]
      exact ⟨h,rfl,rfl,rfl⟩
  · have hunrealized : x.region.realized = false := Bool.eq_false_of_not_eq_true hrealized
    rw [if_neg hrealized,if_neg (not_not_intro rfl)]
    refine ⟨⟨h.realized,h.unrealized,h.shown,fun hr => ?_⟩,rfl,rfl,rfl⟩
    exact absurd hr hrealized

theorem setConfiguration_spec (h : Inv x) {config : CoreLayerRegionConfig} {flags : ConfigFlags}
    (hpair : ∀ s, x.region.surface = some s → Pair s o.setLeft o.setRight) :
    Inv (x.setConfiguration config flags o).1 ∧
      Balanced x (x.setConfiguration config flags o).1 := by
  unfold State.setConfiguration
  dsimp only
  by_cases htest : o.testRegion ≠ .ok
  · rw [if_pos htest]
    exact ⟨h,rfl,rfl,rfl⟩
  rw [if_neg htest]
  generalize hz : (if flags.freeze = true then x.lockRegion.setFrozen true else x.lockRegion) = z
  have hzlock : z.lock = x.lock+1 ∧ z.surfaceLocks = x.surfaceLocks ∧
      z.bufferLocks = x.bufferLocks := by
    rw [← hz]
    split_ifs
    · exact ⟨rfl,rfl,rfl⟩
    · exact ⟨rfl,rfl,rfl⟩
  have hzinv : Inv z := by
    rw [← hz]
    split_ifs
    · refine ⟨h.realized,h.unrealized,fun _ _ hf => (by cases hf),fun _ hf => (by cases hf)⟩
    · exact h
  have hzsurface : z.region.surface = x.region.surface := by
    rw [← hz]
    split_ifs
    · rfl
    · rfl
  obtain ⟨hlock,hslocks,hblocks⟩ := hzlock
  generalize x.lockRegion.region.config.updated config flags = new
  by_cases hset : z.region.realized = true ∧ z.region.frozen = false
  · rw [if_pos hset]
    obtain ⟨hrealized,hthawed⟩ := hset
    obtain ⟨henabled,hactive,hadded⟩ := hzinv.realized hrealized
    have hcases := State.regionSet_cases z new flags z.region.surface o (by rwa [hzsurface])
    generalize z.regionSet new flags z.region.surface o = r at hcases
    obtain ⟨hret,-,hr⟩ | ⟨-,hfrozen,-⟩ | ⟨hret,hr,-⟩ := hcases
    · rw [if_neg (not_not_intro hret),hr]
      refine ⟨good_realized hrealized henabled hactive hadded fun _ => rfl,?_,hslocks,hblocks⟩
      exact congrArg (· - 1) hlock
    · rw [hthawed] at hfrozen
      cases hfrozen
    · rw [if_pos hret,hr]
      exact ⟨hzinv,congrArg (· - 1) hlock,hslocks,hblocks⟩
  · rw [if_neg hset,if_neg (not_not_intro rfl)]
    refine ⟨⟨hzinv.realized,hzinv.unrealized,hzinv.shown,fun hr hf => ?_⟩,
      congrArg (· - 1) hlock,hslocks,hblocks⟩
    exact absurd ⟨hr,hf⟩ hset

theorem flip_same (x : State) {s : CoreSurface} {kind : FlipKind} (hpair : Pair s o.flipLeft o.flipRight)
    (hlocked : kind = .update → funcs.updateRegion = true → Locked s o.flipLeft o.flipRight) :
    (x.flip funcs s o kind).1 = x := by
  cases kind with
  | swap =>
    unfold State.flip
    dsimp only
    split_ifs with hrealized hret
    · exact State.bufferLock_failed x hpair hret
    · exact State.bufferLock_undo x s _ _ (not_not.mp hret)
    · rfl
  | update =>
    unfold State.flip
    dsimp only
    split_ifs with hupdate
    · rw [Bool.and_eq_true] at hupdate
      exact State.bufferLock_undo x s _ _ (State.bufferLock_locked x (hlocked rfl hupdate.1))
    · rfl
  | bug => rfl

theorem unfreeze_spec (h : Inv x) {s : CoreSurface} (hsurface : x.region.surface = some s)
    (hpair : Pair s o.setLeft o.setRight) (hkept : Unfrozen funcs x s o) :
    Inv (x.unfreeze funcs s o).1 ∧ Balanced x (x.unfreeze funcs s o).1 ∧
      (x.unfreeze funcs s o).1.region.config = x.region.config := by
  unfold State.unfreeze
  by_cases hfrozen : x.region.frozen = true
  · have hunfrozen := hkept hfrozen
    rw [if_pos hfrozen]
    dsimp only
    by_cases hrealized : x.region.realized = true
    · obtain ⟨henabled,hactive,hadded⟩ := h.realized hrealized
      rw [if_pos hrealized] at hunfrozen
      rw [if_pos (show (x.setFrozen false).region.realized = true from hrealized)]
      have hcases := State.regionSet_cases (x.setFrozen false) (x.setFrozen false).region.config
        ConfigFlags.all (some s) o fun s' hs => (by rwa [← Option.some.inj hs])
      generalize (x.setFrozen false).regionSet (x.setFrozen false).region.config ConfigFlags.all
        (some s) o = r at hcases
      obtain ⟨-,-,hr⟩ | ⟨-,hf,-⟩ | ⟨-,hr,hfail⟩ := hcases
      · rw [hr]
        refine ⟨good_realized hrealized henabled hactive hadded fun _ => ?_,⟨rfl,rfl,rfl⟩,rfl⟩
        change some (x.region.config,some s) = some (x.region.config,x.region.surface)
        rw [hsurface]
      · cases hf
      · -- the driver fails, but has the configuration
        obtain hdriver | ⟨hlocked,hok⟩ := hunfrozen
        · rw [hr]
          refine ⟨good_realized hrealized henabled hactive hadded fun _ => ?_,⟨rfl,rfl,rfl⟩,rfl⟩
          change x.driver = some (x.region.config,x.region.surface)
          rw [hdriver,hsurface]
        · exact absurd ⟨fun s' hs => (by rwa [← Option.some.inj hs]),hok⟩ hfail
    · have hunrealized : x.region.realized = false := Bool.eq_false_of_not_eq_true hrealized
      obtain ⟨hadded,hdata⟩ := h.unrealized hunrealized
      rw [if_neg hrealized] at hunfrozen
      rw [if_neg (show ¬ (x.setFrozen false).region.realized = true from hrealized)]
      by_cases hshown : (x.region.enabled && x.region.active) = true
      · obtain ⟨henabled,hactive⟩ := Bool.and_eq_true _ _ ▸ hshown
        rw [if_pos (show ((x.setFrozen false).region.enabled &&
          (x.setFrozen false).region.active) = true from hshown)]
        have hcases := State.realize_cases (x.setFrozen false) funcs o (fun s' hs => by
            have : s = s' := Option.some.inj (hsurface.symm.trans hs)
            rwa [← this]) hdata
        generalize (x.setFrozen false).realize funcs o = r at hcases
        obtain ⟨-,hf,-⟩ | ⟨-,-,hfail⟩ | ⟨-,hr⟩ | ⟨-,-,hr⟩ := hcases
        · cases hf
        · exact absurd (hunfrozen henabled hactive) hfail
        · rw [hr]
          exact ⟨good_unrealized rfl hadded rfl (.inr (.inr rfl)),⟨rfl,rfl,rfl⟩,rfl⟩
        · rw [hr]
          refine ⟨good_realized rfl henabled hactive ?_ fun _ => rfl,⟨rfl,rfl,rfl⟩,rfl⟩
          exact congrArg (· + 1) hadded
      · rw [if_neg (show ¬ ((x.setFrozen false).region.enabled &&
          (x.setFrozen false).region.active) = true from hshown)]
        refine ⟨good_unrealized hunrealized hadded hdata ?_,⟨rfl,rfl,rfl⟩,rfl⟩
        cases he : x.region.enabled with
        | false => exact .inl he
        | true =>
          rw [he,Bool.true_and] at hshown
          exact .inr (.inl (Bool.eq_false_of_not_eq_true hshown))
  · rw [if_neg hfrozen]
    exact ⟨h,⟨rfl,rfl,rfl⟩,rfl⟩

theorem flipLocked_spec (h : Inv x) {update : Option Region} {flags : FlipFlags}
    (hkept : ∀ s, x.region.surface = some s → Pair s o.setLeft o.setRight ∧
      Pair s o.flipLeft o.flipRight ∧ Unfrozen funcs x s o ∧
        (flipKind x.region.config.buffermode s update flags = .update → funcs.updateRegion = true →
          Locked s o.flipLeft o.flipRight)) :
    Inv (x.flipLocked funcs update flags o).1 ∧
      Balanced x.unlockRegion (x.flipLocked funcs update flags o).1 := by
  unfold State.flipLocked
  cases hsurface : x.region.surface with
  | none => exact ⟨h,rfl,rfl,rfl⟩
  | some s =>
    obtain ⟨hset,hflip,hunfrozen,hlocked⟩ := hkept s hsurface
    obtain ⟨hinv,⟨hlock,hslocks,hblocks⟩,hconfig⟩ := unfreeze_spec h hsurface hset hunfrozen
    dsimp only
    generalize x.unfreeze funcs s o = r at hinv hlock hslocks hblocks hconfig
    split_ifs with hret
    · exact ⟨hinv,congrArg (· - 1) hlock,hslocks,hblocks⟩
    · have hmode : flipKind (r.1.lockSurface s).region.config.buffermode s update flags = .update →
          funcs.updateRegion = true → Locked s o.flipLeft o.flipRight := by
        change flipKind r.1.region.config.buffermode s update flags = .update → _
        rwa [hconfig]
      have hsame := flip_same (r.1.lockSurface s) hflip hmode
      rw [hsame,State.lockSurface_undo]
      exact ⟨hinv,congrArg (· - 1) hlock,hslocks,hblocks⟩

theorem flipUpdate_spec (h : Inv x) {update : Option Region} {flags : FlipFlags}
    (hkept : ∀ s, x.region.surface = some s → Pair s o.setLeft o.setRight ∧
      Pair s o.flipLeft o.flipRight ∧ Unfrozen funcs x s o ∧
        (flipKind x.region.config.buffermode s update flags = .update → funcs.updateRegion = true →
          Locked s o.flipLeft o.flipRight)) :
    Inv (x.flipUpdate funcs update flags o).1 ∧
      Balanced x (x.flipUpdate funcs update flags o).1 := by
  unfold State.flipUpdate
  dsimp only
  split_ifs with hstereo
  · unfold State.flipUpdateStereo
    dsimp only
    have hstereo' : ¬ x.lockRegion.lockRegion.region.config.options.stereo = false := by
      rw [show x.lockRegion.lockRegion.region.config.options.stereo = true from hstereo]
      decide
    rw [if_neg hstereo']
    obtain ⟨hinv,hlock,hslocks,hblocks⟩ := flipLocked_spec (x := x.lockRegion.lockRegion) h hkept
    exact ⟨hinv,congrArg (· - 1) hlock,hslocks,hblocks⟩
  · obtain ⟨hinv,hlock,hslocks,hblocks⟩ := flipLocked_spec (x := x.lockRegion) h hkept
    exact ⟨hinv,hlock,hslocks,hblocks⟩

theorem perform_spec (h : Inv x) {call : Call} (hkept : Kept funcs x (call,o)) :
    Inv (perform funcs x o call).1 ∧ Balanced x (perform funcs x o call).1 := by
  obtain ⟨hpair,hcall⟩ := hkept
  have hset : ∀ s, x.region.surface = some s → Pair s o.setLeft o.setRight :=
    fun s hs => (hpair s (.inl hs)).1
  cases call with
  | activate => exact activate_spec h hset
  | deactivate => exact deactivate_spec h
  | enable => exact enable_spec h hset
  | disable => exact disable_spec h
  | setSurface surface => exact setSurface_spec h (hpair surface (.inr rfl)).1
  | setConfiguration config flags => exact setConfiguration_spec h hset
  | flipUpdate update flags =>
    exact flipUpdate_spec h fun s hs =>
      ⟨hset s hs,(hpair s (.inl hs)).2,(hcall s hs).1,(hcall s hs).2⟩

end Operations

/-- In all runs that meet `Kept` the state bits, `added_regions` and what the driver has belong
together, and every call leaves the locks as they were. -/
theorem region_states {funcs : DisplayLayerFuncs} {x : State}
    (h : Reaches (step funcs) (Kept funcs) Configured x) :
    Inv x ∧ ∀ call o, Kept funcs x (call,o) → Balanced x (perform funcs x o call).1 := by
  have hinv : Inv x := by
    refine h.invariant Inv (fun x hx => ?_) fun x e y hx hkept hs => ?_
    · exact good_unrealized hx.realized hx.added hx.regionData (.inl hx.enabled)
    · unfold step at hs
      split_ifs at hs
      obtain rfl := Option.some.inj hs
      exact (perform_spec hx hkept).1
  exact ⟨hinv,fun call o hkept => (perform_spec hinv hkept).2⟩

def smallConfig : CoreLayerRegionConfig :=
  ⟨8,8,0,0,{},.frontOnly,{},0,⟨0,0,8,8⟩,⟨0,0,8,8⟩,255,⟨0,0,0,0⟩,⟨0,0,0,0⟩,0,fun _ => 0,⟨[],true⟩,false⟩

def newRegion : State :=
  ⟨⟨true,false,true,false,true,smallConfig,none,false⟩,0,none,0,fun _ => 0,fun _ => 0⟩

theorem newRegion_configured : Configured newRegion := ⟨rfl,rfl,rfl,rfl,rfl,rfl⟩

def smallSurface : CoreSurface := ⟨0,8,8,0,0,1,0,false⟩

/-- The region gets a surface, is enabled and then shown by a flip. -/
theorem flipped_region : ∃ x, Reaches (step ⟨true,true⟩) (Kept ⟨true,true⟩) Configured x ∧ Inv x ∧
    x.region.realized = true ∧ x.driver = some (smallConfig,some smallSurface) ∧
    Balanced x (perform ⟨true,true⟩ x {} .disable).1 := by
  have hpair : ∀ s, Pair s .ok .ok := fun s _ _ => rfl
  have hsurface : Reaches (step ⟨true,true⟩) (Kept ⟨true,true⟩) Configured _ :=
    .step (.setSurface smallSurface,{}) (.init newRegion_configured)
      ⟨fun s _ => ⟨hpair s,hpair s⟩,trivial⟩ rfl
  have henabled : Reaches (step ⟨true,true⟩) (Kept ⟨true,true⟩) Configured _ :=
    .step (.enable,{}) hsurface ⟨fun s _ => ⟨hpair s,hpair s⟩,trivial⟩ rfl
  have hflipped : Reaches (step ⟨true,true⟩) (Kept ⟨true,true⟩) Configured _ :=
    .step (.flipUpdate none {},{}) henabled ⟨fun s _ => ⟨hpair s,hpair s⟩,
      fun s _ => ⟨fun _ _ _ => ⟨fun _ => rfl,rfl⟩,fun _ _ => ⟨rfl,fun _ => rfl⟩⟩⟩ rfl
  obtain ⟨hinv,hbalanced⟩ := region_states hflipped
  exact ⟨_,hflipped,hinv,rfl,rfl,hbalanced .disable {} ⟨fun s _ => ⟨hpair s,hpair s⟩,trivial⟩⟩

/-- The driver fails to add the region at the flip that shows it: it is enabled, active and not
frozen, and not realized. A region that is realized is frozen by a new configuration, and where
`SetRegion` then fails the driver has the old one. A failing lock of the right buffer leaves the
left one locked. -/
theorem never_shown : ∃ x y z, Reaches (step ⟨true,true⟩) (fun _ _ => True) Configured x ∧
    (x.region.enabled = true ∧ x.region.active = true ∧ x.region.frozen = false ∧
      x.region.realized = false ∧ ¬ Inv x) ∧
    Reaches (step ⟨true,true⟩) (fun _ _ => True) Configured y ∧
    (y.region.realized = true ∧ y.region.frozen = false ∧ y.region.config.opacity = 0 ∧
      y.driver = some (smallConfig,some smallSurface)) ∧
    Reaches (step ⟨true,true⟩) (fun _ _ => True) Configured z ∧ z.bufferLocks (0,false) = 1 := by
  have hsurface : Reaches (step ⟨true,true⟩) (fun _ _ => True) Configured _ :=
    .step (.setSurface smallSurface,{}) (.init newRegion_configured) trivial rfl
  have henabled : Reaches (step ⟨true,true⟩) (fun _ _ => True) Configured _ :=
    .step (.enable,{}) hsurface trivial rfl
  have hfailed : Reaches (step ⟨true,true⟩) (fun _ _ => True) Configured _ :=
    .step (.flipUpdate none {},{addRegion := .failure}) henabled trivial rfl
  have hflipped : Reaches (step ⟨true,true⟩) (fun _ _ => True) Configured _ :=
    .step (.flipUpdate none {},{}) henabled trivial rfl
  have hconfigured : Reaches (step ⟨true,true⟩) (fun _ _ => True) Configured _ :=
    .step (.setConfiguration {smallConfig with opacity := 0} {opacity := true, freeze := true},{})
      hflipped trivial rfl
  have hold : Reaches (step ⟨true,true⟩) (fun _ _ => True) Configured _ :=
    .step (.flipUpdate none {},{setRegion := .failure}) hconfigured trivial rfl
  have hstereo : Reaches (step ⟨true,true⟩) (fun _ _ => True) Configured _ :=
    .step (.setSurface {smallSurface with stereo := true},{setRight := .failure}) hflipped trivial rfl
  refine ⟨_,_,_,hfailed,⟨rfl,rfl,rfl,rfl,fun h => ?_⟩,hold,⟨rfl,rfl,rfl,rfl⟩,hstereo,rfl⟩
  have hshown := h.shown rfl rfl rfl
  cases hshown

end DirectFB.LayerRegion
