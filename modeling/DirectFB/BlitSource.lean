import DirectFB.SurfaceFlip

/-! Which frame of the source a blit reads, after sources were set with and without a flip count. -/
namespace DirectFB.BlitSource
open SurfaceFlip
export SurfaceFlip (BufferRole StereoEye)

variable {ι β : Type*} [DecidableEq ι]

/-- The source of a `CardState`. -/
structure CardState (ι : Type*) where
  source : Option ι := none
  sourceFlipCount : UInt32 := 0
  sourceFlipCountUsed : Bool := false

/-- A call of a setter, with whether a reference to the source can be added. -/
structure Call (ι : Type*) where
  source : Option ι
  /-- The last argument of `dfb_state_set_source_2`. -/
  flipCount : Option UInt32
  referable : Bool

/-- `dfb_state_set_source`, without a result where the source has no reference. -/
def setSource (s : CardState ι) (source : Option ι) (referable : Bool) : Option (CardState ι) :=
  if s.source = source then some s
  else if source.isSome ∧ ¬referable then none
  else some {s with source}

/-- `dfb_state_set_source_2` -/
def setSource2 (s : CardState ι) (source : Option ι) (flipCount : UInt32) (referable : Bool) :
    Option (CardState ι) :=
  if s.source = source ∧ s.sourceFlipCount = flipCount ∧ s.sourceFlipCountUsed then some s
  else if source.isSome ∧ ¬referable then none
  else some ⟨source,flipCount,true⟩

def call (s : CardState ι) (c : Call ι) : Option (CardState ι) :=
  match c.flipCount with
  | none => setSource s c.source c.referable
  | some flipCount => setSource2 s c.source flipCount c.referable

/-- The state after some calls, with what was given in those that succeeded, the last one first. -/
def run : List (Call ι) → CardState ι × List (Option UInt32)
  | [] => ({},[])
  | c::calls =>
    let before := run calls
    match call before.1 c with
    | none => before
    | some s => (s,c.flipCount::before.2)

/-- Where the source is locked: for the card, for the software, or for the card by the master, which
is sent the source without its flip count. -/
inductive Site
  | card | software | master
  deriving DecidableEq

/-- The flip count that the buffer is asked for with. -/
def lockedCount (s : CardState ι) (flips : UInt32) : Site → UInt32
  | .card => if s.sourceFlipCountUsed then s.sourceFlipCount else flips
  | .software | .master => flips

/-- The flip count of the most recent source, or else that of the surface. -/
def asked (given : List (Option UInt32)) (flips : UInt32) : UInt32 := given.head?.join.getD flips

/-- The buffer locked for a blit is the one of the source that was asked for. -/
def Reads (calls : List (Call ι)) (site : Site) (surface : Surface β)
    (role : BufferRole) (eye : StereoEye) : Prop :=
  getBuffer3 surface role eye (lockedCount (run calls).1 surface.flips site) =
    getBuffer3 surface role eye (asked (run calls).2 surface.flips)

/-- The last flip count that was ever given. -/
def lastCount (given : List (Option UInt32)) : Option UInt32 := given.reduceOption.head?

@[simp] theorem lastCount_nil : lastCount [] = none := rfl
@[simp] theorem lastCount_none (given : List (Option UInt32)) :
    lastCount (none::given) = lastCount given := rfl
@[simp] theorem lastCount_some (n : UInt32) (given : List (Option UInt32)) :
    lastCount (some n::given) = some n := rfl

/-- The card is not left with the flip count of an earlier source, and elsewhere no flip count is
given, unless the same buffer is in its place. -/
def Current (given : List (Option UInt32)) (site : Site) (surface : Surface β)
    (role : BufferRole) (eye : StereoEye) : Prop :=
  match site, given.head?.join, lastCount given with
  | .card, none, some old =>
    getBuffer3 surface role eye old = getBuffer3 surface role eye surface.flips
  | .software, some new, _ | .master, some new, _ =>
    getBuffer3 surface role eye surface.flips = getBuffer3 surface role eye new
  | _, _, _ => True

/-- The state keeps the last flip count that was given. -/
structure Kept (s : CardState ι) (given : List (Option UInt32)) : Prop where
  used : s.sourceFlipCountUsed = (lastCount given).isSome
  count : ∀ n ∈ lastCount given, s.sourceFlipCount = n

theorem call_kept {s s' : CardState ι} {c : Call ι} {given : List (Option UInt32)}
    (h : Kept s given) (hc : call s c = some s') : Kept s' (c.flipCount::given) := by
  unfold call at hc
  cases hn : c.flipCount with
  | none =>
    simp only [hn,setSource] at hc
    split_ifs at hc <;> obtain rfl := Option.some.inj hc
    all_goals exact ⟨h.used,h.count⟩
  | some n =>
    simp only [hn,setSource2] at hc
    split_ifs at hc with hsame <;> obtain rfl := Option.some.inj hc
    · exact ⟨by simp [hsame.2.2],by simp [hsame.2.1]⟩
    · exact ⟨rfl,by simp⟩

theorem run_kept (calls : List (Call ι)) : Kept (run calls).1 (run calls).2 := by
  induction calls with
  | nil => exact ⟨rfl,fun n hn => by cases hn⟩
  | cons c calls ih =>
    unfold run
    dsimp only
    split
    · exact ih
    · exact call_kept ih ‹_›

/-- After any calls a blit reads the frame that was asked for just if the flip counts agree. -/
theorem blits_read_iff (calls : List (Call ι)) (site : Site) (surface : Surface β)
    (role : BufferRole) (eye : StereoEye) :
    Reads calls site surface role eye ↔ Current (run calls).2 site surface role eye := by
  obtain ⟨hused,hcount⟩ := run_kept calls
  unfold Reads Current asked
  generalize (run calls).2 = given at *
  cases site with
  | card =>
    unfold lockedCount
    rcases given with _ | ⟨_ | n,given⟩
    · simp [hused]
    · cases hlast : lastCount given with
      | none => simp_all
      | some old => simp_all
    · simp_all
  | software => rcases given with _ | ⟨_ | n,given⟩ <;> simp [lockedCount]
  | master => rcases given with _ | ⟨_ | n,given⟩ <;> simp [lockedCount]

/-- The flip count of a client's surface is kept for the next source, which has two buffers. -/
theorem old_frame_read :
    ¬∀ (calls : List (Call ℕ)) (site : Site) (surface : Surface ℕ) (role : BufferRole)
      (eye : StereoEye), Reads calls site surface role eye := by
  intro h
  have := h [⟨some 1,none,true⟩,⟨some 0,some 1,true⟩] .card
    ⟨fun _ => id,.left,fun _ => .systemOnly,false,2,id,0,[]⟩ .front .left
  revert this
  unfold Reads
  decide

end DirectFB.BlitSource
