import DirectFB.SubSurface

/-! Flips through one interface to a surface, which wait until enough of the frames that were
flipped are acknowledged. -/
namespace DirectFB.FlipWait
open Transition SubSurface

/-- The bits of `DFBSurfaceFlipFlags` that choose between an exchange and a copy. -/
structure FlipFlags where
  swap : Bool := false
  blit : Bool := false

/-- The surface, which has at least two buffers, and the areas of the interface. -/
structure Config where
  numBuffers : ℕ
  size : ℤ × ℤ
  flipping : Bool
  stereo : Bool
  wanted : Rect
  current : Rect
  two : 2 ≤ numBuffers
  int : numBuffers < 2^31

/-- `IDirectFBSurface_Flip` and `IDirectFBSurface_FlipStereo` -/
inductive Call
  | flip (region : Option Region) (flags : FlipFlags)
  | flipStereo (left right : Option Region) (flags : FlipFlags)

/-- What is passed to `CoreSurface_Flip2`. -/
structure Flip where
  left : Region
  right : Option Region
  flags : FlipFlags

inductive Progress
  | idle
  | counted (f : Flip)
  | waiting
  | asleep

/-- The counts of the interface, and those of the surface with the flips that they stand for. -/
structure State where
  localFlipCount : UInt32
  frameAck : UInt32
  localFlipBuffers : ℕ
  flips : UInt32
  flip : ℕ
  acked : ℕ
  progress : Progress

section Calls

variable (cfg : Config)

def Reversed (r : Region) : Prop := r.x1 > r.x2 ∨ r.y1 > r.y2

instance (r : Region) : Decidable (Reversed r) := inferInstanceAs (Decidable (_ ∨ _))

def flipRegion : Option Region → Option Region
  | none => some cfg.current.region
  | some r => cfg.current.region.intersect (r.translated cfg.wanted.x cfg.wanted.y)

/-- What the two functions do before the count, where they do not return. -/
def prepare (locked : Bool) : Call → Option Flip
  | .flip region flags =>
    if locked ∨ cfg.current.Empty ∨ ∃ r ∈ region, Reversed r then none
    else (flipRegion cfg region).map fun left => ⟨left,none,flags⟩
  | .flipStereo left right flags =>
    if ¬ cfg.stereo ∨ locked ∨ cfg.current.Empty ∨ (∃ r ∈ left, Reversed r) ∨
        ∃ r ∈ right, Reversed r then none
    else (flipRegion cfg left).bind fun left => (flipRegion cfg right).map fun right =>
      ⟨left,some right,flags⟩

def Whole (r : Region) : Prop :=
  r.x1 = 0 ∧ r.y1 = 0 ∧ r.x2 = cfg.size.1-1 ∧ r.y2 = cfg.size.2-1

instance (r : Region) : Decidable (Whole cfg r) := inferInstanceAs (Decidable (_ ∧ _ ∧ _ ∧ _))

def Expects (f : Flip) : Prop :=
  cfg.flipping ∧ (f.flags.swap ∨ ¬ f.flags.blit ∧ Whole cfg f.left ∧ ∀ r ∈ f.right, Whole cfg r)

/-- `ISurface_Real::Flip2` exchanges the buffers. -/
def Exchanges (f : Flip) : Prop :=
  cfg.flipping ∧
  if cfg.stereo then
    f.flags.swap ∨ ¬ f.flags.blit ∧ Whole cfg f.left ∧ Whole cfg (f.right.getD f.left)
  else f.flags.swap ∨ ¬ f.flags.blit ∧ Whole cfg f.left

instance (f : Flip) : Decidable (Expects cfg f) := inferInstanceAs (Decidable (_ ∧ (_ ∨ _)))

instance (f : Flip) : Decidable (Exchanges cfg f) := inferInstanceAs (Decidable (_ ∧ ite _ _ _))

/-- The condition of the loop in `IDirectFBSurface_WaitForBackBuffer`, and of its `break`. -/
def Waits (x : State) : Prop :=
  x.localFlipCount-x.frameAck ≥ UInt32.ofNat x.localFlipBuffers-1 ∧ ¬ x.localFlipBuffers ≤ 1

instance (x : State) : Decidable (Waits x) := inferInstanceAs (Decidable (_ ∧ _))

def Progress.woken : Progress → Progress
  | .asleep => .waiting
  | p => p

/-- `IDirectFBSurface_listener` for `CSNF_FRAME` -/
def listener (x : State) (n : ℕ) : State :=
  let count := UInt32.ofNat n
  {x with
    frameAck := count
    localFlipCount := if x.localFlipCount < count then count else x.localFlipCount
    acked := n
    progress := x.progress.woken}

def count (x : State) (f : Flip) : State :=
  {x with
    localFlipBuffers := cfg.numBuffers
    localFlipCount := if Expects cfg f then x.localFlipCount+1 else x.localFlipCount
    progress := .counted f}

/-- `ISurface_Real::Flip2`, with the answer of `dfb_surface_flip_buffers`. A flip that fails returns
at once. -/
def flip2 (x : State) (f : Flip) (supported : Bool) : State :=
  if Exchanges cfg f then
    if supported then {x with flips := x.flips+1, flip := x.flip+1, progress := .waiting}
    else {x with progress := .idle}
  else {x with progress := .waiting}

inductive Event
  | call (locked : Bool) (c : Call)
  | flip2 (supported : Bool)
  | check
  | ack (n : ℕ)

/-- Frames are acknowledged in order, and at any time. -/
def step (x : State) : Event → Option State
  | .call locked c => match x.progress with
    | .idle => some (((prepare cfg locked c).map (count cfg x)).getD x)
    | _ => none
  | .flip2 supported => match x.progress with
    | .counted f => some (flip2 cfg x f supported)
    | _ => none
  | .check => match x.progress with
    | .waiting => some {x with progress := if Waits x then .asleep else .idle}
    | _ => none
  | .ack n => if x.acked ≤ n ∧ n ≤ x.flip then some (listener x n) else none

end Calls

def Initial (x : State) : Prop := x = ⟨0,0,0,0,0,0,.idle⟩

section Waiting

variable {cfg : Config} {x y : State}

theorem expects_iff {locked : Bool} {c : Call} {f : Flip} (h : prepare cfg locked c = some f) :
    Expects cfg f ↔ Exchanges cfg f := by
  unfold Expects Exchanges
  cases c with
  | flip region flags =>
    obtain ⟨-,h⟩ := Option.ite_none_left_eq_some.mp h
    obtain ⟨left,-,rfl⟩ := Option.map_eq_some_iff.mp h
    simp
  | flipStereo left right flags =>
    obtain ⟨hnot,h⟩ := Option.ite_none_left_eq_some.mp h
    obtain ⟨l,-,h⟩ := Option.bind_eq_some_iff.mp h
    obtain ⟨r,-,rfl⟩ := Option.map_eq_some_iff.mp h
    have hstereo : cfg.stereo = true := by
      by_contra hs
      exact hnot (.inl hs)
    simp [hstereo]

def Kept (cfg : Config) (x : State) : Event → Prop
  | .flip2 supported => ∀ f, x.progress = .counted f → Exchanges cfg f → supported = true
  | .ack n => ¬ x.localFlipCount < UInt32.ofNat n
  | _ => True

/-- How many flips the client has counted, and what it waits for, by the progress of a flip. -/
def Counts (cfg : Config) (x : State) : Progress → Prop
  | .idle => x.localFlipCount = UInt32.ofNat x.flip ∧ x.flip-x.acked < cfg.numBuffers-1
  | .counted f => x.localFlipCount = UInt32.ofNat (if Exchanges cfg f then x.flip+1 else x.flip) ∧
    x.flip-x.acked < cfg.numBuffers-1 ∧ x.localFlipBuffers = cfg.numBuffers
  | .waiting => x.localFlipCount = UInt32.ofNat x.flip ∧ x.flip-x.acked ≤ cfg.numBuffers-1 ∧
    x.localFlipBuffers = cfg.numBuffers
  | .asleep => x.localFlipCount = UInt32.ofNat x.flip ∧ x.flip-x.acked = cfg.numBuffers-1 ∧
    x.localFlipBuffers = cfg.numBuffers

structure Inv (cfg : Config) (x : State) : Prop where
  flips : x.flips = UInt32.ofNat x.flip
  frameAck : x.frameAck = UInt32.ofNat x.acked
  acked : x.acked ≤ x.flip
  counts : Counts cfg x x.progress

theorem waits_iff (h : Inv cfg x) (hcount : x.localFlipCount = UInt32.ofNat x.flip)
    (hpending : x.flip-x.acked ≤ cfg.numBuffers-1) (hbuffers : x.localFlipBuffers = cfg.numBuffers) :
    Waits x ↔ cfg.numBuffers-1 ≤ x.flip-x.acked := by
  have htwo := cfg.two
  have hint := cfg.int
  have hone : (1 : UInt32) = UInt32.ofNat 1 := rfl
  have hsize : UInt32.size = 2^32 := rfl
  unfold Waits
  rw [hcount,h.frameAck,hbuffers,← UInt32.ofNat_sub h.acked,hone,← UInt32.ofNat_sub (by omega),
    ge_iff_le,UInt32.ofNat_le_iff_le (by omega) (by omega)]
  exact and_iff_left (by omega)

theorem call_inv {locked : Bool} {c : Call} (h : Inv cfg x) (hidle : x.progress = .idle) :
    Inv cfg (((prepare cfg locked c).map (count cfg x)).getD x) := by
  cases hp : prepare cfg locked c with
  | none => exact h
  | some f =>
    obtain ⟨hcount,hpending⟩ : Counts cfg x .idle := hidle ▸ h.counts
    refine ⟨h.flips,h.frameAck,h.acked,?_,hpending,rfl⟩
    change (if Expects cfg f then x.localFlipCount+1 else x.localFlipCount) = _
    rw [if_congr (expects_iff hp) rfl rfl,hcount]
    split_ifs
    · exact (UInt32.ofNat_add _ 1).symm
    · rfl

theorem flip2_inv {f : Flip} {supported : Bool} (h : Inv cfg x) (hf : x.progress = .counted f)
    (hk : Exchanges cfg f → supported = true) : Inv cfg (flip2 cfg x f supported) := by
  obtain ⟨hcount,hpending,hbuffers⟩ : Counts cfg x (.counted f) := hf ▸ h.counts
  unfold flip2
  split_ifs with hexchanges hsupported
  · refine ⟨?_,h.frameAck,h.acked.trans (Nat.le_succ _),?_,?_,hbuffers⟩
    · change x.flips+1 = _
      rw [h.flips]
      exact (UInt32.ofNat_add _ 1).symm
    · rw [if_pos hexchanges] at hcount
      exact hcount
    · change x.flip+1-x.acked ≤ _
      omega
  · exact absurd (hk hexchanges) hsupported
  · rw [if_neg hexchanges] at hcount
    exact ⟨h.flips,h.frameAck,h.acked,hcount,hpending.le,hbuffers⟩

theorem check_inv (h : Inv cfg x) (hw : x.progress = .waiting) :
    Inv cfg {x with progress := if Waits x then .asleep else .idle} := by
  obtain ⟨hcount,hpending,hbuffers⟩ : Counts cfg x .waiting := hw ▸ h.counts
  have hiff := waits_iff h hcount hpending hbuffers
  refine ⟨h.flips,h.frameAck,h.acked,?_⟩
  dsimp only
  split_ifs with hwaits
  · exact ⟨hcount,le_antisymm hpending (hiff.mp hwaits),hbuffers⟩
  · exact ⟨hcount,not_le.mp fun hle => hwaits (hiff.mpr hle)⟩

theorem listener_inv {n : ℕ} (h : Inv cfg x) (hn : x.acked ≤ n ∧ n ≤ x.flip)
    (hk : ¬ x.localFlipCount < UInt32.ofNat n) : Inv cfg (listener x n) := by
  have hlocal : (listener x n).localFlipCount = x.localFlipCount := if_neg hk
  have hless : x.flip-n ≤ x.flip-x.acked := Nat.sub_le_sub_left hn.1 _
  refine ⟨h.flips,rfl,hn.2,?_⟩
  have hcounts := h.counts
  change Counts cfg (listener x n) x.progress.woken
  cases hp : x.progress with
  | idle =>
    rw [hp] at hcounts
    exact ⟨hlocal.trans hcounts.1,hless.trans_lt hcounts.2⟩
  | counted f =>
    rw [hp] at hcounts
    exact ⟨hlocal.trans hcounts.1,hless.trans_lt hcounts.2.1,hcounts.2.2⟩
  | waiting =>
    rw [hp] at hcounts
    exact ⟨hlocal.trans hcounts.1,hless.trans hcounts.2.1,hcounts.2.2⟩
  | asleep =>
    rw [hp] at hcounts
    exact ⟨hlocal.trans hcounts.1,hless.trans hcounts.2.1.le,hcounts.2.2⟩

theorem step_inv {e : Event} (h : Inv cfg x) (hk : Kept cfg x e) (hs : step cfg x e = some y) :
    Inv cfg y := by
  cases e with
  | call locked c =>
    simp only [step] at hs
    split at hs
    next hidle =>
      obtain rfl := Option.some.inj hs
      exact call_inv h hidle
    next => cases hs
  | flip2 supported =>
    simp only [step] at hs
    split at hs
    next f hf =>
      obtain rfl := Option.some.inj hs
      exact flip2_inv h hf (hk f hf)
    next => cases hs
  | check =>
    simp only [step] at hs
    split at hs
    next hw =>
      obtain rfl := Option.some.inj hs
      exact check_inv h hw
    next => cases hs
  | ack n =>
    obtain ⟨hn,hs⟩ := Option.ite_none_right_eq_some.mp hs
    obtain rfl := Option.some.inj hs
    exact listener_inv h hn hk

theorem reaches_inv (h : Reaches (step cfg) (Kept cfg) Initial x) : Inv cfg x := by
  refine h.invariant (Inv cfg) (fun s hs => ?_) fun s e t hinv hk hs => step_inv hinv hk hs
  obtain rfl := hs
  have htwo := cfg.two
  exact ⟨rfl,rfl,le_rfl,rfl,by change 0-0 < cfg.numBuffers-1; omega⟩

structure Exact (cfg : Config) (x : State) : Prop where
  count : x.progress = .idle → (x.localFlipCount-x.frameAck).toNat = x.flip-x.acked
  returns : x.progress = .idle → x.flip-x.acked < cfg.numBuffers-1
  asleep : x.progress = .asleep → x.acked < x.flip
  awake : x.progress = .waiting → x.acked = x.flip →
    step cfg x .check = some {x with progress := .idle}

theorem Inv.exact (h : Inv cfg x) : Exact cfg x := by
  have htwo := cfg.two
  have hint := cfg.int
  have hcounts := h.counts
  refine ⟨fun hp => ?_,fun hp => ?_,fun hp => ?_,fun hp hacked => ?_⟩ <;> rw [hp] at hcounts
  · have hsize : UInt32.size = 2^32 := rfl
    have hlt := hcounts.2
    rw [hcounts.1,h.frameAck,← UInt32.ofNat_sub h.acked]
    exact UInt32.toNat_ofNat_of_lt' (by omega)
  · exact hcounts.2
  · have heq := hcounts.2.1
    omega
  · have hnot : ¬ Waits x := by
      rw [waits_iff h hcounts.1 hcounts.2.1 hcounts.2.2]
      omega
    simp only [step,hp,if_neg hnot]

/-- In runs where no flip fails and no count is passed at a wrap, the producer waits for exactly the
frames that are not acknowledged. -/
theorem waits_for_frames (h : Reaches (step cfg) (Kept cfg) Initial x) : Exact cfg x :=
  (reaches_inv h).exact

end Waiting

def double : Config :=
  ⟨2,(8,8),true,false,⟨0,0,8,8⟩,⟨0,0,8,8⟩,le_rfl,by decide⟩

def triple : Config :=
  ⟨3,(8,8),true,false,⟨0,0,8,8⟩,⟨0,0,8,8⟩,by decide,by decide⟩

def start : State := ⟨0,0,0,0,0,0,.idle⟩

def whole : Call := .flip none {}

/-- The flip waits for its frame and returns after the acknowledgement. -/
theorem flip_waits : ∃ x y, exec (step double) start [.call false whole,.flip2 true,.check] = some x ∧
    x.progress = .asleep ∧ exec (step double) x [.ack 1,.check] = some y ∧ y.progress = .idle ∧
    Exact double y := by
  refine ⟨_,_,rfl,rfl,rfl,rfl,waits_for_frames ?_⟩
  refine .step .check (.step (.ack 1) (.step .check (.step (.flip2 true)
    (.step (.call false whole) (.init rfl) trivial rfl) (fun _ _ _ => rfl) rfl) trivial rfl) ?_ rfl)
    trivial rfl
  exact (by decide : ¬ (1 : UInt32) < UInt32.ofNat 1)

/-- A flip that is not supported is counted for good: the next one, which copies a part only, waits
for a frame though none was ever flipped. -/
theorem unsupported_flip_counted : ∃ x, exec (step double) start [.call false whole,.flip2 false,
      .call false (.flip (some ⟨0,0,3,3⟩) {}),.flip2 true,.check] = some x ∧
    x.progress = .asleep ∧ x.flip = 0 ∧ x.acked = 0 ∧ ¬ Exact double x := by
  refine ⟨_,rfl,rfl,rfl,rfl,fun h => ?_⟩
  exact absurd (h.asleep rfl) (lt_irrefl 0)

def flipped (n : ℕ) : State :=
  ⟨UInt32.ofNat n,UInt32.ofNat n,3,UInt32.ofNat n,n,n,.idle⟩

def flipping (n : ℕ) (p : Progress) : State :=
  {flipped n with localFlipCount := UInt32.ofNat (n+1), progress := p}

end DirectFB.FlipWait
