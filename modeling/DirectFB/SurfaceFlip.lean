import DirectFB.Reaches
import DirectFB.Types

/-! The roles of the buffers of a surface, which are computed from the number of flips. -/
namespace DirectFB.SurfaceFlip
open Transition

/-- `CoreSurfaceBufferRole` -/
inductive BufferRole
  | front | back | idle
  deriving DecidableEq

/-- The value of a `CSBR_`. -/
def BufferRole.value : BufferRole → UInt32
  | .front => 0
  | .back => 1
  | .idle => 2

/-- `DFBSurfaceStereoEye` -/
inductive StereoEye
  | left | right
  deriving DecidableEq

structure Update (β : Type*) where
  flipCount : UInt32
  front : StereoEye → β

/-- What a `CoreSurface` knows of its buffers. `buffers` are `left_buffers` and
`right_buffers`, and `eye` tells which of them are `surface->buffers`. -/
structure Surface (β : Type*) where
  buffers : StereoEye → ℕ → β
  eye : StereoEye
  policy : β → CoreSurfacePolicy
  rotated : Bool
  numBuffers : ℕ
  bufferIndices : ℕ → ℕ
  flips : UInt32
  updates : List (Update β)

variable {β : Type*}

/-- The place of a role in `buffer_indices`. -/
def slot (s : Surface β) (flips : UInt32) (role : BufferRole) : ℕ :=
  (flips+role.value).toNat % s.numBuffers

/-- `dfb_surface_get_buffer3` -/
def getBuffer3 (s : Surface β) (role : BufferRole) (eye : StereoEye) (flipCount : UInt32) : β :=
  s.buffers eye (s.bufferIndices (slot s flipCount role))

/-- `dfb_surface_get_buffer2` -/
def getBuffer2 (s : Surface β) (role : BufferRole) (eye : StereoEye) : β :=
  getBuffer3 s role eye s.flips

/-- `dfb_surface_get_buffer` -/
def getBuffer (s : Surface β) (role : BufferRole) : β := getBuffer2 s role s.eye

def swapIndices (s : Surface β) : Surface β :=
  let back := slot s s.flips .back
  let front := slot s s.flips .front
  let indices := Function.update s.bufferIndices back (s.bufferIndices front)
  {s with bufferIndices := Function.update indices front (s.bufferIndices back)}

/-- `dfb_surface_flip_buffers` -/
def flipBuffers (s : Surface β) (swap : Bool) : DirectResult × Surface β :=
  if s.numBuffers = 0 then (.suspended,s)
  else if s.policy (getBuffer s .back) ≠ s.policy (getBuffer s .front) ∨ s.rotated then
    (.unsupported,s)
  else if swap then (.ok,swapIndices s)
  else (.ok,{s with flips := s.flips+1})

/-- The flip count of `dfb_surface_dispatch_update`. -/
def dispatchUpdate (s : Surface β) : Surface β :=
  {s with updates := ⟨s.flips,getBuffer2 s .front⟩::s.updates}

inductive Event
  | flip (swap : Bool)
  | update

def step (s : Surface β) : Event → Option (Surface β)
  | .flip swap => some (flipBuffers s swap).2
  | .update => some (dispatchUpdate s)

structure Created (s : Surface β) : Prop where
  numBuffers : s.numBuffers ∈ [1,2,3]
  buffers : ∀ eye i j, i < s.numBuffers → j < s.numBuffers → s.buffers eye i = s.buffers eye j → i = j
  policy : ∀ eye i j, s.policy (s.buffers eye i) = s.policy (s.buffers eye j)
  indices : ∀ i < s.numBuffers, s.bufferIndices i = i
  flips : s.flips = 0
  updates : s.updates = []

section Slots
variable {s : Surface β}

theorem slot_lt (h : 0 < s.numBuffers) (flips : UInt32) (role : BufferRole) :
    slot s flips role < s.numBuffers := Nat.mod_lt _ h

theorem slot_succ (s : Surface β) (flips : UInt32) :
    slot s (flips+1) .front = slot s flips .back ∧ slot s (flips+1) .back = slot s flips .idle := by
  have hback : flips+1+BufferRole.front.value = flips+BufferRole.back.value := by
    simp [BufferRole.value]
  have hidle : flips+1+BufferRole.back.value = flips+BufferRole.idle.value := by
    simp [BufferRole.value,UInt32.add_assoc]
  unfold slot
  rw [hback,hidle]
  exact ⟨rfl,rfl⟩

theorem slot_two (h : s.numBuffers = 2) (flips : UInt32) :
    slot s flips .front ≠ slot s flips .back := by
  unfold slot
  rw [h,UInt32.toNat_add,UInt32.toNat_add]
  simp [BufferRole.value]
  omega

/-- With three buffers they differ where no role is computed from a count that wraps. -/
theorem slot_three (h : s.numBuffers = 3) (flips : UInt32) :
    (slot s flips .front ≠ slot s flips .back ∧ slot s flips .back ≠ slot s flips .idle ∧
      slot s flips .front ≠ slot s flips .idle) ↔ flips.toNat+2 < 2^32 := by
  have hlt : flips.toNat < 2^32 := flips.toNat_lt
  have hfront : slot s flips .front = flips.toNat % 3 := by
    unfold slot
    rw [h,UInt32.toNat_add,Nat.mod_eq_of_lt (a := flips.toNat+_) hlt]
    rfl
  have hback : slot s flips .back = (flips.toNat+1) % 2^32 % 3 := by
    unfold slot
    rw [h,UInt32.toNat_add]
    rfl
  have hidle : slot s flips .idle = (flips.toNat+2) % 2^32 % 3 := by
    unfold slot
    rw [h,UInt32.toNat_add]
    rfl
  rw [hfront,hback,hidle]
  generalize flips.toNat = f at hlt
  by_cases hwrap : f+2 < 2^32
  · rw [Nat.mod_eq_of_lt (a := f+1) (by omega),Nat.mod_eq_of_lt hwrap]
    exact iff_of_true (by omega) hwrap
  · obtain rfl | rfl : f = 2^32-2 ∨ f = 2^32-1 := by omega
    · decide
    · decide

end Slots

section Flips
variable {s t : Surface β}

def Kept (s : Surface β) : Event → Prop
  | .flip false => s.numBuffers = 3 → s.rotated = false → s.flips.toNat+3 < 2^32
  | .flip true => s.numBuffers ≠ 1 → s.rotated = false → ∀ u ∈ s.updates,
      slot s u.flipCount .front ≠ slot s s.flips .front ∧
      slot s u.flipCount .front ≠ slot s s.flips .back
  | .update => True

/-- `buffer_indices` is a permutation, and what was announced is still true. -/
structure Inv (s : Surface β) : Prop where
  numBuffers : s.numBuffers ∈ [1,2,3]
  buffers : ∀ eye i j, i < s.numBuffers → j < s.numBuffers → s.buffers eye i = s.buffers eye j → i = j
  policy : ∀ eye i j, s.policy (s.buffers eye i) = s.policy (s.buffers eye j)
  indices_lt : ∀ i < s.numBuffers, s.bufferIndices i < s.numBuffers
  indices : ∀ i j, i < s.numBuffers → j < s.numBuffers →
    s.bufferIndices i = s.bufferIndices j → i = j
  room : s.numBuffers = 3 → s.flips.toNat+2 < 2^32
  announced : ∀ u ∈ s.updates, ∀ eye, getBuffer3 s .front eye u.flipCount = u.front eye

theorem created_inv (h : Created s) : Inv s := by
  refine ⟨h.numBuffers,h.buffers,h.policy,fun i hi => ?_,fun i j hi hj => ?_,fun _ => ?_,?_⟩
  · rw [h.indices i hi]
    exact hi
  · rw [h.indices i hi,h.indices j hj]
    exact id
  · rw [h.flips]
    decide
  · rw [h.updates]
    exact fun u hu => absurd hu List.not_mem_nil

theorem Inv.pos (h : Inv s) : 0 < s.numBuffers := by
  have hn := h.numBuffers
  simp only [List.mem_cons,List.not_mem_nil,or_false] at hn
  omega

theorem Inv.buffer_ne (h : Inv s) {i j : ℕ} (hi : i < s.numBuffers) (hj : j < s.numBuffers)
    (hne : i ≠ j) (eye : StereoEye) :
    s.buffers eye (s.bufferIndices i) ≠ s.buffers eye (s.bufferIndices j) := fun he =>
  hne (h.indices i j hi hj (h.buffers eye _ _ (h.indices_lt i hi) (h.indices_lt j hj) he))

theorem flipBuffers_eq (h : Inv s) (swap : Bool) : flipBuffers s swap =
    if s.rotated then (.unsupported,s)
    else (.ok,if swap then swapIndices s else {s with flips := s.flips+1}) := by
  have hpolicy : s.policy (getBuffer s .back) = s.policy (getBuffer s .front) :=
    h.policy s.eye _ _
  unfold flipBuffers
  rw [if_neg h.pos.ne']
  by_cases hrotated : s.rotated = true
  · rw [if_pos (.inr hrotated),if_pos hrotated]
  · rw [if_neg fun hc => hc.elim (fun hne => hne hpolicy) hrotated,if_neg hrotated]
    cases swap <;> rfl

theorem swapIndices_apply (s : Surface β) (i : ℕ) : (swapIndices s).bufferIndices i =
    s.bufferIndices (if i = slot s s.flips .front then slot s s.flips .back
      else if i = slot s s.flips .back then slot s s.flips .front else i) := by
  unfold swapIndices
  dsimp only
  rw [Function.update_apply,Function.update_apply]
  split_ifs <;> rfl

theorem inv_swap (h : Inv s) (hkept : s.numBuffers ≠ 1 → ∀ u ∈ s.updates,
    slot s u.flipCount .front ≠ slot s s.flips .front ∧
    slot s u.flipCount .front ≠ slot s s.flips .back) : Inv (swapIndices s) := by
  have hfront := slot_lt h.pos s.flips .front
  have hback := slot_lt h.pos s.flips .back
  refine ⟨h.numBuffers,h.buffers,h.policy,fun i hi => ?_,fun i j hi hj hij => ?_,h.room,
    fun u hu eye => ?_⟩
  · rw [swapIndices_apply]
    split_ifs
    · exact h.indices_lt _ hback
    · exact h.indices_lt _ hfront
    · exact h.indices_lt _ hi
  · rw [swapIndices_apply,swapIndices_apply] at hij
    have hlt : ∀ k < s.numBuffers, (if k = slot s s.flips .front then slot s s.flips .back
        else if k = slot s s.flips .back then slot s s.flips .front else k) < s.numBuffers := by
      intro k hk
      split_ifs
      · exact hback
      · exact hfront
      · exact hk
    have he := h.indices _ _ (hlt i hi) (hlt j hj) hij
    split_ifs at he <;> omega
  · have hsame : (swapIndices s).bufferIndices (slot s u.flipCount .front) =
        s.bufferIndices (slot s u.flipCount .front) := by
      rw [swapIndices_apply]
      by_cases hone : s.numBuffers = 1
      · have hslot : ∀ flips role, slot s flips role = 0 := fun flips role => by
          have := slot_lt h.pos flips role
          omega
        simp only [hslot,if_true]
      · obtain ⟨hne,hne'⟩ := hkept hone u hu
        rw [if_neg hne,if_neg hne']
    have hu' := h.announced u hu eye
    unfold getBuffer3 at hu' ⊢
    change s.buffers eye ((swapIndices s).bufferIndices (slot s u.flipCount .front)) = _
    rw [hsame]
    exact hu'

theorem inv_step (h : Inv s) {e : Event} (hkept : Kept s e) (hs : step s e = some t) : Inv t := by
  cases e with
  | update =>
    obtain rfl := Option.some.inj hs
    refine ⟨h.numBuffers,h.buffers,h.policy,h.indices_lt,h.indices,h.room,fun u hu eye => ?_⟩
    rcases List.mem_cons.mp hu with rfl | hu
    · rfl
    · exact h.announced u hu eye
  | flip swap =>
    obtain rfl := Option.some.inj hs
    rw [flipBuffers_eq h]
    by_cases hrotated : s.rotated = true
    · rw [if_pos hrotated]
      exact h
    · rw [if_neg hrotated]
      have hrotated : s.rotated = false := by simpa using hrotated
      cases swap with
      | true => exact inv_swap h fun hone => hkept hone hrotated
      | false =>
        refine ⟨h.numBuffers,h.buffers,h.policy,h.indices_lt,h.indices,fun hthree => ?_,
          h.announced⟩
        have hroom := hkept hthree hrotated
        change (s.flips+1).toNat+2 < 2^32
        rw [UInt32.toNat_add,UInt32.toNat_one,Nat.mod_eq_of_lt (by omega)]
        exact hroom

/-- The buffers of different roles differ, flips and swaps move them as they should, and a flip
count that was announced still stands for the buffer that was the front buffer then. -/
theorem roles_kept (h : Reaches step Kept Created s) :
    (∀ eye, (s.numBuffers ≠ 1 → getBuffer2 s .front eye ≠ getBuffer2 s .back eye) ∧
      (s.numBuffers = 3 → getBuffer2 s .back eye ≠ getBuffer2 s .idle eye ∧
        getBuffer2 s .front eye ≠ getBuffer2 s .idle eye)) ∧
    (∀ swap, s.rotated = false → ∃ t, flipBuffers s swap = (.ok,t)) ∧
    (∀ t, flipBuffers s false = (.ok,t) → ∀ eye, getBuffer2 t .front eye = getBuffer2 s .back eye ∧
      getBuffer2 t .back eye = getBuffer2 s .idle eye) ∧
    (∀ t, flipBuffers s true = (.ok,t) → ∀ eye, getBuffer2 t .front eye = getBuffer2 s .back eye ∧
      getBuffer2 t .back eye = getBuffer2 s .front eye ∧
      (s.numBuffers = 3 → getBuffer2 t .idle eye = getBuffer2 s .idle eye)) ∧
    ∀ u ∈ s.updates, ∀ eye, getBuffer3 s .front eye u.flipCount = u.front eye := by
  have hinv : Inv s := h.invariant Inv (fun _ => created_inv) fun _ _ _ hi hk hs => inv_step hi hk hs
  have hlt := slot_lt hinv.pos s.flips
  have hflip : ∀ swap t, flipBuffers s swap = (.ok,t) →
      t = if swap then swapIndices s else {s with flips := s.flips+1} := by
    intro swap t ht
    rw [flipBuffers_eq hinv] at ht
    by_cases hrotated : s.rotated = true
    · rw [if_pos hrotated] at ht
      cases ht
    · rw [if_neg hrotated] at ht
      exact (Prod.mk.inj ht).2.symm
  refine ⟨fun eye => ⟨fun hone => ?_,fun hthree => ?_⟩,fun swap hrotated => ?_,fun t ht eye => ?_,
    fun t ht eye => ?_,hinv.announced⟩
  · refine hinv.buffer_ne (hlt _) (hlt _) ?_ eye
    have hn := hinv.numBuffers
    simp only [List.mem_cons,List.not_mem_nil,or_false] at hn
    rcases hn with hn | hn | hn
    · exact absurd hn hone
    · exact slot_two hn s.flips
    · exact ((slot_three hn s.flips).mpr (hinv.room hn)).1
  · obtain ⟨-,hback,hidle⟩ := (slot_three hthree s.flips).mpr (hinv.room hthree)
    exact ⟨hinv.buffer_ne (hlt _) (hlt _) hback eye,hinv.buffer_ne (hlt _) (hlt _) hidle eye⟩
  · rw [flipBuffers_eq hinv,hrotated]
    exact ⟨_,rfl⟩
  · obtain rfl := hflip false t ht
    obtain ⟨hfront,hback⟩ := slot_succ s s.flips
    exact ⟨congrArg (fun i => s.buffers eye (s.bufferIndices i)) hfront,
      congrArg (fun i => s.buffers eye (s.bufferIndices i)) hback⟩
  · obtain rfl := hflip true t ht
    have happly : ∀ role, getBuffer2 (swapIndices s) role eye =
        s.buffers eye ((swapIndices s).bufferIndices (slot s s.flips role)) := fun _ => rfl
    rw [if_pos rfl,happly,happly,happly]
    refine ⟨?_,?_,fun hthree => ?_⟩
    · rw [swapIndices_apply,if_pos rfl]
      rfl
    · rw [swapIndices_apply]
      by_cases he : slot s s.flips .back = slot s s.flips .front
      · rw [if_pos he]
        exact congrArg (fun i => s.buffers eye (s.bufferIndices i)) he
      · rw [if_neg he,if_pos rfl]
        rfl
    · obtain ⟨-,hback,hidle⟩ := (slot_three hthree s.flips).mpr (hinv.room hthree)
      rw [swapIndices_apply,if_neg hidle.symm,if_neg hback.symm]
      rfl

end Flips

section Runs

def surface (n : ℕ) (flips : UInt32) : Surface ℕ where
  buffers := fun _ i => i
  eye := .left
  policy := fun _ => .videoHigh
  rotated := false
  numBuffers := n
  bufferIndices := id
  flips := flips
  updates := []

theorem created_surface {n : ℕ} (h : n ∈ [1,2,3]) : Created (surface n 0) :=
  ⟨h,fun _ _ _ _ _ => id,fun _ _ _ => rfl,fun _ _ => rfl,rfl,rfl⟩

/-- A surface of three buffers is updated, and flipped twice. -/
theorem triple_roles_kept : ∃ s : Surface ℕ, Reaches step Kept Created s ∧ s.flips = 2 ∧
    (∀ eye, getBuffer2 s .front eye = 2 ∧ getBuffer2 s .front eye ≠ getBuffer2 s .back eye) ∧
    ∃ u ∈ s.updates, ∀ eye, getBuffer3 s .front eye u.flipCount = u.front eye := by
  have h0 : Reaches step Kept Created (surface 3 0) := .init (created_surface (by decide))
  have h1 := h0.step Event.update trivial rfl
  have h2 := h1.step (Event.flip false) (fun _ _ => by decide) rfl
  have h3 := h2.step (Event.flip false) (fun _ _ => by decide) rfl
  obtain ⟨hroles,-,-,-,hupdates⟩ := roles_kept h3
  refine ⟨_,h3,rfl,fun eye => ⟨rfl,(hroles eye).1 (by decide)⟩,_,List.mem_cons_self,fun eye => ?_⟩
  exact hupdates _ List.mem_cons_self eye

theorem exec_flips {n : ℕ} (hn : n ≠ 0) (flips : UInt32) (k : ℕ) :
    exec step (surface n flips) (List.replicate k (.flip false)) =
      some (surface n (flips+UInt32.ofNat k)) := by
  have hstep : ∀ flips, step (surface n flips) (.flip false) = some (surface n (flips+1)) := by
    intro flips
    have hpos : (surface n flips).numBuffers ≠ 0 := hn
    unfold step flipBuffers
    dsimp only
    rw [if_neg hpos,if_neg fun h => h.elim (fun hne => hne rfl) Bool.false_ne_true]
    rfl
  induction k generalizing flips with
  | zero =>
    change some (surface n flips) = some (surface n (flips+0))
    rw [UInt32.add_zero]
  | succ k ih =>
    rw [List.replicate_succ,exec,hstep,Option.bind_some,ih,UInt32.ofNat_add,UInt32.add_assoc,
      UInt32.add_comm 1]
    rfl

/-- Before the flip count wraps the front buffer of three is the back buffer as well. After a
swap the flip count that was announced stands for another buffer. -/
theorem flips_wrap_or_swap :
    (∃ s, exec step (surface 3 0) (List.replicate (2^32-1) (.flip false)) = some s ∧
      getBuffer2 s .front .left = getBuffer2 s .back .left) ∧
    ∃ s, exec step (surface 2 0) [.update,.flip true] = some s ∧
      ∃ u ∈ s.updates, getBuffer3 s .front .left u.flipCount ≠ u.front .left := by
  refine ⟨⟨_,exec_flips (by decide) 0 (2^32-1),by decide⟩,_,rfl,⟨0,fun _ => 0⟩,?_,by decide⟩
  exact List.mem_cons_self

end Runs

end DirectFB.SurfaceFlip
