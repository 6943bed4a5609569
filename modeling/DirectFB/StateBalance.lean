import DirectFB.StateFresh
import DirectFB.DrawBalance

/-! What an acquisition of a state takes, and what it gives back where it fails on the way. -/
namespace DirectFB.StateBalance
open Function (update_eq_self update_idem update_of_ne update_self)

set_option linter.unusedSectionVars false

open CardState StateAcquire StateFresh GfxcardDraw

section Algebra

variable {T S : Type*} [DecidableEq T] [DecidableEq S] (c : Card T S) (t : T) (s s' : CardState S)
  (u v : S) (l : List S)

theorem put_lockBuffer : (c.put t s).lockBuffer u = (c.lockBuffer u).put t s := rfl

theorem put_unlockBuffer : (c.put t s).unlockBuffer u = (c.unlockBuffer u).put t s := rfl

theorem put_pushIdentity : (c.put t s).pushIdentity = c.pushIdentity.put t s := rfl

theorem put_put : (c.put t s).put t s' = c.put t s' := by
  unfold Card.put
  rw [update_idem]

theorem setFlag_put (flag : LockFlag) :
    (c.put t s).setFlag t flag = c.put t {s with flags := insert flag s.flags} := by
  unfold Card.setFlag
  rw [put_states,put_put]

theorem popIdentity_pushIdentity : c.pushIdentity.popIdentity = c := rfl

theorem dismiss_prevail : (c.prevail l).dismiss l = c := by
  unfold Card.dismiss Card.prevail
  simp only [add_tsub_cancel_right]

theorem unlockBuffer_lockBuffer : (c.lockBuffer u).unlockBuffer u = c := by
  unfold Card.unlockBuffer Card.lockBuffer
  simp only [update_self,update_idem,add_tsub_cancel_right, update_eq_self]

theorem lockBuffer_comm : (c.lockBuffer u).lockBuffer v = (c.lockBuffer v).lockBuffer u := by
  unfold Card.lockBuffer
  congr 1
  funext w
  by_cases hu : w = u <;> by_cases hv : w = v
  · subst hu hv
    rfl
  · subst hu
    simp [update_of_ne hv]
  · subst hv
    simp [update_of_ne hu]
  · simp [update_of_ne hu,update_of_ne hv]

theorem unlockBuffer_lockBuffer₂ :
    ((c.lockBuffer u).lockBuffer v).unlockBuffer u = c.lockBuffer v := by
  rw [lockBuffer_comm,unlockBuffer_lockBuffer]

theorem unlockBuffer_lockBuffer₃ (w : S) :
    (((c.lockBuffer u).lockBuffer v).lockBuffer w).unlockBuffer u =
      (c.lockBuffer v).lockBuffer w := by
  rw [lockBuffer_comm c u v,unlockBuffer_lockBuffer₂]

theorem unlockBuffer_lockBuffer₄ (w x : S) :
    ((((c.lockBuffer u).lockBuffer v).lockBuffer w).lockBuffer x).unlockBuffer u =
      ((c.lockBuffer v).lockBuffer w).lockBuffer x := by
  rw [lockBuffer_comm c u v,unlockBuffer_lockBuffer₃]

end Algebra

section Keeping

variable {S : Type*} {surfaces : S → CoreSurface} {s : CardState S} {accel : Accel} {a : Answers}

structure Keeps (s s' : CardState S) : Prop where
  flags : s'.flags = s.flags
  destination : s'.destination = s.destination
  source : s'.source = s.source
  sourceMask : s'.sourceMask = s.sourceMask
  source2 : s'.source2 = s.source2
  blittingflags : s'.blittingflags = s.blittingflags
  renderOptions : s'.renderOptions = s.renderOptions

theorem Keeps.refl (s : CardState S) : Keeps s s := ⟨rfl,rfl,rfl,rfl,rfl,rfl,rfl⟩

theorem Keeps.trans {s' s'' : CardState S} (h : Keeps s s') (h' : Keeps s' s'') : Keeps s s'' where
  flags := h'.flags.trans h.flags
  destination := h'.destination.trans h.destination
  source := h'.source.trans h.source
  sourceMask := h'.sourceMask.trans h.sourceMask
  source2 := h'.source2.trans h.source2
  blittingflags := h'.blittingflags.trans h.blittingflags
  renderOptions := h'.renderOptions.trans h.renderOptions

theorem Keeps.rest (modHw : Finset Modification) (set : Finset Accel) (s : CardState S) :
    Keeps s {s with modHw := modHw, set := set, modified := ∅} := ⟨rfl,rfl,rfl,rfl,rfl,rfl,rfl⟩

theorem Keeps.masked {s' : CardState S} (h : Keeps s s') : s'.masked = s.masked := by
  rw [CardState.masked,CardState.masked,h.blittingflags]

theorem keeps_ite {p : Prop} [Decidable p] {s' s'' : CardState S} (h : Keeps s s')
    (h' : Keeps s s'') : Keeps s (if p then s' else s'') := by
  split
  · exact h
  · exact h'

theorem keeps_clipLow (s : CardState S) : Keeps s (clipLow s) := by
  unfold clipLow
  dsimp only
  split_ifs <;> exact ⟨rfl,rfl,rfl,rfl,rfl,rfl,rfl⟩

theorem keeps_clipHigh (s : CardState S) (x y : ℤ) : Keeps s (clipHigh s x y) := by
  unfold clipHigh
  dsimp only
  split_ifs <;> exact ⟨rfl,rfl,rfl,rfl,rfl,rfl,rfl⟩

theorem keeps_enter [DecidableEq S] (d : Device) (surfaces : S → CoreSurface) (s : CardState S)
    (accel : Accel) (a : Answers) : Keeps s (enter d surfaces s accel a).2 := by
  unfold enter
  split
  · exact .refl s
  have hlow := keeps_clipLow s
  dsimp only
  split
  · exact hlow
  split
  · exact hlow
  split
  · exact hlow
  · exact hlow.trans (keeps_clipHigh _ _ _)

theorem keeps_validateClip (s : CardState S) (x y : ℤ) : Keeps s (s.validateClip x y) :=
  keeps_ite (.refl s) ⟨rfl,rfl,rfl,rfl,rfl,rfl,rfl⟩

theorem keeps_clipTo (surfaces : S → CoreSurface) (s : CardState S) (surface : Option S) :
    Keeps s (s.clipTo surfaces surface) := by
  cases surface with
  | none => exact .refl s
  | some u => exact keeps_validateClip s _ _

theorem keeps_check [DecidableEq S] (surfaces : S → CoreSurface) (accel : Accel) (a : Answers)
    (s : CardState S) : Keeps s (check surfaces s accel a).1 := by
  have hprepare : Keeps s (prepare surfaces s) := by
    have hupdate : Keeps s (s.updateDestination surfaces) := by
      have hclip := keeps_clipTo surfaces s s.destination
      exact keeps_ite ⟨hclip.flags,hclip.destination,hclip.source,hclip.sourceMask,hclip.source2,
        hclip.blittingflags,hclip.renderOptions⟩ (.refl s)
    exact hupdate.trans ⟨rfl,rfl,rfl,rfl,rfl,rfl,rfl⟩
  have hsources (s : CardState S) : Keeps s (updateSources surfaces s accel) := by
    have hsource (s : CardState S) : Keeps s (s.updateSource surfaces) :=
      keeps_ite ⟨rfl,rfl,rfl,rfl,rfl,rfl,rfl⟩ (.refl s)
    have hmask (s : CardState S) : Keeps s (s.updateSourceMask surfaces) :=
      keeps_ite ⟨rfl,rfl,rfl,rfl,rfl,rfl,rfl⟩ (.refl s)
    have hsource2 (s : CardState S) : Keeps s (s.updateSource2 surfaces) :=
      keeps_ite ⟨rfl,rfl,rfl,rfl,rfl,rfl,rfl⟩ (.refl s)
    unfold updateSources
    split
    · have hmasked : Keeps s (if (s.updateSource surfaces).masked then
          (s.updateSource surfaces).updateSourceMask surfaces else s.updateSource surfaces) :=
        keeps_ite ((hsource s).trans (hmask _)) (hsource s)
      exact keeps_ite (hmasked.trans (hsource2 _)) hmasked
    · exact .refl s
  have hcheck (s : CardState S) : Keeps s (checkState s accel a).1 := by
    unfold checkState
    split
    · exact .refl s
    · exact ⟨rfl,rfl,rfl,rfl,rfl,rfl,rfl⟩
  exact ((hprepare.trans (hsources _)).trans (hcheck _)).trans ⟨rfl,rfl,rfl,rfl,rfl,rfl,rfl⟩

end Keeping

section Locking

variable {T S : Type*} [DecidableEq T] [DecidableEq S] {d : Device} {t : T} {accel : Accel}
  {a : Answers} {l : List S} {k : Card T S} {s : CardState S} {dst src : S}

def marked (d : Device) (a : Answers) (s : CardState S) : CardState S :=
  if a.srcSystemonly && !d.readSysmem then
    {s with accel := s.accel \ Accel.allBlit, checked := s.checked ∪ Accel.allBlit}
  else s

theorem marked_flags : (marked d a s).flags = s.flags := by
  unfold marked
  split <;> rfl

theorem marked_put : (if a.srcSystemonly && !d.readSysmem then (k.put t s).put t {s with
    accel := s.accel \ Accel.allBlit, checked := s.checked ∪ Accel.allBlit} else k.put t s) =
    k.put t (marked d a s) := by
  unfold marked
  split
  · rw [put_put]
  · rfl

def flag (s : CardState S) (flag : LockFlag) : CardState S := {s with flags := insert flag s.flags}

theorem lockSources_refused (hsrc : s.source = some src)
    (hmask : s.masked = true → s.sourceMask.isSome)
    (hrefused : a.lockSrc = false ∨ s.masked = true ∧ a.lockMask = false) :
    lockSources d (k.put t s) t accel a dst l =
      some (false,((k.unlockBuffer dst).unwind l).put t (marked d a s)) := by
  unfold lockSources
  rw [put_states]
  simp only [marked_put]
  rw [hsrc,Option.bind_some]
  by_cases hs : a.lockSrc = false
  · rw [if_pos (by simp [hs])]
    rfl
  · obtain ⟨hm,hl⟩ := hrefused.resolve_left hs
    obtain ⟨mask,hmask⟩ := Option.isSome_iff_exists.mp (hmask hm)
    rw [if_neg (by simpa using hs),if_pos hm,hmask,Option.map_some,if_pos (by simp [hl])]
    simp only [Option.bind_some,put_lockBuffer,put_unlockBuffer,unlockBuffer_lockBuffer]
    rfl

theorem unlockFlagged_put (x : LockFlag) {o : Option S} {u : S} (h : x ∈ s.flags → o = some u) :
    (k.put t s).unlockFlagged t x o = some ((if x ∈ s.flags then k.unlockBuffer u else k).put t
      {s with flags := s.flags.erase x}) := by
  unfold Card.unlockFlagged
  rw [put_states]
  by_cases hx : x ∈ s.flags
  · rw [if_pos hx,if_pos hx,h hx,Option.map_some,put_unlockBuffer,put_put]
  · rw [if_neg hx,if_neg hx,Finset.erase_eq_of_notMem hx]

theorem unlockFlagged_flags {x : LockFlag} {o : Option S} {k' : Card T S}
    (h : k.unlockFlagged t x o = some k') :
    (k'.states t).flags = (k.states t).flags.erase x := by
  unfold Card.unlockFlagged at h
  split at h
  · obtain ⟨u,-,rfl⟩ := Option.map_eq_some_iff.mp h
    rw [put_states]
  · next hx =>
    cases h
    rw [Finset.erase_eq_of_notMem hx]

theorem unlockBuffers_flags {k' : Card T S} (h : k.unlockBuffers t = some k') :
    (k'.states t).flags = ∅ := by
  obtain ⟨dst,-,h⟩ := Option.bind_eq_some_iff.mp h
  obtain ⟨k₁,h₁,h⟩ := Option.bind_eq_some_iff.mp h
  obtain ⟨k₂,h₂,h₃⟩ := Option.bind_eq_some_iff.mp h
  rw [unlockFlagged_flags h₃,unlockFlagged_flags h₂,unlockFlagged_flags h₁]
  ext x
  cases x <;> simp

def flagged (s : CardState S) (accel : Accel) : CardState S :=
  let s' := if s.masked then flag s .sourceMask else s
  flag (if accel = .blit2 then flag s' .source2 else s') .source

def locked (k : Card T S) (s : CardState S) (accel : Accel) (src mask source2 : S) : Card T S :=
  let k := k.lockBuffer src
  let k := if s.masked then k.lockBuffer mask else k
  if accel = .blit2 then k.lockBuffer source2 else k

variable {mask source2 : S}

theorem marked_masked : (marked d a s).masked = s.masked := by
  unfold marked
  split <;> rfl

theorem lockSources_granted (hsrc : s.source = some src)
    (hmask : s.masked = true → s.sourceMask = some mask)
    (hsource2 : accel = .blit2 → s.source2 = some source2) (hlock : a.lockSrc = true)
    (hlockMask : s.masked = true → a.lockMask = true)
    (hlockSrc2 : accel = .blit2 → a.lockSrc2 = true) :
    lockSources d (k.put t s) t accel a dst l =
      some (true,(locked k s accel src mask source2).put t (flagged (marked d a s) accel)) := by
  unfold lockSources flagged locked
  rw [put_states]
  simp only [marked_put,marked_masked]
  rw [hsrc,Option.bind_some,if_neg (by simp [hlock])]
  by_cases hm : s.masked = true
  · rw [if_pos hm,hmask hm,Option.map_some,if_neg (by simp [hlockMask hm]),Option.bind_some,
      if_pos hm,if_pos hm]
    simp only [put_lockBuffer,setFlag_put]
    by_cases ha : accel = .blit2
    · simp [ha,hsource2 ha,hlockSrc2 ha,setFlag_put,flag]
    · simp [ha,setFlag_put,flag]
  · rw [if_neg hm,Option.bind_some,if_neg hm,if_neg hm]
    simp only [put_lockBuffer]
    by_cases ha : accel = .blit2
    · simp [ha,hsource2 ha,hlockSrc2 ha,setFlag_put,flag]
    · simp [ha,setFlag_put,flag]

/-- The second source is not locked. What is given back is that of the mask, by its flag. -/
theorem lockSources_source2 (hsrc : s.source = some src)
    (hmask : s.masked = true → s.sourceMask = some mask)
    (hsource2 : s.source2 = some source2) (hlock : a.lockSrc = true)
    (hlockMask : s.masked = true → a.lockMask = true) (hlockSrc2 : a.lockSrc2 = false) :
    lockSources d (k.put t s) t .blit2 a dst l =
      (((locked k s .blit src mask source2).put t (if s.masked then
        flag (marked d a s) .sourceMask else marked d a s)).unlockFlagged t .sourceMask
          s.sourceMask).map fun c => (false,((c.unlockBuffer src).unlockBuffer dst).unwind l) := by
  unfold lockSources locked
  rw [put_states]
  simp only [marked_put,reduceCtorEq,if_false]
  rw [hsrc,Option.bind_some,if_neg (by simp [hlock])]
  by_cases hm : s.masked = true
  · rw [if_pos hm,hmask hm,Option.map_some,if_neg (by simp [hlockMask hm]),Option.bind_some,
      if_pos hm,if_pos hm]
    simp [hsource2,hlockSrc2,put_lockBuffer,setFlag_put,flag,Function.comp_def]
  · rw [if_neg hm,Option.bind_some,if_neg hm,if_neg hm]
    simp [hsource2,hlockSrc2,put_lockBuffer,Function.comp_def]

end Locking

section Buffers

variable {T S : Type*} [DecidableEq T] [DecidableEq S] {d : Device} {t : T} {accel : Accel}
  {a : Answers} {l : List S} {c : Card T S} {s : CardState S} {dst src mask source2 : S}

def Permits (d : Device) (s : CardState S) (accel : Accel) (a : Answers) : Prop :=
  ¬(a.dstSystemonly && !(d.readSysmem && d.writeSysmem) || !d.renderOpts && s.matrix) ∧
    accel ∈ s.accel ∧ a.lockDst

def SourcesGot (s : CardState S) (accel : Accel) (a : Answers) : Prop :=
  accel.blitting → a.lockSrc ∧ (s.masked → a.lockMask)

theorem unwind_taken : ((c.prevail l).pushIdentity.unwind l) = c := by
  unfold Card.unwind
  rw [popIdentity_pushIdentity,dismiss_prevail]

omit [DecidableEq S] in
theorem bind_destination {k : Card T S} (hdst : s.destination = some dst)
    (f : S → Option (Bool × Card T S)) : ((k.put t s).states t).destination.bind f = f dst := by
  rw [put_states,hdst]
  rfl

theorem lockBuffers_refused (hdst : s.destination = some dst) (h : ¬ Permits d s accel a) :
    ∃ s', s'.flags = s.flags ∧ lockBuffers d ((c.prevail l).put t s) t accel a l =
      some (false,c.put t s') := by
  have hunwind (s' : CardState S) : (((c.prevail l).put t s').pushIdentity.unwind l) =
      c.put t s' := by
    rw [put_pushIdentity]
    exact congrArg (fun k : Card T S => k.put t s') unwind_taken
  unfold lockBuffers
  dsimp only
  rw [bind_destination hdst,put_states]
  split
  · refine ⟨{s with accel := ∅, checked := Accel.all},rfl,?_⟩
    rw [put_pushIdentity,put_put,← put_pushIdentity,hunwind]
  split
  · exact ⟨s,rfl,by rw [hunwind]⟩
  split
  · exact ⟨s,rfl,by rw [hunwind]⟩
  · next hsystem haccel hlock => exact absurd ⟨hsystem,not_not.mp haccel,by simpa using hlock⟩ h

theorem lockBuffers_permits (hdst : s.destination = some dst) (h : Permits d s accel a) :
    lockBuffers d ((c.prevail l).put t s) t accel a l = (if accel.blitting then
      lockSources d (((c.prevail l).pushIdentity.lockBuffer dst).put t s) t accel a dst l
      else some (true,((c.prevail l).pushIdentity.lockBuffer dst).put t s)).map
        fun r => if !r.1 then r else (true,r.2.dismiss l) := by
  unfold lockBuffers
  dsimp only
  rw [bind_destination hdst,put_states,if_neg h.1,if_neg (not_not.mpr h.2.1),
    if_neg (by simp [h.2.2])]
  rfl

structure Present (s : CardState S) (accel : Accel) (dst src mask source2 : S) : Prop where
  destination : s.destination = some dst
  source : accel.blitting → s.source = some src
  sourceMask : accel.blitting → s.masked → s.sourceMask = some mask
  source2 : accel = .blit2 → s.source2 = some source2

theorem lockBuffers_sources (hs : Present s accel dst src mask source2) (h : Permits d s accel a)
    (hrefused : ¬ SourcesGot s accel a) :
    ∃ s', s'.flags = s.flags ∧ lockBuffers d ((c.prevail l).put t s) t accel a l =
      some (false,c.put t s') := by
  obtain ⟨hblit,hrefused⟩ := Classical.not_imp.mp hrefused
  rw [lockBuffers_permits hs.destination h,if_pos hblit,lockSources_refused (hs.source hblit)
    (fun hm => Option.isSome_of_eq_some (hs.sourceMask hblit hm))]
  · refine ⟨marked d a s,marked_flags,?_⟩
    rw [unlockBuffer_lockBuffer,unwind_taken]
    rfl
  · by_cases hlock : a.lockSrc = true
    · simpa [hlock] using hrefused
    · exact .inl (by simpa using hlock)

def taken (c : Card T S) (s : CardState S) (accel : Accel) (dst src mask source2 : S) : Card T S :=
  if accel.blitting then locked (c.lockBuffer dst) s accel src mask source2 else c.lockBuffer dst

theorem taken_card {n : ℕ} {x : Option T} :
    {taken c s accel dst src mask source2 with lock := n, state := x} =
      taken {c with lock := n, state := x} s accel dst src mask source2 := by
  unfold taken locked
  dsimp only
  split_ifs <;> rfl

theorem taken_lock : (taken c s accel dst src mask source2).lock = c.lock := by
  unfold taken locked
  dsimp only
  split_ifs <;> rfl

theorem locked_prevail : locked (c.prevail l) s accel src mask source2 =
    (locked c s accel src mask source2).prevail l := by
  unfold locked
  dsimp only
  split_ifs <;> rfl

theorem lockBuffers_granted (hs : Present s accel dst src mask source2) (h : Permits d s accel a)
    (hgot : SourcesGot s accel a) (hlockSrc2 : accel = .blit2 → a.lockSrc2) :
    lockBuffers d ((c.prevail l).put t s) t accel a l =
      some (true,(taken c.pushIdentity s accel dst src mask source2).put t
        (if accel.blitting then flagged (marked d a s) accel else s)) := by
  have hdismiss (k : Card T S) (s' : CardState S) :
      ((k.prevail l).put t s').dismiss l = k.put t s' :=
    congrArg (fun k : Card T S => k.put t s') (dismiss_prevail k l)
  have hprevail : (c.prevail l).pushIdentity.lockBuffer dst =
    (c.pushIdentity.lockBuffer dst).prevail l := rfl
  unfold taken
  rw [lockBuffers_permits hs.destination h,hprevail]
  by_cases hblit : accel.blitting = true
  · rw [if_pos hblit,if_pos hblit,if_pos hblit,lockSources_granted (hs.source hblit)
      (hs.sourceMask hblit) hs.source2 (hgot hblit).1 (hgot hblit).2 hlockSrc2,locked_prevail,
      Option.map_some,if_neg (by simp),hdismiss]
  · rw [if_neg hblit,if_neg hblit,if_neg hblit,Option.map_some,if_neg (by simp),hdismiss]

theorem lockBuffers_source2 (hs : Present s .blit2 dst src mask source2) (h : Permits d s .blit2 a)
    (hgot : SourcesGot s .blit2 a) (hlockSrc2 : a.lockSrc2 = false)
    (hflag : .sourceMask ∉ s.flags) :
    ∃ s', s'.flags = s.flags ∧ lockBuffers d ((c.prevail l).put t s) t .blit2 a l =
      some (false,c.put t s') := by
  have hblit : Accel.blit2.blitting = true := by decide
  rw [lockBuffers_permits hs.destination h,if_pos hblit,lockSources_source2 (hs.source hblit)
    (hs.sourceMask hblit) (hs.source2 rfl) (hgot hblit).1 (hgot hblit).2 hlockSrc2]
  have hback (s' : CardState S) :
      ((((((c.prevail l).pushIdentity.lockBuffer dst).lockBuffer src).put t s').unlockBuffer
        src).unlockBuffer dst).unwind l = c.put t s' := by
    rw [put_unlockBuffer,unlockBuffer_lockBuffer,put_unlockBuffer,unlockBuffer_lockBuffer]
    exact congrArg (fun k : Card T S => k.put t s') unwind_taken
  have hmarked : LockFlag.sourceMask ∉ (marked d a s).flags := by
    rw [marked_flags]
    exact hflag
  unfold locked
  simp only [reduceCtorEq,if_false]
  by_cases hm : s.masked = true
  · have hset : LockFlag.sourceMask ∈ (flag (marked d a s) .sourceMask).flags :=
      Finset.mem_insert_self _ _
    rw [if_pos hm,if_pos hm,unlockFlagged_put .sourceMask fun _ => hs.sourceMask hblit hm,
      if_pos hset,unlockBuffer_lockBuffer,Option.map_some,hback]
    exact ⟨_,(Finset.erase_insert hmarked).trans marked_flags,rfl⟩
  · rw [if_neg hm,if_neg hm,unlockFlagged_put (u := mask) .sourceMask fun h => absurd h hmarked,
      if_neg hmarked,Option.map_some,hback]
    exact ⟨_,(Finset.erase_eq_of_notMem hmarked).trans marked_flags,rfl⟩

theorem lockBuffers_cleared (hs : Present s .blit2 dst src mask source2) (h : Permits d s .blit2 a)
    (hgot : SourcesGot s .blit2 a) (hlockSrc2 : a.lockSrc2 = false) {r : Bool × Card T S}
    (hr : lockBuffers d ((c.prevail l).put t s) t .blit2 a l = some r) :
    r.1 = false ∧ .sourceMask ∉ (r.2.states t).flags := by
  have hblit : Accel.blit2.blitting = true := by decide
  rw [lockBuffers_permits hs.destination h,if_pos hblit,lockSources_source2 (hs.source hblit)
    (hs.sourceMask hblit) (hs.source2 rfl) (hgot hblit).1 (hgot hblit).2 hlockSrc2] at hr
  obtain ⟨r',hr',rfl⟩ := Option.map_eq_some_iff.mp hr
  obtain ⟨k,hk,rfl⟩ := Option.map_eq_some_iff.mp hr'
  have hkeep : ((((k.unlockBuffer src).unlockBuffer dst).unwind l).states t).flags =
    (k.states t).flags := rfl
  simp only [Bool.not_false,if_true,true_and]
  rw [hkeep,unlockFlagged_flags hk]
  exact Finset.notMem_erase _ _

def unlocked (k : Card T S) (flags : Finset LockFlag) (dst src mask source2 : S) : Card T S :=
  let k := k.unlockBuffer dst
  let k := if .source ∈ flags then k.unlockBuffer src else k
  let k := if .sourceMask ∈ flags then k.unlockBuffer mask else k
  if .source2 ∈ flags then k.unlockBuffer source2 else k

theorem unlockBuffers_put {k : Card T S} (hdst : s.destination = some dst)
    (hsrc : .source ∈ s.flags → s.source = some src)
    (hmask : .sourceMask ∈ s.flags → s.sourceMask = some mask)
    (hsource2 : .source2 ∈ s.flags → s.source2 = some source2) :
    (k.put t s).unlockBuffers t =
      some ((unlocked k s.flags dst src mask source2).put t {s with flags := ∅}) := by
  have hempty : ((s.flags.erase .source).erase .sourceMask).erase .source2 = ∅ := by
    ext x
    cases x <;> simp
  have hmask' : LockFlag.sourceMask ∈ s.flags.erase .source ↔ .sourceMask ∈ s.flags := by simp
  have hsource2' : LockFlag.source2 ∈ (s.flags.erase .source).erase .sourceMask ↔
    .source2 ∈ s.flags := by simp
  unfold Card.unlockBuffers
  dsimp only
  rw [put_states,hdst,Option.bind_some,put_unlockBuffer,unlockFlagged_put .source hsrc,
    Option.bind_some,unlockFlagged_put (u := mask) .sourceMask fun h => hmask (hmask'.mp h),
    Option.bind_some,unlockFlagged_put (u := source2) .source2 fun h => hsource2 (hsource2'.mp h)]
  simp only [hmask',hsource2',hempty,hdst,unlocked]

theorem flagged_marked (d : Device) (a : Answers) (accel : Accel) (s : CardState S) :
    ∃ enabled checked, flagged (marked d a s) accel = {s with
    flags := (flagged s accel).flags, accel := enabled, checked := checked} := by
  unfold flagged
  rw [marked_masked]
  unfold marked flag
  dsimp only
  split_ifs <;> exact ⟨_,_,rfl⟩

theorem mem_flagged (hflags : s.flags = ∅) (x : LockFlag) : x ∈ (flagged s accel).flags ↔
    x = .source ∨ x = .sourceMask ∧ s.masked = true ∨ x = .source2 ∧ accel = .blit2 := by
  unfold flagged flag
  dsimp only
  split_ifs with hm ha ha <;> cases x <;> simp [hflags,hm,ha]

theorem unlocked_taken (hflags : s.flags = ∅) : unlocked (taken c s accel dst src mask source2)
    (if accel.blitting then flagged (marked d a s) accel else s).flags dst src mask source2 =
      c := by
  unfold taken unlocked
  by_cases hblit : accel.blitting = true
  · obtain ⟨enabled,checked,hflagged⟩ := flagged_marked d a accel s
    unfold locked
    rw [if_pos hblit,if_pos hblit]
    simp only [hflagged,mem_flagged hflags,reduceCtorEq,false_or,false_and,or_false,true_and,
      if_true]
    by_cases hm : s.masked = true <;> by_cases ha : accel = .blit2
    · simp only [hm,ha,if_true]
      rw [unlockBuffer_lockBuffer₄,unlockBuffer_lockBuffer₃,unlockBuffer_lockBuffer₂,
        unlockBuffer_lockBuffer]
    · simp only [hm,ha,if_true,if_false]
      rw [unlockBuffer_lockBuffer₃,unlockBuffer_lockBuffer₂,unlockBuffer_lockBuffer]
    · simp only [hm,ha,if_true,if_false,Bool.false_eq_true]
      rw [unlockBuffer_lockBuffer₃,unlockBuffer_lockBuffer₂,unlockBuffer_lockBuffer]
    · simp only [hm,ha,if_false,Bool.false_eq_true]
      rw [unlockBuffer_lockBuffer₂,unlockBuffer_lockBuffer]
  · have hnot (x : LockFlag) : x ∉ s.flags := by simp [hflags]
    rw [if_neg hblit,if_neg hblit]
    simp only [hnot,if_false]
    exact unlockBuffer_lockBuffer c dst

/-- A release unlocks what an acquisition locked. -/
theorem unlockBuffers_taken (hs : Present s accel dst src mask source2) (hflags : s.flags = ∅)
    {s' : CardState S}
    (h : Keeps (if accel.blitting then flagged (marked d a s) accel else s) s') :
    ((taken c s accel dst src mask source2).put t s').unlockBuffers t =
      some (c.put t {s' with flags := ∅}) := by
  have htaken : unlocked (taken c s accel dst src mask source2) (if accel.blitting then
    flagged (marked d a s) accel else s).flags dst src mask source2 = c := unlocked_taken hflags
  have hset : ∃ flags enabled checked,
      (if accel.blitting then flagged (marked d a s) accel else s) =
        {s with flags := flags, accel := enabled, checked := checked} ∧
      ∀ x ∈ flags, accel.blitting ∧ x ∈ (flagged s accel).flags := by
    by_cases hblit : accel.blitting = true
    · obtain ⟨enabled,checked,hflagged⟩ := flagged_marked d a accel s
      rw [if_pos hblit]
      exact ⟨_,enabled,checked,hflagged,fun x hx => ⟨hblit,hx⟩⟩
    · rw [if_neg hblit]
      exact ⟨_,_,_,rfl,fun x hx => absurd hx (by simp [hflags])⟩
  obtain ⟨flags,enabled,checked,hset,hmem⟩ := hset
  rw [hset] at htaken h
  have hmem (x : LockFlag) (hx : x ∈ s'.flags) : accel.blitting ∧ x ∈ (flagged s accel).flags := by
    rw [h.flags] at hx
    exact hmem x hx
  have hsource (hx : .source ∈ s'.flags) : s'.source = some src :=
    h.source.trans (hs.source (hmem _ hx).1)
  have hsourceMask (hx : .sourceMask ∈ s'.flags) : s'.sourceMask = some mask :=
    h.sourceMask.trans
      (hs.sourceMask (hmem _ hx).1 (by simpa using (mem_flagged hflags _).mp (hmem _ hx).2))
  have hsource2 (hx : .source2 ∈ s'.flags) : s'.source2 = some source2 :=
    h.source2.trans (hs.source2 (by simpa using (mem_flagged hflags _).mp (hmem _ hx).2))
  rw [unlockBuffers_put (h.destination.trans hs.destination) hsource hsourceMask hsource2,h.flags]
  exact congrArg (fun k : Card T S => some (k.put t {s' with flags := ∅})) htaken

end Buffers

section Acquisition

variable {T S : Type*} [DecidableEq T] [DecidableEq S] {d : Device} {t : T} {accel : Accel}
  {a : Answers} {l : List S} {c : Card T S} {s s' : CardState S} {dst src mask source2 : S}

structure Left (t : T) (c c' : Card T S) : Prop where
  locked : c'.locked = c.locked
  skirmish : c'.skirmish = c.skirmish
  lock : c'.lock = c.lock
  identity : c'.identity = c.identity
  flags : (c'.states t).flags = (c.states t).flags

/-- An outcome is balanced. Where the acquisition failed everything is as before. Where it succeeded
the function is still accelerated, and everything is as before after the release, if no lock was
left over from another acquisition. -/
structure Settled (t : T) (accel : Accel) (c : Card T S) (o : Outcome T S) : Prop where
  failed : o.acquired = false → Left t c o.card
  accelerated : o.acquired = true → accel ∈ (o.card.states t).accel
  released : o.acquired = true → (c.states t).flags = ∅ →
    ∃ c', release o.card t = some c' ∧ Left t c c'

def Sound (d : Device) (c : Card T S) (t : T) (accel : Accel) (a : Answers) : Prop :=
  ∃ o, checkAcquire d c t accel a = some o ∧ Settled t accel c o

/-- The answers with which an acquisition is sound. An acquisition that gets to the skirmishs has to
get them. Then there must be no flag of the mask where the second source is refused, and no flag at
all where the card is, and no source that the driver cannot read where the card is locked. -/
def Answered (d : Device) (c : Card T S) (t : T) (accel : Accel) (a : Answers) : Prop :=
  let s := c.states t
  let r := enter d c.surfaces s accel a
  r.1 → a.prevail ∧ (Permits d (check c.surfaces r.2 accel a).1 accel a → SourcesGot s accel a →
    if accel = .blit2 ∧ a.lockSrc2 = false then .sourceMask ∉ s.flags
    else if a.lockCard then accel.blitting → a.srcSystemonly → d.readSysmem
    else s.flags = ∅)

theorem enter_present {surfaces : S → CoreSurface} (h : (enter d surfaces s accel a).1 = true) :
    ∃ dst src mask source2, Present s accel dst src mask source2 := by
  have hkeeps := keeps_clipLow s
  unfold enter at h
  split at h
  · cases h
  dsimp only at h
  split at h
  · cases h
  next dst hdst =>
  split at h
  · cases h
  split at h
  · cases h
  next hmissing =>
  have hread : accel.blitting = true → s.source.isSome ∧ (s.masked = true → s.sourceMask.isSome) ∧
      (accel = .blit2 → s.source2.isSome) := by
    intro hb
    rw [missing,hb,hkeeps.source,hkeeps.masked,hkeeps.sourceMask,hkeeps.source2] at hmissing
    simpa [not_or,Option.isSome_iff_ne_none,and_assoc] using hmissing
  have hsome (o : Option S) (ho : o.isSome) : o = some (o.getD dst) := by
    obtain ⟨u,rfl⟩ := Option.isSome_iff_exists.mp ho
    rfl
  have hblit : accel = .blit2 → accel.blitting = true := by
    rintro rfl
    decide
  exact ⟨dst,s.source.getD dst,s.sourceMask.getD dst,s.source2.getD dst,
    hkeeps.destination.symm.trans hdst,fun hb => hsome _ (hread hb).1,
    fun hb hm => hsome _ ((hread hb).2.1 hm),fun ha => hsome _ ((hread (hblit ha)).2.2 ha)⟩

theorem locks_present (hs : Present s accel dst src mask source2) :
    ∃ l, (locks s accel).mapM id = some l := by
  unfold locks
  rw [hs.destination]
  by_cases hb : accel.blitting = true
  · rw [if_pos hb,hs.source hb]
    by_cases hm : s.masked = true <;> by_cases ha : accel = .blit2
    · rw [if_pos hm,if_pos ha,hs.sourceMask hb hm,hs.source2 ha]
      exact ⟨_,rfl⟩
    · rw [if_pos hm,if_neg ha,hs.sourceMask hb hm]
      exact ⟨_,rfl⟩
    · rw [if_neg hm,if_pos ha,hs.source2 ha]
      exact ⟨_,rfl⟩
    · rw [if_neg hm,if_neg ha]
      exact ⟨_,rfl⟩
  · rw [if_neg hb]
    exact ⟨_,rfl⟩

theorem Keeps.present (h : Keeps s s') (hs : Present s accel dst src mask source2) :
    Present s' accel dst src mask source2 where
  destination := h.destination.trans hs.destination
  source hb := h.source.trans (hs.source hb)
  sourceMask hb hm := h.sourceMask.trans (hs.sourceMask hb (h.masked ▸ hm))
  source2 ha := h.source2.trans (hs.source2 ha)

theorem left_put (h : s.flags = (c.states t).flags) : Left t c (c.put t s) :=
  ⟨rfl,rfl,rfl,rfl,by rw [put_states]; exact h⟩

theorem setState_put (t : T) (accel : Accel) (a : Answers) (k : Card T S) (s : CardState S) :
    ∃ modHw set,
    (setState (k.put t s) t accel a).1 = {k with state := some t}.put t
      {s with modHw := modHw, set := set, modified := ∅} := by
  have hput (s' : CardState S) : Card.put {k.put t s with state := some t} t s' =
    {k with state := some t}.put t s' := put_put {k with state := some t} t s s'
  unfold setState
  rw [put_states]
  dsimp only
  split_ifs
  all_goals
    dsimp only
    rw [hput]
    exact ⟨_,_,rfl⟩

/-- What becomes of an acquisition once the buffers are locked, or not. -/
def finish (t : T) (accel : Accel) (a : Answers) (answered : Finset Accel) (r : Bool × Card T S) :
    Option (Outcome T S) :=
  if !r.1 then some ⟨r.2,answered,none,false⟩
  else if !a.lockCard then
    (r.2.unlockBuffers t).map fun k : Card T S => ⟨k.popIdentity,answered,none,false⟩
  else some ⟨(setState {r.2 with lock := r.2.lock+1} t accel a).1,answered,
    (setState {r.2 with lock := r.2.lock+1} t accel a).2,true⟩

theorem checkAcquire_prevailed (hr : (enter d c.surfaces (c.states t) accel a).1 = true)
    (hl : (locks (c.states t) accel).mapM id = some l) (hp : a.prevail = true)
    (hs' : (check c.surfaces (enter d c.surfaces (c.states t) accel a).2 accel a).1 = s') :
    ∃ answered, checkAcquire d c t accel a =
      (lockBuffers d ((c.prevail l).put t s') t accel a l).bind (finish t accel a answered) := by
  subst hs'
  refine ⟨(check c.surfaces (enter d c.surfaces (c.states t) accel a).2 accel a).2,?_⟩
  unfold checkAcquire
  dsimp only
  rw [if_neg (by simp [hr]),hl,Option.bind_some,if_neg (by simp [hp])]
  rfl

variable {answered : Finset Accel}

theorem settled_failed {k : Card T S} {set : Option (Finset Modification)}
    (h : Left t c k) : Settled t accel c ⟨k,answered,set,false⟩ :=
  ⟨fun _ => h,fun h => Bool.noConfusion h,fun h => Bool.noConfusion h⟩

theorem refused_sound {locked : Option (Bool × Card T S)}
    (h : ∃ s'', s''.flags = (c.states t).flags ∧ locked = some (false,c.put t s'')) :
    ∃ o, locked.bind (finish t accel a answered) = some o ∧ Settled t accel c o := by
  obtain ⟨s'',hflags,rfl⟩ := h
  exact ⟨_,rfl,settled_failed (left_put hflags)⟩

theorem card_refused (hs : Present s accel dst src mask source2)
    (hflags : s.flags = (c.states t).flags) (hcard : a.lockCard = false) :
    (∃ o, finish t accel a answered (true,(taken c.pushIdentity s accel dst src mask source2).put t
        (if accel.blitting then flagged (marked d a s) accel else s)) = some o ∧ Settled t accel c o) ↔
    (c.states t).flags = ∅ := by
  unfold finish
  rw [if_neg (by simp),if_pos (by simp [hcard])]
  constructor
  · rintro ⟨o,ho,hsettled⟩
    obtain ⟨k,hk,rfl⟩ := Option.map_eq_some_iff.mp ho
    have hempty : (k.states t).flags = ∅ := unlockBuffers_flags hk
    exact (hsettled.failed rfl).flags.symm.trans hempty
  · intro hempty
    rw [unlockBuffers_taken hs (hflags.trans hempty) (.refl _),Option.map_some]
    exact ⟨_,rfl,settled_failed (left_put hempty.symm)⟩

theorem flagged_accel : (flagged s accel).accel = s.accel := by
  unfold flagged flag
  dsimp only
  split_ifs <;> rfl

theorem card_locked (hs : Present s accel dst src mask source2)
    (hflags : s.flags = (c.states t).flags) (haccel : accel ∈ s.accel) (hcard : a.lockCard = true) :
    (∃ o, finish t accel a answered (true,(taken c.pushIdentity s accel dst src mask source2).put t
        (if accel.blitting then flagged (marked d a s) accel else s)) = some o ∧ Settled t accel c o) ↔
    (accel.blitting → a.srcSystemonly → d.readSysmem) := by
  have hkept : accel ∈ (if accel.blitting then flagged (marked d a s) accel else s).accel ↔
      (accel.blitting → a.srcSystemonly → d.readSysmem) := by
    by_cases hb : accel.blitting = true
    · have hblit : accel ∈ Accel.allBlit := by simpa [Accel.blitting] using hb
      rw [if_pos hb,flagged_accel,imp_iff_right hb]
      unfold marked
      cases a.srcSystemonly <;> cases d.readSysmem <;> simp [haccel,hblit]
    · rw [if_neg hb]
      exact iff_of_true haccel fun h => absurd h hb
  unfold finish
  rw [if_neg (by simp),if_neg (by simp [hcard])]
  obtain ⟨modHw,set,hset⟩ := setState_put t accel a
    {taken c.pushIdentity s accel dst src mask source2 with lock := c.lock+1}
    (if accel.blitting then flagged (marked d a s) accel else s)
  have hlock : (taken c.pushIdentity s accel dst src mask source2).lock = c.lock := taken_lock
  have hlocked : {(taken c.pushIdentity s accel dst src mask source2).put t
      (if accel.blitting then flagged (marked d a s) accel else s) with lock := c.lock+1} =
    Card.put {taken c.pushIdentity s accel dst src mask source2 with lock := c.lock+1} t
      (if accel.blitting then flagged (marked d a s) accel else s) := rfl
  have hput : ((taken c.pushIdentity s accel dst src mask source2).put t
      (if accel.blitting then flagged (marked d a s) accel else s)).lock = c.lock := hlock
  dsimp only
  rw [hput,hlocked,hset]
  constructor
  · rintro ⟨o,ho,hsettled⟩
    cases ho
    have hacc := hsettled.accelerated rfl
    dsimp only at hacc
    rw [put_states] at hacc
    exact hkept.mp hacc
  · intro h
    refine ⟨_,rfl,fun h => Bool.noConfusion h,fun _ => ?_,fun _ hempty => ?_⟩
    · dsimp only
      rw [put_states]
      exact hkept.mpr h
    · have hback (s' : CardState S) :
          {Card.put {taken c.pushIdentity s accel dst src mask source2 with
            lock := c.lock+1, state := some t} t s' with lock := c.lock+1-1} =
          (taken {c.pushIdentity with lock := c.lock, state := some t} s accel dst src mask
            source2).put t s' :=
        congrArg (fun k : Card T S => k.put t s') (taken_card (n := c.lock) (x := some t))
      have hunlock := unlockBuffers_taken (t := t) (d := d) (a := a)
        (c := {c.pushIdentity with lock := c.lock, state := some t}) hs (hflags.trans hempty)
        (.rest modHw set _)
      have hrelease := congrArg (fun k : Card T S => k.unlockBuffers t) (hback
        {(if accel.blitting then flagged (marked d a s) accel else s) with
          modHw := modHw, set := set, modified := ∅})
      refine ⟨_,congrArg (Option.map fun k : Card T S => k.popIdentity) (hrelease.trans hunlock),
        rfl,rfl,rfl,rfl,?_⟩
      exact (congrArg CardState.flags (put_states _ _ _)).trans hempty.symm

theorem source2_refused (hs : Present s .blit2 dst src mask source2)
    (hflags : s.flags = (c.states t).flags) (hpermits : Permits d s .blit2 a)
    (hgot : SourcesGot s .blit2 a) (hlock : a.lockSrc2 = false) :
    (∃ o, (lockBuffers d ((c.prevail l).put t s) t .blit2 a l).bind (finish t .blit2 a answered) =
      some o ∧ Settled t .blit2 c o) ↔ .sourceMask ∉ (c.states t).flags := by
  rw [← hflags]
  refine ⟨?_,fun hflag => ?_⟩
  · rintro ⟨o,ho,hsettled⟩
    obtain ⟨r,hr,ho⟩ := Option.bind_eq_some_iff.mp ho
    obtain ⟨hfail,hclear⟩ := lockBuffers_cleared hs hpermits hgot hlock hr
    unfold finish at ho
    rw [hfail] at ho
    cases ho
    rw [hflags,← (hsettled.failed rfl).flags]
    exact hclear
  · have hback := lockBuffers_source2 (c := c) (t := t) (l := l) hs hpermits hgot hlock hflag
    rw [hflags] at hback
    exact refused_sound hback

theorem prevailed_settled (hs : Present s accel dst src mask source2)
    (hflags : s.flags = (c.states t).flags) :
    (∃ o, (lockBuffers d ((c.prevail l).put t s) t accel a l).bind (finish t accel a answered) =
      some o ∧ Settled t accel c o) ↔ (Permits d s accel a → SourcesGot s accel a →
        if accel = .blit2 ∧ a.lockSrc2 = false then .sourceMask ∉ (c.states t).flags
        else if a.lockCard then accel.blitting → a.srcSystemonly → d.readSysmem
        else (c.states t).flags = ∅) := by
  by_cases hpermits : Permits d s accel a
  · by_cases hgot : SourcesGot s accel a
    · rw [imp_iff_right hpermits,imp_iff_right hgot]
      by_cases hsource2 : accel = .blit2 ∧ a.lockSrc2 = false
      · rw [if_pos hsource2]
        obtain ⟨rfl,hlock⟩ := hsource2
        exact source2_refused hs hflags hpermits hgot hlock
      · have hlock : accel = .blit2 → a.lockSrc2 = true := by
          intro ha
          simpa [ha] using hsource2
        rw [if_neg hsource2,lockBuffers_granted hs hpermits hgot hlock,Option.bind_some]
        by_cases hcard : a.lockCard = true
        · rw [if_pos hcard]
          exact card_locked hs hflags hpermits.2.1 hcard
        · rw [if_neg hcard]
          exact card_refused hs hflags (by simpa using hcard)
    · have hback := lockBuffers_sources (c := c) (t := t) (l := l) hs hpermits hgot
      rw [hflags] at hback
      exact iff_of_true (refused_sound hback) fun _ h => absurd h hgot
  · have hback := lockBuffers_refused (c := c) (t := t) (l := l) hs.destination hpermits
    rw [hflags] at hback
    exact iff_of_true (refused_sound hback) fun h => absurd h hpermits

theorem acquire_sound (d : Device) (c : Card T S) (t : T) (accel : Accel) (a : Answers) :
    Sound d c t accel a ↔ Answered d c t accel a := by
  unfold Sound Answered
  dsimp only
  have henter := keeps_enter d c.surfaces (c.states t) accel a
  by_cases hr : (enter d c.surfaces (c.states t) accel a).1 = true
  · obtain ⟨dst,src,mask,source2,hpresent⟩ := enter_present hr
    obtain ⟨l,hl⟩ := locks_present hpresent
    rw [imp_iff_right hr]
    by_cases hp : a.prevail = true
    · have hkeeps := henter.trans (keeps_check c.surfaces accel a _)
      obtain ⟨answered,hchecked⟩ := checkAcquire_prevailed hr hl hp rfl
      have hgot : SourcesGot (check c.surfaces (enter d c.surfaces (c.states t) accel a).2 accel
          a).1 accel a ↔ SourcesGot (c.states t) accel a := by
        unfold SourcesGot
        rw [hkeeps.masked]
      rw [hchecked,prevailed_settled (hkeeps.present hpresent) hkeeps.flags,hgot]
      exact (and_iff_right hp).symm
    · have hnone : checkAcquire d c t accel a = none := by
        unfold checkAcquire
        dsimp only
        rw [if_neg (by simp [hr]),hl,Option.bind_some,if_pos (by simpa using hp)]
      rw [hnone]
      exact iff_of_false (fun ⟨_,ho,_⟩ => nomatch ho) fun h => hp h.1
  · have henough : checkAcquire d c t accel a =
        some ⟨c.put t (enter d c.surfaces (c.states t) accel a).2,∅,none,false⟩ := by
      unfold checkAcquire
      dsimp only
      rw [if_pos (by simpa using hr)]
    rw [henough]
    exact iff_of_true ⟨_,rfl,settled_failed (left_put henter.flags)⟩ fun h => absurd h hr

/-- The answers with which an acquisition is sound, and those with which a drawing function releases
what it acquires. -/
theorem state_balanced (d : Device) (c : Card T S) (t : T) (accel : Accel) (a : Answers) (e : Env)
    (call : Call) : (Sound d c t accel a ↔ Answered d c t accel a) ∧
      (GfxcardDraw.Balanced (call.marks e) ↔ call.Proper e) :=
  ⟨acquire_sound d c t accel a,call_balanced e call⟩

end Acquisition

def blitCard : Card Unit Bool :=
  {start.card with states := fun _ => {destination := some false, source := some true}}

/-- A driver for triangles without the abilities for clips, that does not get the state back. -/
def triangleEnv : Env where
  clipping := fun _ => false
  dstMaxW := 4096
  dstMaxH := 4096
  notriemu := false
  batchFill := false
  batchBlit := false
  checkAcquire := fun q => q.accel = .fillTriangle
  acquire := fun _ => false
  accept := fun _ => false
  batch := fun _ => none
  softAcquire := fun _ => true
  alloc := true
  clip := ⟨0,0,9,9⟩
  matrix := none
  flags := {}
  rotate90 := false

/-- The blit is acquired after it was marked, and the trapezoids are released twice. -/
theorem marked_and_acquired : ¬ Sound ⟨false,true,false,true,true⟩ blitCard () .blit
      {added := {.blit}, srcSystemonly := true} ∧
    ¬ GfxcardDraw.Balanced (Call.marks triangleEnv (.filltrapezoids [⟨0,0,4,0,4,4⟩])) := by
  refine ⟨?_,?_⟩
  · rintro ⟨o,ho,hsettled⟩
    cases ho
    exact absurd (hsettled.accelerated rfl) (by decide)
  · unfold GfxcardDraw.Balanced
    decide

end DirectFB.StateBalance
