import DirectFB.SurfaceManagerMuckOut

/-! The heap of video memory after an adjustment of its offset, which warns where the first chunk
cannot give way but goes on. -/
namespace DirectFB.SurfaceManager.Adjust
open DoublyLinked Transition Shared Displace

variable {α : Type*}

def Consistent (manager : SurfaceManager α) : Prop :=
  ∃ l, Represents manager.memory (some manager.chunks) l ∧ Spans manager.offset l manager.length ∧
    manager.avail = manager.length-manager.offset-held l

def GivesWay (manager : SurfaceManager α) (offset : ℤ) : Prop :=
  ∃ n, manager.memory manager.chunks = some n ∧ n.data.buffer = none ∧
    offset ≤ n.data.offset+n.data.length

def Resizable (memoryLength : ℤ) (manager : SurfaceManager α) : Prop :=
  ∃ n, manager.memory manager.chunks = some n ∧ n.data.buffer ≠ some ⟨.videoOnly⟩ ∧
    manager.offset ≤ memoryLength ∧ (n.data.buffer ≠ none → manager.offset < memoryLength)

/-- Lengths are positive, no memory is paid for without being handed out, the heap is set to another
length only where it can be, and the offset moves only where the first chunk gives way. -/
def Kept (manager : SurfaceManager α) : Shared.Event α → Prop
  | .allocate memoryLength calloc allocation length _ => 0 < length ∧ (length ≤ manager.avail →
      (OutOfDate memoryLength manager → Resizable memoryLength manager) ∧
      ∀ a ∈ allocation, a.buffer.policy = .videoOnly →
        HasRoom (manager.workaround memoryLength) length →
        HasExact (manager.workaround memoryLength) length ∨ calloc = true)
  | .deallocate _ => True
  | .adjustHeapOffset offset => 0 ≤ offset ∧ (GivesWay manager offset ∨ offset = manager.offset)

variable {manager man : SurfaceManager α} {l : List (ℕ × Chunk α)} {memoryLength : ℤ}

theorem workaround_eq (h : ¬ OutOfDate memoryLength manager) :
    manager.workaround memoryLength = manager := by
  unfold SurfaceManager.workaround
  split
  · next chunk prev hn =>
    rw [if_pos]
    by_contra hlen
    exact h ⟨_,hn,rfl,hlen⟩
  · rfl

variable {c : ℕ} {length : ℤ} {calloc : Bool} {ret : Option ℕ}

theorem length_splitChunk
    (h : Shared.splitChunk manager c length calloc = some (man,ret)) :
    man.length = manager.length := by
  obtain ⟨n,-,h⟩ := Option.bind_eq_some_iff.mp h
  split_ifs at h
  · obtain ⟨rfl,-⟩ := Prod.mk.inj (Option.some.inj h)
    rfl
  · obtain ⟨⟨m,q⟩,hm,heq⟩ := Option.map_eq_some_iff.mp h
    obtain ⟨rfl,-⟩ := Prod.mk.inj heq
    obtain ⟨n',-,hm⟩ := Option.map_eq_some_iff.mp hm
    split_ifs at hm
    · obtain ⟨rfl,-⟩ := Prod.mk.inj hm
      rfl
    · obtain ⟨rfl,-⟩ := Prod.mk.inj hm
      rfl

theorem length_occupyChunk {allocation : CoreSurfaceAllocation α} {length pitch : ℤ}
    (h : Shared.occupyChunk manager c allocation length pitch calloc = some (man,ret)) :
    man.length = manager.length := by
  obtain ⟨⟨m,q⟩,hsplit,heq⟩ := Option.map_eq_some_iff.mp h
  have hm := length_splitChunk hsplit
  cases q with
  | none =>
    obtain ⟨rfl,-⟩ := Prod.mk.inj heq
    exact hm
  | some q =>
    obtain ⟨rfl,-⟩ := Prod.mk.inj heq
    exact hm

theorem length_allocate {allocation : Option (CoreSurfaceAllocation α)}
    {length pitch : ℤ} {r : DirectResult} (hsusp : manager.suspended = false)
    (havail : ¬ manager.avail < length)
    (h : Shared.allocate memoryLength calloc manager allocation length pitch = some (r,man,ret)) :
    man.length = (manager.workaround memoryLength).length := by
  unfold Shared.allocate at h
  rw [if_neg (by simp [hsusp]),if_neg havail] at h
  obtain ⟨best,-,h⟩ := Option.bind_eq_some_iff.mp h
  cases best with
  | none =>
    simp only [Option.some.injEq,Prod.mk.injEq] at h
    rw [h.2.1]
  | some best =>
    cases allocation with
    | none =>
      simp only [Option.some.injEq,Prod.mk.injEq] at h
      rw [h.2.1]
    | some allocation =>
      obtain ⟨⟨m,q⟩,hocc,heq⟩ := Option.map_eq_some_iff.mp h
      simp only [Prod.mk.injEq] at heq
      rw [← heq.2.1]
      exact length_occupyChunk hocc

theorem length_deallocate {r : DirectResult} (h : manager.deallocate c = some (r,man)) :
    man.length = manager.length := by
  obtain ⟨⟨m,q⟩,hfree,heq⟩ := Option.map_eq_some_iff.mp h
  obtain ⟨-,rfl⟩ := Prod.mk.inj heq
  obtain ⟨n,-,hm⟩ := Option.map_eq_some_iff.mp hfree
  cases hb : n.data.buffer with
  | none =>
    rw [hb] at hm
    obtain ⟨rfl,-⟩ := Prod.mk.inj hm
    rfl
  | some buffer =>
    rw [hb] at hm
    obtain ⟨rfl,-⟩ := Prod.mk.inj hm
    rfl

theorem length_adjustHeapOffset {offset : ℤ} (h : adjustHeapOffset manager offset = some man) :
    man.length = manager.length := by
  obtain ⟨n,-,rfl⟩ := Option.map_eq_some_iff.mp h
  rfl

theorem worked_around (h : Account manager.length manager l)
    (hsize : OutOfDate memoryLength manager → Resizable memoryLength manager) :
    ∃ l', Account (manager.workaround memoryLength).length (manager.workaround memoryLength) l' := by
  by_cases hout : OutOfDate memoryLength manager
  · obtain ⟨n,hn,hbuffer,hle,hlt⟩ := hsize hout
    obtain ⟨n',hn',hnext,hlen⟩ := hout
    rw [hn] at hn'
    obtain rfl := Option.some.inj hn'
    obtain ⟨c,rest,rfl⟩ := h.sound.head
    have hrep : Represents manager.memory (some manager.chunks) ([]++(manager.chunks,c)::rest) :=
      h.sound.represents
    rw [hrep.node] at hn
    obtain rfl := Option.some.inj hn
    obtain rfl : rest = [] := by
      cases rest with
      | nil => rfl
      | cons a rest => cases hnext
    let f (d : Chunk α) : Chunk α := {d with length := memoryLength-manager.offset}
    have hwork : manager.workaround memoryLength = {manager with
        length := memoryLength
        avail := memoryLength-manager.offset
        memory := setData manager.memory manager.chunks f} := by
      unfold SurfaceManager.workaround
      rw [hrep.node]
      exact if_neg hlen
    rw [hwork]
    refine ⟨[(manager.chunks,f c)],⟨hrep.setData f,fun p hp => ?_,h.sound.not_suspended⟩,?_,
      List.isChain_singleton _,?_,?_⟩
    · simpa using h.sound.fresh p hp
    · have hused : c.allocation.isSome → manager.offset < memoryLength := by
        intro hs
        refine hlt ?_
        have := h.owned (manager.chunks,c) (by simp)
        show c.buffer ≠ none
        rw [this]
        simpa [Option.isSome_iff_ne_none] using hs
      refine ⟨h.spans.1,by show 0 ≤ memoryLength-manager.offset; omega,fun hs => ?_,?_⟩
      · have := hused hs
        show 0 < memoryLength-manager.offset
        omega
      · show manager.offset+(memoryLength-manager.offset) = memoryLength
        omega
    · intro a ha
      obtain rfl := List.mem_singleton.mp ha
      exact h.owned (manager.chunks,c) (by simp)
    · have hfree : c.buffer ≠ some ⟨.videoOnly⟩ := hbuffer
      simp [held,heldLength,f,hfree]
  · rw [workaround_eq hout]
    exact ⟨l,h⟩

theorem adjust_refused (h : Account manager.length manager l) {offset : ℤ}
    (hno : ¬ GivesWay manager offset) : adjustHeapOffset manager offset =
      some {manager with avail := manager.avail-(offset-manager.offset), offset := offset} := by
  obtain ⟨c,rest,rfl⟩ := h.sound.head
  have hrep : Represents manager.memory (some manager.chunks) ([]++(manager.chunks,c)::rest) :=
    h.sound.represents
  rw [adjustHeapOffset,hrep.node]
  simp only [Option.map_some,Option.some.injEq]
  rw [if_neg]
  rintro ⟨hfree,hfits⟩
  exact hno ⟨_,hrep.node,by simpa using hfree,hfits⟩

theorem adjust_same (h : Account manager.length manager l)
    (hno : ¬ GivesWay manager manager.offset) :
    adjustHeapOffset manager manager.offset = some manager := by
  rw [adjust_refused h hno]
  simp

/-- A step that is kept to the accounts keeps them. -/
theorem step_account {e : Shared.Event α} (h : Account manager.length manager l)
    (hkept : Kept manager e) (hs : Shared.step manager e = some man) :
    ∃ l', Account man.length man l' := by
  cases e with
  | allocate memoryLength calloc allocation length pitch =>
    obtain ⟨hpos,hkept⟩ := hkept
    by_cases havail : manager.avail < length
    · have hman : Shared.allocate memoryLength calloc manager allocation length pitch =
          some (.tempUnavail,manager,none) := by
        unfold Shared.allocate
        rw [if_neg (by simp [h.sound.not_suspended]),if_pos havail]
      rw [Shared.step,hman] at hs
      obtain rfl := Option.some.inj hs
      exact ⟨l,h⟩
    obtain ⟨hsize,hpaid⟩ := hkept (not_lt.mp havail)
    obtain ⟨lw,hw⟩ := worked_around h hsize
    obtain ⟨r,man',ret,l',hman,hsound,hout,hplaced⟩ :=
      h.sound.allocate hw.sound calloc allocation length pitch
    have hlength := length_allocate h.sound.not_suspended havail hman
    rw [Shared.step,hman] at hs
    obtain rfl := Option.some.inj hs
    show ∃ l', Account man'.length man' l'
    cases hout with
    | tempUnavail hno => exact absurd hno havail
    | noVideoMemory => exact ⟨lw,hw⟩
    | look => exact ⟨lw,hw⟩
    | @failed a _ _ hroom hexact hcalloc hkeep =>
      by_cases hpolicy : a.buffer.policy = .videoOnly
      · rcases hpaid a rfl hpolicy hroom with he | he
        · exact absurd he hexact
        · rw [hcalloc] at he
          cases he
      · rw [hkeep hpolicy]
        exact ⟨lw,hw⟩
    | @placed a _ q _ hroom hsplit hocc =>
      obtain ⟨pre,p,c,post,rfl,hfits,hpl⟩ := hplaced a rfl q rfl
      rw [hlength]
      exact ⟨l',hw.place hpos hfits hsound hpl⟩
  | deallocate c =>
    obtain ⟨⟨r,man'⟩,hman,rfl⟩ := Option.map_eq_some_iff.mp hs
    show ∃ l', Account man'.length man' l'
    obtain ⟨⟨man'',q⟩,hfree,-⟩ := Option.map_eq_some_iff.mp hman
    obtain ⟨n,hn,-⟩ := Option.map_eq_some_iff.mp hfree
    obtain ⟨pre,post,rfl⟩ := h.sound.represents.exists_split hn
    have hlength := length_deallocate hman
    cases ha : n.data.allocation with
    | none =>
      have hbuffer : n.data.buffer = none := by
        simpa [ha] using h.owned (c,n.data) (by simp)
      simp only [SurfaceManager.deallocate,SurfaceManager.freeChunk,hn,Option.map_some,hbuffer,
        Option.some.injEq,Prod.mk.injEq] at hman
      exact ⟨_,hman.2 ▸ h⟩
    | some allocation =>
      obtain ⟨man₂,l',hman₂,haccount,-⟩ := h.free ha
      rw [hman₂] at hman
      obtain ⟨-,rfl⟩ := Prod.mk.inj (Option.some.inj hman)
      rw [hlength]
      exact ⟨l',haccount⟩
  | adjustHeapOffset offset =>
    have hman : adjustHeapOffset manager offset = some man := hs
    by_cases hway : GivesWay manager offset
    · obtain ⟨n,hn,hfree,hfits⟩ := hway
      obtain ⟨l',haccount,-⟩ := h.adjust hn hfree hfits hman
      rw [length_adjustHeapOffset hman]
      exact ⟨l',haccount⟩
    · obtain rfl := hkept.2.resolve_left hway
      rw [adjust_same h hway] at hman
      obtain rfl := Option.some.inj hman
      exact ⟨l,h⟩

theorem reaches_account (hlength : 0 ≤ length)
    (h : Reaches Shared.step Kept (fun m => m = create length) manager) :
    ∃ l, Account manager.length manager l := by
  refine h.invariant (fun m => ∃ l, Account m.length m l) ?_ ?_
  · rintro _ rfl
    exact ⟨_,.create hlength⟩
  · rintro m e m' ⟨l,haccount⟩ hkept hs
    exact step_account haccount hkept hs

theorem consistent (h : Account manager.length manager l) : Consistent manager :=
  ⟨l,h.sound.represents,h.spans,h.avail_eq⟩

theorem Consistent.offset_eq (h : Consistent manager) {n : Node (Chunk α)}
    (hn : manager.memory manager.chunks = some n) : n.data.offset = manager.offset := by
  obtain ⟨l,hrep,hspans,-⟩ := h
  have hhead := hrep.head_eq
  cases l with
  | nil => cases hhead
  | cons a rest =>
    obtain ⟨p,c⟩ := a
    obtain rfl : manager.chunks = p := Option.some.inj hhead
    have hrep : Represents manager.memory (some manager.chunks) ([]++(manager.chunks,c)::rest) :=
      hrep
    rw [hrep.node] at hn
    obtain rfl := Option.some.inj hn
    exact hspans.1

theorem Consistent.bounds (h : Consistent manager) {n : Node (Chunk α)}
    (hn : manager.memory c = some n) :
    manager.offset ≤ n.data.offset ∧ n.data.offset+n.data.length ≤ manager.length := by
  obtain ⟨l,hrep,hspans,-⟩ := h
  obtain ⟨pre,post,rfl⟩ := hrep.exists_split hn
  exact hspans.mem (a := (c,n.data)) (by simp)

/-- The heap is consistent as long as nothing else is asked of it than what can be done; chunks, and
so what is handed out, are within it. An adjustment keeps it, or leaves it alone, just where the
first chunk gives way or the offset stays. -/
theorem adjust_consistent_iff {length : ℤ} (hlength : 0 ≤ length)
    (h : Reaches Shared.step Kept (fun m => m = create length) manager) :
    Consistent manager ∧
    (∀ c n, manager.memory c = some n →
      manager.offset ≤ n.data.offset ∧ n.data.offset+n.data.length ≤ manager.length) ∧
    ∀ offset, 0 ≤ offset → ∃ man, adjustHeapOffset manager offset = some man ∧
      ((Consistent man ∨ ¬ GivesWay manager offset ∧ man = manager) ↔
        GivesWay manager offset ∨ offset = manager.offset) := by
  obtain ⟨l,haccount⟩ := reaches_account hlength h
  have hconsistent := consistent haccount
  refine ⟨hconsistent,fun c n hn => hconsistent.bounds hn,fun offset _ => ?_⟩
  by_cases hway : GivesWay manager offset
  · obtain ⟨n,hn,hfree,hfits⟩ := hway
    have hman : adjustHeapOffset manager offset ≠ none := by
      rw [adjustHeapOffset,hn]
      simp
    obtain ⟨man,hman⟩ := Option.ne_none_iff_exists'.mp hman
    obtain ⟨l',haccount',-⟩ := haccount.adjust hn hfree hfits hman
    rw [← length_adjustHeapOffset hman] at haccount'
    exact ⟨man,hman,iff_of_true (.inl (consistent haccount')) (.inl ⟨n,hn,hfree,hfits⟩)⟩
  · refine ⟨_,adjust_refused haccount hway,?_⟩
    constructor
    · rintro (hc | ⟨-,heq⟩)
      · obtain ⟨c,rest,rfl⟩ := haccount.sound.head
        have hrep : Represents manager.memory (some manager.chunks)
          ([]++(manager.chunks,c)::rest) := haccount.sound.represents
        exact .inr ((hc.offset_eq hrep.node).symm.trans (hconsistent.offset_eq hrep.node))
      · exact .inr (congrArg SurfaceManager.offset heq)
    · rintro (hyes | rfl)
      · exact absurd hyes hway
      · exact .inr ⟨hway,by simp⟩

/-- A chunk at the end is handed out before the offset moves. -/
theorem adjust_consistent_below : ∃ man man' : SurfaceManager ℕ,
    Shared.step (create 100) (.allocate 100 true (some ⟨0,⟨.videoOnly⟩⟩) 40 4) = some man ∧
    adjustHeapOffset man 60 = some man' ∧ Consistent man' ∧ man'.avail = 0 := by
  have hkept : Kept (create 100 : SurfaceManager ℕ)
      (.allocate 100 true (some ⟨0,⟨.videoOnly⟩⟩) 40 4) := by
    refine ⟨by decide,fun _ => ⟨?_,fun _ _ _ _ => .inr rfl⟩⟩
    rintro ⟨n,hn,-,hlen⟩
    obtain rfl := Option.some.inj hn
    exact absurd rfl hlen
  obtain ⟨-,-,h⟩ := adjust_consistent_iff (by decide : (0 : ℤ) ≤ 100) (.step _ (.init rfl) hkept rfl)
  obtain ⟨man',hman',hiff⟩ := h 60 (by decide)
  have hway := hiff.mpr (.inl ⟨_,rfl,rfl,le_rfl⟩)
  have hc : Consistent man' := by
    rcases hway with hc | ⟨hno,-⟩
    · exact hc
    · exact absurd ⟨_,rfl,rfl,le_rfl⟩ hno
  refine ⟨_,man',rfl,hman',hc,?_⟩
  obtain rfl := Option.some.inj hman'
  rfl

/-- Less is free at the beginning than the offset needs: nothing moves, but the offset is set and
what it would have taken is no longer available. -/
theorem offset_set_in_vain : ¬ ∀ manager : SurfaceManager ℕ,
    Reaches Shared.step (fun _ _ => True) (fun m => m = create 100) manager →
      ∀ offset, 0 ≤ offset → ∃ man, adjustHeapOffset manager offset = some man ∧
        (Consistent man ∨ ¬ GivesWay manager offset ∧ man = manager) := by
  intro h
  have hr : Reaches Shared.step (fun _ _ => True) (fun m => m = create 100) _ :=
    .step (.allocate 100 true (some ⟨0,⟨.videoOnly⟩⟩) 40 4) (.init rfl) trivial rfl
  obtain ⟨man,hman,hc | ⟨-,heq⟩⟩ := h _ hr 70 (by decide)
  · obtain rfl := Option.some.inj hman
    have := hc.offset_eq rfl
    cases this
  · obtain rfl := Option.some.inj hman
    cases congrArg SurfaceManager.offset heq

end DirectFB.SurfaceManager.Adjust
