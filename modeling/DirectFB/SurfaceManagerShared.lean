import DirectFB.SurfaceManager

/-! The heap of video memory where the shared memory for a new chunk may run out, and where
the heap's offset is adjusted. -/
namespace DirectFB.SurfaceManager.Shared
open DoublyLinked Transition

variable {α : Type*}

/-- `calloc` tells whether `SHCALLOC` finds memory. -/
def splitChunk (manager : SurfaceManager α) (c : ℕ) (length : ℤ) (calloc : Bool) :
    Option (SurfaceManager α × Option ℕ) :=
  (manager.memory c).bind fun chunk =>
    if chunk.data.length ≠ length ∧ calloc = false then some (manager,none)
    else (manager.splitChunk c length).map fun (manager,c) => (manager,some c)

/-- The memory is no longer available before the chunk is split. -/
def occupyChunk (manager : SurfaceManager α) (c : ℕ) (allocation : CoreSurfaceAllocation α)
    (length pitch : ℤ) (calloc : Bool) : Option (SurfaceManager α × Option ℕ) :=
  let avail :=
    if allocation.buffer.policy = .videoOnly then manager.avail-length else manager.avail
  (splitChunk {manager with avail := avail} c length calloc).map fun (manager,c) =>
    match c with
    | none => (manager,none)
    | some c =>
      ({manager with
        memory := setData manager.memory c fun d =>
          {d with allocation := some allocation, buffer := some allocation.buffer, pitch := pitch}
        minToleration := manager.minToleration+1},some c)

/-- Allocation, which does not look at what `occupy_chunk` returns. -/
def allocate (memoryLength : ℤ) (calloc : Bool) (manager : SurfaceManager α)
    (allocation : Option (CoreSurfaceAllocation α)) (length pitch : ℤ) :
    Option (DirectResult × SurfaceManager α × Option ℕ) :=
  if manager.suspended then some (.suspended,manager,none)
  else if manager.avail < length then some (.tempUnavail,manager,none)
  else
    let manager := manager.workaround memoryLength
    (bestFree manager.memory length allocation.isNone manager.nextChunk (some manager.chunks)
      none).bind fun best =>
      match best,allocation with
      | none,_ => some (.noVideoMemory,manager,none)
      | some _,none => some (.ok,manager,none)
      | some best,some allocation =>
        (occupyChunk manager best allocation length pitch calloc).map fun (manager,c) =>
          (.ok,manager,c)

/-- `avail` and `offset` change also where the first chunk cannot. -/
def adjustHeapOffset (manager : SurfaceManager α) (offset : ℤ) : Option (SurfaceManager α) :=
  (manager.memory manager.chunks).map fun chunk =>
    {manager with
      memory :=
        if chunk.data.buffer.isNone ∧ offset ≤ chunk.data.offset+chunk.data.length then
          setData manager.memory manager.chunks fun d =>
            {d with length := d.offset+d.length-offset, offset := offset}
        else manager.memory
      avail := manager.avail-(offset-manager.offset)
      offset := offset}

theorem occupyChunk_succeeds {manager : SurfaceManager α} {c : ℕ} {calloc : Bool} {length : ℤ}
    (h : ∀ n, manager.memory c = some n → n.data.length ≠ length → calloc = true)
    (allocation : CoreSurfaceAllocation α) (pitch : ℤ) :
    occupyChunk manager c allocation length pitch calloc =
      (manager.occupyChunk c allocation length pitch).map fun (manager,c) => (manager,some c) := by
  unfold occupyChunk splitChunk SurfaceManager.occupyChunk SurfaceManager.splitChunk
  cases hn : manager.memory c with
  | none => simp [hn]
  | some n =>
    have hcalloc : ¬ (n.data.length ≠ length ∧ calloc = false) := fun hf => by
      have := h n hn hf.1
      simp [this] at hf
    simp [hn,hcalloc]

structure Sound (manager : SurfaceManager α) (l : List (ℕ × Chunk α)) : Prop where
  represents : Represents manager.memory (some manager.chunks) l
  fresh : ∀ p, manager.nextChunk ≤ p → manager.memory p = none
  not_suspended : manager.suspended = false

section Sound

variable {manager : SurfaceManager α} {l pre post : List (ℕ × Chunk α)} {p : ℕ} {c : Chunk α}

theorem Sound.create (length : ℤ) : Sound (create length : SurfaceManager α)
    [(0,⟨0,length-0,0,none,none⟩)] where
  represents := by
    refine ⟨rfl,⟨rfl,trivial⟩,by simp,fun p hp => ?_⟩
    by_contra hne
    simp [SurfaceManager.create,show p ≠ 0 by simpa using hne] at hp
  fresh p hp := by
    have : p ≠ 0 := by simp only [SurfaceManager.create] at hp; omega
    simp [SurfaceManager.create,this]
  not_suspended := rfl

theorem Sound.head (h : Sound manager l) : ∃ c rest, l = (manager.chunks,c)::rest := by
  have hhead := h.represents.head_eq
  cases l with
  | nil => cases hhead
  | cons a rest => exact ⟨a.2,rest,by rw [Option.some.inj hhead]⟩

theorem Sound.setHead (h : Sound manager l) (f : Chunk α → Chunk α) :
    ∃ l', Represents (setData manager.memory manager.chunks f) (some manager.chunks) l' := by
  obtain ⟨c,rest,rfl⟩ := h.head
  have hrep : Represents manager.memory (some manager.chunks) ([]++(manager.chunks,c)::rest) :=
    h.represents
  exact ⟨_,hrep.setData f⟩

theorem Sound.workedAround (h : Sound manager l) (memoryLength : ℤ) :
    ∃ l', Sound (manager.workaround memoryLength) l' := by
  obtain ⟨l',hl'⟩ := h.setHead fun d => {d with length := memoryLength-manager.offset}
  unfold SurfaceManager.workaround
  split
  · split_ifs
    · exact ⟨l,h⟩
    · refine ⟨l',hl',fun p hp => ?_,h.not_suspended⟩
      simpa using h.fresh p hp
  · exact ⟨l,h⟩

theorem Sound.adjust (h : Sound manager l) {offset : ℤ} {man : SurfaceManager α}
    (hman : adjustHeapOffset manager offset = some man) : ∃ l', Sound man l' := by
  obtain ⟨l',hl'⟩ := h.setHead fun d =>
    {d with length := d.offset+d.length-offset, offset := offset}
  obtain ⟨n,hn,rfl⟩ := Option.map_eq_some_iff.mp hman
  by_cases hfits : n.data.buffer.isNone ∧ offset ≤ n.data.offset+n.data.length
  · rw [if_pos hfits]
    refine ⟨l',hl',fun p hp => ?_,h.not_suspended⟩
    simpa using h.fresh p hp
  · rw [if_neg hfits]
    exact ⟨l,h.represents,h.fresh,h.not_suspended⟩

theorem freeChunk_used {n : Node (Chunk α)} (hn : manager.memory p = some n)
    {buffer : CoreSurfaceBuffer} (hb : n.data.buffer = some buffer) :
    manager.freeChunk p =
      let memory :=
        setData manager.memory p fun d => {d with allocation := none, buffer := none}
      some ({manager with
        memory := mergeNext (mergePrev memory p).1 (mergePrev memory p).2
        avail := if buffer.policy = .videoOnly then manager.avail+n.data.length
          else manager.avail
        minToleration := manager.minToleration-1},(mergePrev memory p).2) := by
  simp only [SurfaceManager.freeChunk,hn,Option.map_some,hb]

theorem Sound.free (h : Sound manager l) {man : SurfaceManager α} {q : ℕ}
    (hman : manager.freeChunk p = some (man,q)) : ∃ l', Sound man l' := by
  obtain ⟨n,hn,-⟩ := Option.map_eq_some_iff.mp hman
  obtain ⟨pre,post,rfl⟩ := h.represents.exists_split hn
  cases hb : n.data.buffer with
  | none =>
    simp only [SurfaceManager.freeChunk,hn,Option.map_some,hb,Option.some.injEq] at hman
    obtain ⟨rfl,-⟩ := Prod.mk.inj hman
    exact ⟨_,h⟩
  | some buffer =>
    rw [freeChunk_used hn hb] at hman
    obtain ⟨rfl,-⟩ := Prod.mk.inj (Option.some.inj hman)
    obtain ⟨pre',q,d,hq,hprev,-⟩ := mergePrev_represents
      (h.represents.setData fun d => {d with allocation := none, buffer := none})
    obtain ⟨post',e,hnext,-⟩ := mergeNext_represents hprev
    rw [hq]
    refine ⟨_,hnext,fun r hr => ?_,h.not_suspended⟩
    exact mergeNext_eq_none (mergePrev_eq_none (setData_eq_none.mpr (h.fresh r hr)))

structure Placed (manager : SurfaceManager α) (pre post : List (ℕ × Chunk α)) (p : ℕ)
    (c : Chunk α) (allocation : CoreSurfaceAllocation α) (length pitch : ℤ)
    (man : SurfaceManager α) (q : ℕ) (l' : List (ℕ × Chunk α)) : Prop where
  list_eq : l' = pre++remainder p c length++(q,tail c allocation length pitch)::post
  offset_eq : man.offset = manager.offset
  avail_eq : man.avail = manager.avail-heldLength (tail c allocation length pitch)

theorem Sound.occupy (h : Sound manager (pre++(p,c)::post))
    (allocation : CoreSurfaceAllocation α) (length pitch : ℤ) :
    ∃ man q l', manager.occupyChunk p allocation length pitch = some (man,q) ∧ Sound man l' ∧
      Placed manager pre post p c allocation length pitch man q l' := by
  obtain ⟨man,q,hman,hrep,hfresh,hoffset,havail,hsusp⟩ :=
    occupyChunk_represents h.represents h.fresh allocation length pitch
  exact ⟨man,q,_,hman,⟨hrep,hfresh,hsusp.trans h.not_suspended⟩,rfl,hoffset,havail⟩

theorem Sound.occupyShared (h : Sound manager (pre++(p,c)::post))
    (allocation : CoreSurfaceAllocation α) (length pitch : ℤ) (calloc : Bool) :
    ∃ man ret l', occupyChunk manager p allocation length pitch calloc = some (man,ret) ∧
      Sound man l' ∧ (ret = none ↔ c.length ≠ length ∧ calloc = false) ∧
      (ret = none → allocation.buffer.policy ≠ .videoOnly → man = manager) ∧
      ∀ q ∈ ret, Placed manager pre post p c allocation length pitch man q l' := by
  by_cases hfail : c.length ≠ length ∧ calloc = false
  · refine ⟨{manager with avail := if allocation.buffer.policy = .videoOnly then
      manager.avail-length else manager.avail},none,pre++(p,c)::post,?_,?_,by simp [hfail],
      fun _ hpolicy => ?_,by simp⟩
    · unfold occupyChunk splitChunk
      simp only [h.represents.node,Option.bind_some,if_pos hfail,Option.map_some]
    · exact ⟨h.represents,h.fresh,h.not_suspended⟩
    · simp only [if_neg hpolicy]
  · obtain ⟨man,q,l',hman,hsound,hplaced⟩ := h.occupy allocation length pitch
    refine ⟨man,some q,l',?_,hsound,by simp [hfail],by simp,?_⟩
    · rw [occupyChunk_succeeds,hman]
      · rfl
      · intro n hn hlen
        rw [h.represents.node] at hn
        obtain rfl := Option.some.inj hn
        simpa using not_and.mp hfail hlen
    · rintro _ ⟨⟩
      exact hplaced

end Sound

def HasRoom (manager : SurfaceManager α) (length : ℤ) : Prop :=
  ∃ c n, manager.memory c = some n ∧ Fits length n.data

def HasExact (manager : SurfaceManager α) (length : ℤ) : Prop :=
  ∃ c n, manager.memory c = some n ∧ Fits length n.data ∧ n.data.length = length

def Occupied (manager : SurfaceManager α) (allocation : CoreSurfaceAllocation α)
    (length pitch : ℤ) (c : ℕ) : Prop :=
  ∃ n, manager.memory c = some n ∧ n.data.allocation = some allocation ∧
    n.data.buffer = some allocation.buffer ∧ n.data.length = length ∧ n.data.pitch = pitch

theorem Sound.hasRoom_iff {manager : SurfaceManager α} {l : List (ℕ × Chunk α)}
    (h : Sound manager l) {length : ℤ} :
    HasRoom manager length ↔ ∃ a ∈ l, Fits length a.2 := by
  constructor
  · rintro ⟨c,n,hn,hfits⟩
    obtain ⟨pre,post,rfl⟩ := h.represents.exists_split hn
    exact ⟨_,List.mem_append_right pre List.mem_cons_self,hfits⟩
  · rintro ⟨⟨c,d⟩,hmem,hfits⟩
    obtain ⟨n,hn,rfl⟩ := h.represents.exists_node hmem
    exact ⟨c,n,hn,hfits⟩

/-- What a request comes to. A smallest free chunk that is long enough has the length of the
request if any chunk has. -/
inductive Outcome (memoryLength : ℤ) (calloc : Bool) (manager : SurfaceManager α)
    (length pitch : ℤ) : Option (CoreSurfaceAllocation α) → DirectResult → SurfaceManager α →
    Option ℕ → Prop
  | tempUnavail {allocation : Option (CoreSurfaceAllocation α)} : manager.avail < length →
    Outcome memoryLength calloc manager length pitch allocation .tempUnavail manager none
  | noVideoMemory {allocation : Option (CoreSurfaceAllocation α)} : ¬ manager.avail < length →
    ¬ HasRoom (manager.workaround memoryLength) length →
    Outcome memoryLength calloc manager length pitch allocation .noVideoMemory
      (manager.workaround memoryLength) none
  | look : ¬ manager.avail < length → HasRoom (manager.workaround memoryLength) length →
    Outcome memoryLength calloc manager length pitch none .ok (manager.workaround memoryLength) none
  | failed {allocation : CoreSurfaceAllocation α} {man : SurfaceManager α} :
    ¬ manager.avail < length → HasRoom (manager.workaround memoryLength) length →
    ¬ HasExact (manager.workaround memoryLength) length → calloc = false →
    (allocation.buffer.policy ≠ .videoOnly → man = manager.workaround memoryLength) →
    Outcome memoryLength calloc manager length pitch (some allocation) .ok man none
  | placed {allocation : CoreSurfaceAllocation α} {man : SurfaceManager α} {c : ℕ} :
    ¬ manager.avail < length → HasRoom (manager.workaround memoryLength) length →
    HasExact (manager.workaround memoryLength) length ∨ calloc = true →
    Occupied man allocation length pitch c →
    Outcome memoryLength calloc manager length pitch (some allocation) .ok man (some c)

theorem Sound.allocate {manager : SurfaceManager α} {l l' : List (ℕ × Chunk α)} {memoryLength : ℤ}
    (h : Sound manager l) (hw : Sound (manager.workaround memoryLength) l') (calloc : Bool)
    (allocation : Option (CoreSurfaceAllocation α)) (length pitch : ℤ) :
    ∃ r man ret l'', Shared.allocate memoryLength calloc manager allocation length pitch =
        some (r,man,ret) ∧ Sound man l'' ∧
      Outcome memoryLength calloc manager length pitch allocation r man ret ∧
      ∀ a ∈ allocation, ∀ q ∈ ret, ∃ pre p c post, l' = pre++(p,c)::post ∧ Fits length c ∧
        Placed (manager.workaround memoryLength) pre post p c a length pitch man q l'' := by
  unfold Shared.allocate
  rw [if_neg (by simp [h.not_suspended])]
  by_cases havail : manager.avail < length
  · rw [if_pos havail]
    exact ⟨_,_,_,l,rfl,h,.tempUnavail havail,by simp⟩
  rw [if_neg havail]
  have hhead := hw.represents.head_eq
  have hfuel := length_le hw.represents hw.fresh
  dsimp only
  rw [hhead]
  cases allocation with
  | none =>
    obtain ⟨r,hr,hnone⟩ := @bestFree_look _ (manager.workaround memoryLength).memory _ [] length
      l' _ hfuel hw.represents
    rw [Option.isNone_none,hr]
    cases r with
    | none =>
      have hno := hnone.mp rfl
      refine ⟨_,_,_,l',rfl,hw,.noVideoMemory havail fun hroom => ?_,by simp⟩
      obtain ⟨a,ha,hfits⟩ := hw.hasRoom_iff.mp hroom
      exact hno a ha hfits
    | some b =>
      refine ⟨_,_,_,l',rfl,hw,.look havail (hw.hasRoom_iff.mpr ?_),by simp⟩
      by_contra hno
      push Not at hno
      cases hnone.mpr hno
  | some allocation =>
    obtain ⟨r,hr,hbest⟩ := @bestFree_best _ (manager.workaround memoryLength).memory _ [] length
      l' _ hfuel none hw.represents (by simp [Best])
    rw [Option.isNone_some,hr]
    cases r with
    | none =>
      refine ⟨_,_,_,l',rfl,hw,.noVideoMemory havail fun hroom => ?_,by simp⟩
      obtain ⟨a,ha,hfits⟩ := hw.hasRoom_iff.mp hroom
      exact hbest a ha hfits
    | some b =>
      obtain ⟨d,hd,hfits,hmin⟩ := hbest
      have hroom := hw.hasRoom_iff.mpr ⟨_,hd,hfits⟩
      obtain ⟨n,hn,rfl⟩ := hw.represents.exists_node hd
      obtain ⟨pre,post,rfl⟩ := List.append_of_mem hd
      obtain ⟨man,ret,l'',hman,hsound,hret,hkept,hplaced⟩ :=
        hw.occupyShared allocation length pitch calloc
      refine ⟨.ok,man,ret,l'',by simp only [Option.bind_some,hman,Option.map_some],hsound,?_,?_⟩
      · cases ret with
        | none =>
          obtain ⟨hlen,hcalloc⟩ := hret.mp rfl
          refine .failed havail hroom ?_ hcalloc (hkept rfl)
          rintro ⟨c,e,he,hfe,hexact⟩
          obtain ⟨pre',post',heq⟩ := hw.represents.exists_split he
          have hle := hmin (c,e.data) (heq ▸ List.mem_append_right pre' List.mem_cons_self) hfe
          exact hlen (le_antisymm (hle.trans_eq hexact) hfits.2)
        | some c =>
          obtain ⟨m,hm,hdata⟩ := hsound.represents.exists_node (p := c)
            ((hplaced c rfl).list_eq ▸ List.mem_append_right _ List.mem_cons_self)
          refine .placed havail hroom ?_ ⟨m,hm,by rw [hdata]; exact ⟨rfl,rfl,rfl,rfl⟩⟩
          by_cases hlen : n.data.length = length
          · exact .inl ⟨b,n,hn,hfits,hlen⟩
          · right
            by_contra hcalloc
            cases hret.mpr ⟨hlen,by simpa using hcalloc⟩
      · rintro _ ⟨⟩ q hq
        exact ⟨pre,b,n.data,post,rfl,hfits,hplaced q hq⟩

inductive Event (α : Type*)
  | allocate (memoryLength : ℤ) (calloc : Bool) (allocation : Option (CoreSurfaceAllocation α))
    (length pitch : ℤ)
  | deallocate (c : ℕ)
  | adjustHeapOffset (offset : ℤ)

def step (manager : SurfaceManager α) : Event α → Option (SurfaceManager α)
  | .allocate memoryLength calloc allocation length pitch =>
    (allocate memoryLength calloc manager allocation length pitch).map fun r => r.2.1
  | .deallocate c => (manager.deallocate c).map Prod.snd
  | .adjustHeapOffset offset => adjustHeapOffset manager offset

theorem reaches_sound {manager : SurfaceManager α}
    (h : Reaches step (fun _ _ => True) (fun m => ∃ length, m = create length) manager) :
    ∃ l, Sound manager l := by
  refine h.invariant (fun m => ∃ l, Sound m l) ?_ ?_
  · rintro _ ⟨length,rfl⟩
    exact ⟨_,.create length⟩
  · rintro m e m' ⟨l,hm⟩ - hs
    cases e with
    | allocate memoryLength calloc allocation length pitch =>
      obtain ⟨l',hw⟩ := hm.workedAround memoryLength
      obtain ⟨r,man,ret,l'',hman,hsound,-⟩ := hm.allocate hw calloc allocation length pitch
      rw [step,hman] at hs
      obtain rfl := Option.some.inj hs
      exact ⟨l'',hsound⟩
    | deallocate c =>
      obtain ⟨⟨r,man⟩,hman,rfl⟩ := Option.map_eq_some_iff.mp hs
      obtain ⟨⟨man',q⟩,hfree,heq⟩ := Option.map_eq_some_iff.mp hman
      obtain ⟨-,rfl⟩ := Prod.mk.inj heq
      exact hm.free hfree
    | adjustHeapOffset offset => exact hm.adjust hs

def OutOfDate (memoryLength : ℤ) (manager : SurfaceManager α) : Prop :=
  ∃ n, manager.memory manager.chunks = some n ∧ n.next = none ∧
    n.data.length ≠ memoryLength-manager.offset

structure Untouched (manager man : SurfaceManager α) : Prop where
  avail : man.avail = manager.avail
  minToleration : man.minToleration = manager.minToleration
  chunks : man.chunks = manager.chunks
  memory : man.memory = manager.memory

/-- Without a chunk a request fails and leaves all as it was; with success there is one. -/
structure Clean (manager : SurfaceManager α) (allocation : Option (CoreSurfaceAllocation α))
    (length pitch : ℤ) (r : DirectResult) (man : SurfaceManager α) (ret : Option ℕ) : Prop where
  reported : allocation.isSome → ret = none → r ≠ .ok
  untouched : ret = none → Untouched manager man
  occupied : ∀ a ∈ allocation, r = .ok → ∃ c, ret = some c ∧ Occupied man a length pitch c

/-- No shared memory is wanting where a chunk is to be split, and the heap is not out of date
where the request finds no room. -/
def Spared (memoryLength : ℤ) (calloc : Bool) (manager : SurfaceManager α)
    (allocation : Option (CoreSurfaceAllocation α)) (length : ℤ) : Prop :=
  manager.avail < length ∨ (allocation.isSome ∧ HasRoom (manager.workaround memoryLength) length →
      HasExact (manager.workaround memoryLength) length ∨ calloc = true) ∧
    (¬ (allocation.isSome ∧ HasRoom (manager.workaround memoryLength) length) →
      ¬ OutOfDate memoryLength manager)

theorem untouched_workaround (memoryLength : ℤ) (manager : SurfaceManager α) :
    Untouched manager (manager.workaround memoryLength) ↔ ¬ OutOfDate memoryLength manager := by
  constructor
  · rintro h ⟨⟨c,prev,next⟩,hn,hnext,hlen⟩
    obtain rfl : next = none := hnext
    have hm := congrFun h.memory manager.chunks
    simp only [SurfaceManager.workaround,hn,if_neg hlen] at hm
    simp only [setData,hn,Option.map_some,Function.update_self,Option.some.injEq,
      Node.mk.injEq] at hm
    exact hlen (congrArg Chunk.length hm.1).symm
  · intro h
    have heq : manager.workaround memoryLength = manager := by
      unfold SurfaceManager.workaround
      split
      · next chunk prev hn =>
        rw [if_pos]
        by_contra hlen
        exact h ⟨_,hn,rfl,hlen⟩
      · rfl
    rw [heq]
    exact ⟨rfl,rfl,rfl,rfl⟩

/-- A request is clean just in the cases where nothing is wanting. -/
theorem failed_allocation_clean_iff {manager : SurfaceManager α}
    (h : Reaches step (fun _ _ => True) (fun m => ∃ length, m = create length) manager)
    (memoryLength : ℤ) (calloc : Bool) (allocation : Option (CoreSurfaceAllocation α))
    (length pitch : ℤ) :
    ∃ r man ret, allocate memoryLength calloc manager allocation length pitch = some (r,man,ret) ∧
      (Clean manager allocation length pitch r man ret ↔
        Spared memoryLength calloc manager allocation length) := by
  obtain ⟨l,hsound⟩ := reaches_sound h
  obtain ⟨l',hw⟩ := hsound.workedAround memoryLength
  obtain ⟨r,man,ret,-,hman,-,hout,-⟩ := hsound.allocate hw calloc allocation length pitch
  refine ⟨r,man,ret,hman,?_⟩
  have hworked := untouched_workaround memoryLength manager
  cases hout with
  | tempUnavail havail =>
    exact iff_of_true ⟨by simp,fun _ => ⟨rfl,rfl,rfl,rfl⟩,by simp⟩ (.inl havail)
  | noVideoMemory havail hroom =>
    have : Spared memoryLength calloc manager allocation length ↔
        ¬ OutOfDate memoryLength manager := by simp [Spared,havail,hroom]
    rw [this,← hworked]
    exact ⟨fun hc => hc.untouched rfl,fun hu => ⟨by simp,fun _ => hu,by simp⟩⟩
  | look havail hroom =>
    have : Spared memoryLength calloc manager (none : Option (CoreSurfaceAllocation α)) length ↔
        ¬ OutOfDate memoryLength manager := by simp [Spared,havail]
    rw [this,← hworked]
    exact ⟨fun hc => hc.untouched rfl,fun hu => ⟨by simp,fun _ => hu,by simp⟩⟩
  | failed havail hroom hexact hcalloc _ =>
    refine iff_of_false (fun hc => hc.reported rfl rfl rfl) ?_
    simp [Spared,havail,hroom,hexact,hcalloc]
  | placed havail hroom hsplit hocc =>
    refine iff_of_true ⟨by simp,by simp,fun a ha _ => ⟨_,rfl,?_⟩⟩ (.inr ⟨fun _ => hsplit,?_⟩)
    · obtain rfl := Option.some.inj ha
      exact hocc
    · intro hno
      exact absurd ⟨rfl,hroom⟩ hno

/-- What is left of a heap is split for a second allocation. -/
theorem second_allocation_clean : ∃ (manager man : SurfaceManager ℕ) (r : DirectResult)
    (ret : Option ℕ), manager.avail = 100 ∧ HasRoom manager 30 ∧
      allocate 100 true manager (some ⟨1,⟨.videoOnly⟩⟩) 30 4 = some (r,man,ret) ∧
      Clean manager (some ⟨1,⟨.videoOnly⟩⟩) 30 4 r man ret := by
  obtain ⟨r,man,ret,hman,hclean⟩ := failed_allocation_clean_iff
    (.step (.allocate 100 true (some ⟨0,⟨.videoLow⟩⟩) 40 8) (.init ⟨100,rfl⟩) trivial rfl)
    100 true (some ⟨1,⟨.videoOnly⟩⟩) 30 4
  refine ⟨_,man,r,ret,rfl,⟨0,_,rfl,rfl,?_⟩,hman,
    hclean.mpr (.inr ⟨fun _ => .inr rfl,fun hno => absurd ⟨rfl,0,_,rfl,rfl,?_⟩ hno⟩)⟩
  · exact (by decide : (30 : ℤ) ≤ 60)
  · exact (by decide : (30 : ℤ) ≤ 60)

/-- Without shared memory the length is lost, and a request that got nothing succeeds. -/
theorem allocation_lost : ∃ man,
    allocate 100 false (create 100 : SurfaceManager ℕ) (some ⟨0,⟨.videoOnly⟩⟩) 40 4 =
      some (.ok,man,none) ∧ man.avail = 60 ∧
    ¬ Clean (create 100) (some ⟨0,⟨.videoOnly⟩⟩) 40 4 .ok man none :=
  ⟨_,rfl,rfl,fun h => h.reported rfl rfl rfl⟩

end DirectFB.SurfaceManager.Shared
