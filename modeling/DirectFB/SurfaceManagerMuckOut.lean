import DirectFB.SurfaceManagerDisplace

/-! Allocation after the marked allocations are gone, in every state of a heap whose accounts
are kept. -/
namespace DirectFB.SurfaceManager.Displace
open DoublyLinked Transition Shared

variable {α : Type*}

def Spans : ℤ → List (ℕ × Chunk α) → ℤ → Prop
  | start, [], stop => start = stop
  | start, (_,c)::l, stop => c.offset = start ∧ 0 ≤ c.length ∧
    (c.allocation.isSome → 0 < c.length) ∧ Spans (start+c.length) l stop

variable {start stop : ℤ}

theorem spans_append {l₁ l₂ : List (ℕ × Chunk α)} :
    Spans start (l₁++l₂) stop ↔ ∃ mid, Spans start l₁ mid ∧ Spans mid l₂ stop := by
  induction l₁ generalizing start with
  | nil => simp [Spans]
  | cons a l₁ ih =>
    obtain ⟨p,c⟩ := a
    simp only [List.cons_append,Spans,ih]
    constructor
    · rintro ⟨ho,hl,hu,mid,h₁,h₂⟩
      exact ⟨mid,⟨ho,hl,hu,h₁⟩,h₂⟩
    · rintro ⟨mid,⟨ho,hl,hu,h₁⟩,h₂⟩
      exact ⟨ho,hl,hu,mid,h₁,h₂⟩

theorem Spans.stop_eq {l : List (ℕ × Chunk α)} (h : Spans start l stop) : stop = start+total l := by
  induction l generalizing start with
  | nil => simpa [total] using (show start = stop from h).symm
  | cons a l ih =>
    rw [ih h.2.2.2,total_cons]
    ring

theorem Spans.le {l : List (ℕ × Chunk α)} (h : Spans start l stop) : start ≤ stop := by
  induction l generalizing start with
  | nil => exact le_of_eq h
  | cons a l ih =>
    have := ih h.2.2.2
    have := h.2.1
    omega

theorem Spans.held_le {l : List (ℕ × Chunk α)} (h : Spans start l stop) : held l ≤ stop-start := by
  induction l generalizing start with
  | nil => simp [held,show start = stop from h]
  | cons a l ih =>
    obtain ⟨p,c⟩ := a
    have := ih h.2.2.2
    have := h.2.1
    rw [held_cons,heldLength]
    split_ifs <;> omega

theorem Spans.mem {l : List (ℕ × Chunk α)} (h : Spans start l stop)
    {a : ℕ × Chunk α} (ha : a ∈ l) : start ≤ a.2.offset ∧ a.2.offset+a.2.length ≤ stop := by
  obtain ⟨pre,post,rfl⟩ := List.append_of_mem ha
  obtain ⟨mid,hpre,rfl,-,-,hpost⟩ := spans_append.mp h
  exact ⟨hpre.le,hpost.le⟩

def Clear (start stop : ℤ) (l : List (ℕ × Chunk α)) : Prop :=
  ∀ a ∈ used l, a.2.offset+a.2.length ≤ start ∨ stop ≤ a.2.offset

theorem Clear.exists_free {start stop a b : ℤ} {l : List (ℕ × Chunk α)} (h : Clear a b l)
    (hspans : Spans start l stop) (hcoalesced : Coalesced l) (howned : Owned l) (ha : start ≤ a)
    (hab : a < b) (hb : b ≤ stop) : ∃ x ∈ l, Fits (b-a) x.2 := by
  induction l generalizing start with
  | nil =>
    have : start = stop := hspans
    omega
  | cons x l ih =>
    obtain ⟨p,c⟩ := x
    obtain ⟨rfl,hlen,hpos,hrest⟩ := hspans
    have htail : Clear a b l := fun y hy => h y (by rw [used_cons]; split_ifs <;> simp [hy])
    by_cases hin : c.offset+c.length ≤ a
    · obtain ⟨y,hy,hfits⟩ := ih htail hrest (List.isChain_cons.mp hcoalesced).2
        (fun y hy => howned y (List.mem_cons_of_mem _ hy)) hin
      exact ⟨y,List.mem_cons_of_mem _ hy,hfits⟩
    -- the chunk that holds the start is free, and so must be what follows as long as it goes on
    have hnone : c.allocation = none := by
      by_contra hne
      have hsome : c.allocation.isSome := Option.isSome_iff_ne_none.mpr hne
      rcases h (p,c) (by simp [used_cons,hsome]) with hle | hle
      · exact hin hle
      · have : b ≤ c.offset := hle
        omega
    have hfree : c.buffer = none := by simpa [hnone] using howned (p,c) List.mem_cons_self
    by_cases hout : b ≤ c.offset+c.length
    · exact ⟨(p,c),List.mem_cons_self,hfree,by show b-a ≤ c.length; omega⟩
    · exfalso
      cases l with
      | nil =>
        have : c.offset+c.length = stop := hrest
        omega
      | cons y l =>
        obtain ⟨q,d⟩ := y
        have hused : d.buffer ≠ none :=
          (List.isChain_cons.mp hcoalesced).1 (q,d) rfl hfree
        have hsome : d.allocation.isSome := by
          have := howned (q,d) (by simp)
          rw [this] at hused
          simpa [Option.isSome_iff_ne_none] using hused
        obtain ⟨ho,-,hd,-⟩ := hrest
        rcases htail (q,d) (by simp [used_cons,hsome]) with hle | hle
        · have : d.offset+d.length ≤ a := hle
          have := hd hsome
          omega
        · have : b ≤ d.offset := hle
          omega

structure Account (L : ℤ) (manager : SurfaceManager α) (l : List (ℕ × Chunk α)) : Prop where
  sound : Sound manager l
  spans : Spans manager.offset l L
  coalesced : Coalesced l
  owned : Owned l
  avail_eq : manager.avail = L-manager.offset-held l

section Account

variable {L : ℤ} {manager : SurfaceManager α} {l pre post : List (ℕ × Chunk α)} {p : ℕ} {c : Chunk α}

theorem Account.create (hL : 0 ≤ L) :
    Account L (create L : SurfaceManager α) [(0,⟨0,L-0,0,none,none⟩)] where
  sound := .create L
  spans := by
    refine ⟨rfl,by simpa using hL,by simp,?_⟩
    simp [Spans,SurfaceManager.create]
  coalesced := List.isChain_singleton _
  owned := by simp [Owned]
  avail_eq := by simp [SurfaceManager.create,held,heldLength]

theorem Account.free_le_avail (h : Account L manager l) {a : ℕ × Chunk α} (ha : a ∈ l)
    (hfree : a.2.buffer = none) : a.2.length ≤ manager.avail := by
  obtain ⟨pre,post,rfl⟩ := List.append_of_mem ha
  obtain ⟨mid,hpre,ho,-,-,hpost⟩ := spans_append.mp h.spans
  have := hpre.held_le
  have := hpost.held_le
  rw [h.avail_eq,held_append,held_cons,show heldLength a.2 = 0 by simp [heldLength,hfree]]
  omega

theorem Account.workaround (h : Account L manager l) : manager.workaround L = manager := by
  obtain ⟨c,rest,rfl⟩ := h.sound.head
  unfold SurfaceManager.workaround
  have hrep : Represents manager.memory (some manager.chunks) ([]++(manager.chunks,c)::rest) :=
    h.sound.represents
  rw [hrep.node]
  cases rest with
  | cons a rest => rfl
  | nil =>
    have hlen : c.length = L-manager.offset := by
      have := h.spans.stop_eq
      simp [total] at this
      omega
    simp only [first_nil,if_pos hlen]

structure Same (l l' : List (ℕ × Chunk α)) : Prop where
  spans : ∀ start stop, Spans start l stop → Spans start l' stop
  used_eq : used l' = used l
  held_eq : held l' = held l
  owned : Owned l → Owned l'

theorem Same.refl (l : List (ℕ × Chunk α)) : Same l l := ⟨fun _ _ h => h,rfl,rfl,id⟩

theorem Same.trans {l₁ l₂ l₃ : List (ℕ × Chunk α)} (h : Same l₁ l₂) (h' : Same l₂ l₃) :
    Same l₁ l₃ :=
  ⟨fun a b hs => h'.spans a b (h.spans a b hs),h'.used_eq.trans h.used_eq,
    h'.held_eq.trans h.held_eq,fun ho => h'.owned (h.owned ho)⟩

/-- Two free neighbours are merged. -/
theorem Same.merge {q : ℕ} {d : Chunk α} (howned : Owned (pre++(p,c)::(q,d)::post))
    (hc : c.buffer = none) (hd : d.buffer = none) :
    Same (pre++(p,c)::(q,d)::post) (pre++(p,{c with length := c.length+d.length})::post) := by
  have hca : c.allocation = none := by simpa [hc] using howned (p,c) (by simp)
  have hda : d.allocation = none := by simpa [hd] using howned (q,d) (by simp)
  refine ⟨?_,?_,?_,?_⟩
  · intro start stop h
    obtain ⟨mid,hpre,ho,hl,-,-,hl',-,hpost⟩ := spans_append.mp h
    refine spans_append.mpr ⟨mid,hpre,ho,add_nonneg hl hl',by simp [hca],?_⟩
    rwa [← add_assoc]
  · simp [used_append,used_cons,hca,hda]
  · simp [held_append,held_cons,heldLength,hc,hd]
  · intro h a ha
    simp only [List.mem_append,List.mem_cons] at ha
    rcases ha with ha | rfl | ha
    · exact h a (by simp [ha])
    · simp [hc,hca]
    · exact h a (by simp [ha])

theorem same_of_merges {l l' : List (ℕ × Chunk α)} (h : Merges l l') (howned : Owned l) :
    Same l l' := by
  induction h with
  | refl l => exact .refl l
  | merge hc hd _ ih =>
    have hmerge := Same.merge howned hc hd
    exact hmerge.trans (ih (hmerge.owned howned))

/-- A new allocation gets the tail of a free chunk. -/
theorem Account.place (h : Account L manager (pre++(p,c)::post)) {length pitch : ℤ}
    (hpos : 0 < length) (hc : Fits length c) {allocation : CoreSurfaceAllocation α}
    {man : SurfaceManager α} {q : ℕ} {l' : List (ℕ × Chunk α)} (hman : Sound man l')
    (hplaced : Placed manager pre post p c allocation length pitch man q l') : Account L man l' := by
  obtain ⟨rfl,hoffset,havail⟩ := hplaced
  have halloc : c.allocation = none := by
    have := h.owned (p,c) (by simp)
    simpa [hc.1] using this
  have hrem : held (remainder p c length) = 0 := by
    rw [remainder]
    split_ifs <;> simp [held,heldLength,hc.1]
  refine ⟨hman,?_,h.coalesced.occupied hc.1 ..,h.owned.occupied hc.1 q _ _ _,?_⟩
  · rw [hoffset]
    obtain ⟨mid,hpre,ho,hl,-,hpost⟩ := spans_append.mp h.spans
    have hfit := hc.2
    rw [List.append_assoc]
    refine spans_append.mpr ⟨mid,hpre,?_⟩
    rw [remainder]
    split_ifs with hlen
    · exact ⟨by simp [tail]; omega,hpos.le,fun _ => hpos,by simpa [tail,← hlen] using hpost⟩
    · have hend : mid+(c.length-length)+length = mid+c.length := by ring
      exact ⟨ho,by simp only []; omega,by simp [halloc],by simp [tail]; omega,hpos.le,
        fun _ => hpos,by simpa [tail,hend] using hpost⟩
  · have hfree : heldLength c = 0 := by simp [heldLength,hc.1]
    rw [havail,hoffset,h.avail_eq,held_append,held_append,held_append,held_cons,held_cons,hrem,
      hfree]
    ring

/-- A chunk is freed and the gap closed to both sides. -/
theorem Account.free (h : Account L manager (pre++(p,c)::post))
    {allocation : CoreSurfaceAllocation α} (hc : c.allocation = some allocation) :
    ∃ man l', manager.deallocate p = some (.ok,man) ∧ Account L man l' ∧
      man.offset = manager.offset ∧ used l' = used pre++used post := by
  obtain ⟨memory,q,l,hman,hrep,hfresh,hcoalesced,howned,hmerges⟩ :=
    freeChunk_merges h.sound.represents h.sound.fresh h.coalesced h.owned hc
  have hsame := same_of_merges hmerges howned
  have hdealloc : manager.deallocate p = some (.ok,{manager with
      memory
      avail := manager.avail+heldLength c
      minToleration := manager.minToleration-1}) := by
    rw [deallocate,hman]
    rfl
  refine ⟨_,l,hdealloc,⟨⟨hrep,hfresh,h.sound.not_suspended⟩,?_,hcoalesced,hsame.owned howned,?_⟩,
    rfl,?_⟩
  · refine hsame.spans _ _ ?_
    obtain ⟨mid,hpre,ho,hl,-,hpost⟩ := spans_append.mp h.spans
    exact spans_append.mpr ⟨mid,hpre,ho,hl,by simp,hpost⟩
  · have havail := h.avail_eq
    have hfree : heldLength ({c with allocation := none, buffer := none} : Chunk α) = 0 := by simp [heldLength]
    rw [held_append,held_cons] at havail
    rw [hsame.held_eq,held_append,held_cons,hfree,havail]
    ring
  · rw [hsame.used_eq,used_append,used_cons]
    simp

/-- The first chunk gives way to what stands below the heap. -/
theorem Account.adjust (h : Account L manager l) {offset : ℤ} {n : Node (Chunk α)}
    (hn : manager.memory manager.chunks = some n) (hfree : n.data.buffer = none)
    (hfits : offset ≤ n.data.offset+n.data.length) {man : SurfaceManager α}
    (hman : adjustHeapOffset manager offset = some man) :
    ∃ l', Account L man l' ∧ used l' = used l := by
  obtain ⟨c,rest,rfl⟩ := h.sound.head
  have hrep : Represents manager.memory (some manager.chunks) ([]++(manager.chunks,c)::rest) :=
    h.sound.represents
  rw [hrep.node] at hn
  obtain rfl := Option.some.inj hn
  let f (d : Chunk α) : Chunk α := {d with length := d.offset+d.length-offset, offset := offset}
  simp only [adjustHeapOffset,hrep.node,Option.map_some,Option.some.injEq] at hman
  rw [if_pos ⟨by simpa using hfree,hfits⟩] at hman
  subst hman
  have hcfree : c.buffer = none := hfree
  have halloc : c.allocation = none := by
    have := h.owned (manager.chunks,c) (by simp)
    simpa [hcfree] using this
  have hheld : held ((manager.chunks,f c)::rest) = held ((manager.chunks,c)::rest) := by
    rw [held_cons,held_cons]
    simp [heldLength,f,hcfree]
  have hspans : Spans offset ((manager.chunks,f c)::rest) L := by
    obtain ⟨ho,hl,hu,hrest⟩ := h.spans
    have hle : offset ≤ c.offset+c.length := hfits
    refine ⟨rfl,by show 0 ≤ c.offset+c.length-offset; omega,by simp [f,halloc],?_⟩
    have hstart : offset+(f c).length = manager.offset+c.length := by
      show offset+(c.offset+c.length-offset) = _
      omega
    rw [hstart]
    exact hrest
  have hcoalesced : Coalesced ([]++(manager.chunks,f c)::rest) :=
    Coalesced.free (p := manager.chunks) (c := c) h.coalesced hcfree
  have howned : Owned ((manager.chunks,f c)::rest) := by
    intro a ha
    rcases List.mem_cons.mp ha with rfl | ha
    · exact h.owned (manager.chunks,c) (by simp)
    · exact h.owned a (List.mem_cons_of_mem _ ha)
  refine ⟨(manager.chunks,f c)::rest,⟨⟨hrep.setData f,fun p hp => ?_,h.sound.not_suspended⟩,hspans,
    hcoalesced,howned,?_⟩,?_⟩
  · simpa using h.sound.fresh p hp
  · have havail := h.avail_eq
    show manager.avail-(offset-manager.offset) = L-offset-held ((manager.chunks,f c)::rest)
    rw [hheld]
    omega
  · rw [used_cons,used_cons]
    simp [f,halloc]

end Account

section MuckOut

variable {L : ℤ} {manager : SurfaceManager α} {l pre post : List (ℕ × Chunk α)} {p : ℕ} {c : Chunk α}

theorem mem_used {a : ℕ × Chunk α} : a ∈ used l ↔ a ∈ l ∧ a.2.allocation.isSome :=
  List.mem_filter

def deallocateAll (manager : SurfaceManager α) : List ℕ → Option (SurfaceManager α)
  | [] => some manager
  | c::cs => (manager.deallocate c).bind fun r => deallocateAll r.2 cs

theorem used_freed (h : Represents manager.memory (some manager.chunks) (pre++(p,c)::post))
    {a : ℕ × Chunk α} :
    a ∈ used pre++used post ↔ a ∈ used (pre++(p,c)::post) ∧ a.1 ≠ p := by
  obtain ⟨hpre,hpost⟩ := h.not_mem
  rw [← used_append,mem_used,mem_used,List.mem_append,List.mem_append,List.mem_cons]
  constructor
  · rintro ⟨ha | ha,hs⟩
    · exact ⟨⟨.inl ha,hs⟩,fun hp => hpre (hp ▸ List.mem_map_of_mem ha)⟩
    · exact ⟨⟨.inr (.inr ha),hs⟩,fun hp => hpost (hp ▸ List.mem_map_of_mem ha)⟩
  · rintro ⟨⟨ha | rfl | ha,hs⟩,hp⟩
    · exact ⟨.inl ha,hs⟩
    · exact absurd rfl hp
    · exact ⟨.inr ha,hs⟩

/-- In whatever order they are freed, what is used otherwise stays. -/
theorem Account.deallocateAll (h : Account L manager l) {cs : List ℕ} (hnodup : cs.Nodup)
    (hcs : ∀ c ∈ cs, c ∈ (used l).map Prod.fst) :
    ∃ man l', Displace.deallocateAll manager cs = some man ∧ Account L man l' ∧
      man.offset = manager.offset ∧ ∀ a, a ∈ used l' ↔ a ∈ used l ∧ a.1 ∉ cs := by
  induction cs generalizing manager l with
  | nil => exact ⟨manager,l,rfl,h,rfl,by simp⟩
  | cons c cs ih =>
    obtain ⟨hc,hrest⟩ := List.nodup_cons.mp hnodup
    obtain ⟨⟨c',d⟩,hmem,rfl⟩ := List.mem_map.mp (hcs c List.mem_cons_self)
    obtain ⟨hd,hsome⟩ := mem_used.mp hmem
    obtain ⟨allocation,ha⟩ := Option.isSome_iff_exists.mp hsome
    obtain ⟨pre,post,rfl⟩ := List.append_of_mem hd
    obtain ⟨man,l₁,hman,haccount,hoffset,hused⟩ := h.free ha
    have hiff (a : ℕ × Chunk α) : a ∈ used l₁ ↔ a ∈ used (pre++(c',d)::post) ∧ a.1 ≠ c' := by
      rw [hused]
      exact used_freed h.sound.represents
    obtain ⟨man',l',hman',haccount',hoffset',hused'⟩ := ih haccount hrest fun e he => by
      obtain ⟨a,ha,rfl⟩ := List.mem_map.mp (hcs e (List.mem_cons_of_mem _ he))
      exact List.mem_map_of_mem ((hiff a).mpr ⟨ha,fun hae => hc (hae ▸ he)⟩)
    refine ⟨man',l',by rw [Displace.deallocateAll,hman]; exact hman',haccount',
      hoffset'.trans hoffset,fun a => ?_⟩
    rw [hused',hiff,List.mem_cons,not_or,and_assoc]

/-- A row that is no longer used has room for what fits into it. -/
theorem Account.room {row : List (ℕ × Chunk α)} (h : Account L manager (pre++row++post)) {cs : List ℕ}
    (hcs : cs.Perm ((used row).map Prod.fst)) {length : ℤ} (hpos : 0 < length)
    (hlen : length ≤ total row) :
    ∃ man l', Displace.deallocateAll manager cs = some man ∧ Account L man l' ∧
      HasRoom man length := by
  have hall := h.sound.represents.nodup
  have hnodup : ((used row).map Prod.fst).Nodup := by
    rw [List.append_assoc,List.map_append,List.map_append] at hall
    have hrow := (List.nodup_append.mp (List.nodup_append.mp hall).2.1).1
    exact hrow.sublist (List.filter_sublist.map _)
  obtain ⟨man,l',hman,haccount,hoffset,hused⟩ := h.deallocateAll (hcs.nodup_iff.mpr hnodup)
    fun c hc => by
      obtain ⟨a,ha,rfl⟩ := List.mem_map.mp (hcs.mem_iff.mp hc)
      obtain ⟨ha,hs⟩ := mem_used.mp ha
      exact List.mem_map_of_mem (mem_used.mpr ⟨by simp [ha],hs⟩)
  obtain ⟨stop,hfront,hpost⟩ := spans_append.mp h.spans
  obtain ⟨start,hpre,hrow⟩ := spans_append.mp hfront
  have hstop := hrow.stop_eq
  have hclear : Clear start stop l' := by
    intro a ha
    obtain ⟨ha,hout⟩ := (hused a).mp ha
    obtain ⟨ha,hs⟩ := mem_used.mp ha
    rcases List.mem_append.mp ha with ha | ha
    · rcases List.mem_append.mp ha with ha | ha
      · exact .inl (hpre.mem ha).2
      · exact absurd (hcs.mem_iff.mpr (List.mem_map_of_mem (mem_used.mpr ⟨ha,hs⟩))) hout
    · exact .inr (hpost.mem ha).1
  obtain ⟨x,hx,hfree,hfits⟩ := hclear.exists_free haccount.spans haccount.coalesced haccount.owned
    (hoffset ▸ hpre.le) (by omega) hpost.le
  refine ⟨man,l',hman,haccount,haccount.sound.hasRoom_iff.mpr ⟨x,hx,hfree,?_⟩⟩
  omega

/-- With room for it, and shared memory, an allocation succeeds. -/
theorem Account.allocate (h : Account L manager l) {length : ℤ} (hroom : HasRoom manager length)
    (allocation : CoreSurfaceAllocation α) (pitch : ℤ) :
    ∃ man c, Shared.allocate L true manager (some allocation) length pitch =
      some (.ok,man,some c) ∧ Occupied man allocation length pitch c := by
  have hw : Sound (manager.workaround L) l := by
    rw [h.workaround]
    exact h.sound
  obtain ⟨r,man,ret,-,hman,-,hout,-⟩ := h.sound.allocate hw true (some allocation) length pitch
  have hwork := h.workaround
  cases hout with
  | tempUnavail havail =>
    obtain ⟨a,ha,hfree,hfits⟩ := h.sound.hasRoom_iff.mp hroom
    have := h.free_le_avail ha hfree
    omega
  | noVideoMemory _ hno => exact absurd (hwork.symm ▸ hroom) hno
  | failed _ _ _ hcalloc _ => cases hcalloc
  | placed _ _ _ hocc => exact ⟨man,_,hman,hocc⟩

def Sized (size : α → ℤ) (l : List (ℕ × Chunk α)) : Prop :=
  ∀ a ∈ used l, ∀ x ∈ a.2.allocation, size x.object = a.2.length

theorem Sized.mono {size : α → ℤ} {l l' : List (ℕ × Chunk α)} (h : Sized size l)
    (hused : ∀ a ∈ used l', a ∈ used l) : Sized size l' := fun a ha => h a (hused a ha)

theorem used_remainder {length : ℤ} (hc : c.allocation = none) : used (remainder p c length) = [] := by
  rw [remainder]
  split_ifs <;> simp [used,hc]

variable [DecidableEq α]

inductive Event (α : Type*)
  | allocate (calloc : Bool) (allocation : Option (CoreSurfaceAllocation α)) (length pitch : ℤ)
  | displace (locks : α → ℕ) (policy : CoreSurfacePolicy) (length : ℤ)
  | deallocate (c : ℕ)
  | adjustHeapOffset (offset : ℤ)

def setSize (size : α → ℤ) (man : SurfaceManager α) :
    Option (CoreSurfaceAllocation α) → Option ℕ → α → ℤ
  | some allocation,some c => Function.update size allocation.object (lengthOf man.memory c)
  | _,_ => size

def step (L : ℤ) (p : Pool α) : Event α → Option (Pool α)
  | .allocate calloc allocation length pitch =>
    (Shared.allocate L calloc p.manager allocation length pitch).map fun r =>
      {p with manager := r.2.1, size := setSize p.size r.2.1 allocation r.2.2}
  | .displace locks policy length => (displace p locks policy length).map fun r => r.2.1
  | .deallocate c => (p.manager.deallocate c).map fun r => {p with manager := r.2}
  | .adjustHeapOffset offset =>
    (adjustHeapOffset p.manager offset).map fun manager => {p with manager := manager}

/-- Lengths are positive and allocations new. Besides, no memory is paid for without being
handed out, and the heap's offset moves only as far as the first chunk can. -/
def Kept (p : Pool α) : Event α → Prop
  | .allocate calloc allocation length _ => 0 < length ∧ ∀ a ∈ allocation,
    (∀ c n x, p.manager.memory c = some n → n.data.allocation = some x → x.object ≠ a.object) ∧
    (a.buffer.policy = .videoOnly → length ≤ p.manager.avail → HasRoom p.manager length →
      HasExact p.manager length ∨ calloc = true)
  | .adjustHeapOffset offset => ∃ n, p.manager.memory p.manager.chunks = some n ∧
    n.data.buffer = none ∧ offset ≤ n.data.offset+n.data.length
  | _ => True

/-- A step that is kept to the accounts keeps them. -/
theorem step_account {pool pool' : Pool α} {e : Event α} (h : Account L pool.manager l)
    (hsized : Sized pool.size l) (hkept : Kept pool e) (hs : step L pool e = some pool') :
    ∃ l', Account L pool'.manager l' ∧ Sized pool'.size l' := by
  cases e with
  | allocate calloc allocation length pitch =>
    have hwork := h.workaround
    have hw : Sound (pool.manager.workaround L) l := hwork.symm ▸ h.sound
    obtain ⟨r,man,ret,l',hman,hsound,hout,hplaced⟩ :=
      h.sound.allocate hw calloc allocation length pitch
    rw [step,hman] at hs
    obtain rfl := Option.some.inj hs
    obtain ⟨hpos,hnew⟩ := hkept
    cases hout with
    | tempUnavail havail =>
      refine ⟨l,h,?_⟩
      cases allocation <;> exact hsized
    | noVideoMemory havail hroom =>
      refine ⟨l,hwork.symm ▸ h,?_⟩
      cases allocation <;> exact hsized
    | look havail hroom => exact ⟨l,hwork.symm ▸ h,hsized⟩
    | failed havail hroom hexact hcalloc hkeep =>
      rename_i a
      rw [hwork] at hroom hexact hkeep
      by_cases hpolicy : a.buffer.policy = .videoOnly
      · rcases (hnew a rfl).2 hpolicy (not_lt.mp havail) hroom with he | he
        · exact absurd he hexact
        · rw [hcalloc] at he
          cases he
      · obtain rfl := hkeep hpolicy
        exact ⟨l,h,hsized⟩
    | placed havail hroom hsplit hocc =>
      rename_i a q
      obtain ⟨pre,p,c,post,rfl,hfits,hpl⟩ := hplaced a rfl q rfl
      rw [hwork] at hpl
      refine ⟨l',h.place hpos hfits hsound hpl,?_⟩
      have halloc : c.allocation = none := by
        have := h.owned (p,c) (by simp)
        simpa [hfits.1] using this
      have hq : (q,tail c a length pitch) ∈ l' := by simp [hpl.list_eq]
      intro b hb x hx
      obtain ⟨hb',hbs⟩ := mem_used.mp hb
      simp only [setSize]
      have hcases : b ∈ used (pre++(p,c)::post) ∨ b = (q,tail c a length pitch) := by
        have hmem := hb
        have hsome : (q,tail c a length pitch).2.allocation.isSome := rfl
        rw [hpl.list_eq,used_append,used_append,used_remainder halloc,List.append_nil,used_cons,
          if_pos hsome] at hmem
        rcases List.mem_append.mp hmem with hm | hm
        · exact .inl (by simp [used_append,hm])
        · rcases List.mem_cons.mp hm with hm | hm
          · exact .inr hm
          · exact .inl (by simp [used_append,used_cons,halloc,hm])
      rcases hcases with hold | rfl
      · obtain ⟨hmem,-⟩ := mem_used.mp hold
        obtain ⟨n,hn,hdata⟩ := h.sound.represents.exists_node (p := b.1) (d := b.2) hmem
        have hne := (hnew a rfl).1 b.1 n x hn (hdata ▸ hx)
        rw [Function.update_of_ne hne]
        exact hsized b hold x hx
      · obtain rfl : a = x := Option.some.inj hx
        obtain ⟨pre',post',heq⟩ := List.append_of_mem hq
        rw [Function.update_self,lengthOf_eq (heq ▸ hsound.represents)]
  | displace locks policy length =>
    obtain ⟨r,t,marked,hr,-⟩ := displace_spec h.sound
      (fun a ha x hx => (hsized a (mem_used.mpr ⟨ha,by rw [hx]; rfl⟩) x hx).le) locks policy length
    rw [step,hr] at hs
    obtain rfl := Option.some.inj hs
    exact ⟨l,h,hsized⟩
  | deallocate c =>
    obtain ⟨⟨r,man⟩,hman,rfl⟩ := Option.map_eq_some_iff.mp hs
    obtain ⟨⟨man',q⟩,hfree,-⟩ := Option.map_eq_some_iff.mp hman
    obtain ⟨n,hn,-⟩ := Option.map_eq_some_iff.mp hfree
    obtain ⟨pre,post,rfl⟩ := h.sound.represents.exists_split hn
    cases ha : n.data.allocation with
    | none =>
      have hbuffer : n.data.buffer = none := by
        simpa [ha] using h.owned (c,n.data) (by simp)
      simp only [SurfaceManager.deallocate,SurfaceManager.freeChunk,hn,Option.map_some,hbuffer,
        Option.some.injEq,Prod.mk.injEq] at hman
      exact ⟨_,hman.2 ▸ h,hsized⟩
    | some allocation =>
      obtain ⟨man'',l',hman'',haccount,-,hused⟩ := h.free ha
      rw [hman''] at hman
      obtain ⟨-,rfl⟩ := Prod.mk.inj (Option.some.inj hman)
      refine ⟨l',haccount,hsized.mono fun a ha => ?_⟩
      rw [hused] at ha
      exact ((used_freed h.sound.represents).mp ha).1
  | adjustHeapOffset offset =>
    obtain ⟨man,hman,rfl⟩ := Option.map_eq_some_iff.mp hs
    obtain ⟨n,hn,hfree,hfits⟩ := hkept
    obtain ⟨l',haccount,hused⟩ := h.adjust hn hfree hfits hman
    exact ⟨l',haccount,hsized.mono fun a ha => hused ▸ ha⟩

def Initial (L : ℤ) (p : Pool α) : Prop := p.manager = create L ∧ p.tolerations = fun _ => 0

theorem reaches_account (hL : 0 ≤ L) {pool : Pool α}
    (h : Reaches (step L) Kept (Initial L) pool) :
    ∃ l, Account L pool.manager l ∧ Sized pool.size l := by
  refine h.invariant (fun p => ∃ l, Account L p.manager l ∧ Sized p.size l) ?_ ?_
  · rintro ⟨manager,size,tolerations⟩ ⟨rfl,-⟩
    exact ⟨_,.create hL,by simp [Sized,used]⟩
  · rintro p e p' ⟨l,haccount,hsized⟩ hkept hs
    exact step_account haccount hsized hkept hs

/-- An allocation is marked only if it may be thrown out, and when all those marked are gone the
request succeeds. -/
theorem displace_delivers (hL : 0 ≤ L) {pool : Pool α}
    (h : Reaches (step L) Kept (Initial L) pool) (locks : α → ℕ) (policy : CoreSurfacePolicy)
    {length : ℤ} (hpos : 0 < length) :
    ∃ r t marked, displace pool locks policy length = some (r,{pool with tolerations := t},marked) ∧
      (∀ c ∈ marked, ∃ n, pool.manager.memory c = some n ∧
        Evictable (pool.request locks policy length) t (c,n.data)) ∧
      (r = .ok ∨ r = .noVideoMemory ∧ marked = []) ∧
      (r = .ok → ∀ cs, cs.Perm marked → ∃ man, deallocateAll pool.manager cs = some man ∧
        ∀ allocation pitch, ∃ man' c, Shared.allocate L true man (some allocation) length pitch =
          some (.ok,man',some c) ∧ Occupied man' allocation length pitch c) := by
  obtain ⟨l,haccount,hsized⟩ := reaches_account hL h
  obtain ⟨r,t,marked,hr,hout⟩ := displace_spec haccount.sound
    (fun a ha x hx => (hsized a (mem_used.mpr ⟨ha,by rw [hx]; rfl⟩) x hx).le) locks policy length
  refine ⟨r,t,marked,hr,?_,?_,?_⟩
  · rcases hout with ⟨-,rfl⟩ | ⟨-,pre,row,post,rfl,rfl,hopen,-⟩
    · simp
    · intro c hc
      obtain ⟨⟨c,d⟩,ha,rfl⟩ := List.mem_map.mp hc
      obtain ⟨hmem,hs⟩ := mem_used.mp ha
      obtain ⟨n,hn,rfl⟩ := haccount.sound.represents.exists_node (p := c) (d := d) (by simp [hmem])
      exact ⟨n,hn,hopen _ hmem hs⟩
  · rcases hout with ⟨rfl,rfl⟩ | ⟨rfl,-⟩
    · exact .inr ⟨rfl,rfl⟩
    · exact .inl rfl
  · rcases hout with ⟨rfl,-⟩ | ⟨-,pre,row,post,rfl,rfl,-,hlen⟩
    · intro hno
      cases hno
    · intro _ cs hcs
      obtain ⟨man,l',hman,hafter,hroom⟩ := haccount.room hcs hpos hlen
      exact ⟨man,hman,fun allocation pitch => hafter.allocate hroom allocation pitch⟩

def newPool (L : ℤ) : Pool ℕ := ⟨create L,fun _ => 0,fun _ => 0⟩

def filledPool : Pool ℕ :=
  (step 100 (newPool 100) (.allocate true (some ⟨0,⟨.videoLow⟩⟩) 40 4)).getD (newPool 100)

/-- One allocation gives way to a larger one. -/
theorem displaced_for_larger : ∃ t man man' c, displace filledPool (fun _ => 0) .videoHigh 70 =
      some (.ok,{filledPool with tolerations := t},[1]) ∧
    deallocateAll filledPool.manager [1] = some man ∧
    Shared.allocate 100 true man (some ⟨1,⟨.videoHigh⟩⟩) 70 4 = some (.ok,man',some c) ∧
    Occupied man' ⟨1,⟨.videoHigh⟩⟩ 70 4 c := by
  have hkept : Kept (newPool 100) (.allocate true (some ⟨0,⟨.videoLow⟩⟩) 40 4) := by
    refine ⟨by decide,fun a ha => ⟨fun c n x hn hx => ?_,fun hpolicy => ?_⟩⟩
    · by_cases hc : c = 0
      · subst hc
        obtain rfl := Option.some.inj hn
        cases hx
      · simp [newPool,SurfaceManager.create,hc] at hn
    · obtain rfl := Option.some.inj ha
      cases hpolicy
  have hstep : step 100 (newPool 100) (.allocate true (some ⟨0,⟨.videoLow⟩⟩) 40 4) =
      some filledPool := rfl
  have hmarked : (displace filledPool (fun _ => 0) .videoHigh 70).map (fun r => (r.1,r.2.2)) =
      some (.ok,[1]) := by decide
  obtain ⟨r,t,marked,hr,-,-,hok⟩ := displace_delivers (by decide)
    (.step _ (.init (show Initial 100 (newPool 100) from ⟨rfl,rfl⟩)) hkept hstep) (fun _ => 0)
    .videoHigh (by decide : (0 : ℤ) < 70)
  rw [hr] at hmarked
  obtain ⟨rfl,rfl⟩ := Prod.mk.inj (Option.some.inj hmarked)
  obtain ⟨man,hman,hallocate⟩ := hok rfl _ (.refl _)
  obtain ⟨man',c,hman',hocc⟩ := hallocate ⟨1,⟨.videoHigh⟩⟩ 4
  exact ⟨t,man,man',c,hr,hman,hman',hocc⟩

/-- Memory that was paid for but not handed out is missing afterwards. -/
theorem displaced_in_vain : ∃ pool pool' man, exec (step 100) (newPool 100)
      [.allocate true (some ⟨0,⟨.videoLow⟩⟩) 40 4,
        .allocate false (some ⟨1,⟨.videoOnly⟩⟩) 50 4] = some pool ∧
    displace pool (fun _ => 0) .videoHigh 70 = some (.ok,pool',[1]) ∧
    deallocateAll pool.manager [1] = some man ∧
    (Shared.allocate 100 true man (some ⟨2,⟨.videoHigh⟩⟩) 70 4).map Prod.fst = some .tempUnavail :=
  ⟨_,_,_,rfl,rfl,rfl,rfl⟩

end MuckOut

end DirectFB.SurfaceManager.Displace
