import DirectFB.DoublyLinked
import DirectFB.Reaches
import DirectFB.Types

/-! The heap of video memory kept by the fbdev and devmem systems: a doubly linked
list of chunks, split at the tail on allocation and merged when freed. -/
namespace DirectFB
open Function (update update_of_ne)
open DoublyLinked Transition

structure CoreSurfaceBuffer where
  policy : CoreSurfacePolicy
  deriving DecidableEq

/-- `object` stands for the allocation's identity. -/
structure CoreSurfaceAllocation (α : Type*) where
  object : α
  buffer : CoreSurfaceBuffer
  deriving DecidableEq

structure Chunk (α : Type*) where
  offset : ℤ
  length : ℤ
  pitch : ℤ
  buffer : Option CoreSurfaceBuffer
  allocation : Option (CoreSurfaceAllocation α)

/-- `nextChunk` is where shared memory for a new chunk is found. -/
structure SurfaceManager (α : Type*) where
  memory : Memory (Chunk α)
  nextChunk : ℕ
  chunks : ℕ
  offset : ℤ
  length : ℤ
  avail : ℤ
  minToleration : ℤ
  suspended : Bool

namespace SurfaceManager

variable {α : Type*}

def create (length : ℤ) : SurfaceManager α where
  memory p := if p = 0 then some ⟨⟨0,length-0,0,none,none⟩,none,none⟩ else none
  nextChunk := 1
  chunks := 0
  offset := 0
  length := length
  avail := length-0
  minToleration := 0
  suspended := false

/-- The new chunk is the tail of the old one. -/
def splitChunk (manager : SurfaceManager α) (c : ℕ) (length : ℤ) : Option (SurfaceManager α × ℕ) :=
  (manager.memory c).map fun chunk =>
    if chunk.data.length = length then (manager,c)
    else
      let new := manager.nextChunk
      let newchunk := ⟨chunk.data.offset+chunk.data.length-length,length,0,none,none⟩
      let memory := setData manager.memory c fun d => {d with length := d.length-length}
      ({manager with memory := linkAfter memory c new newchunk, nextChunk := new+1},new)

def occupyChunk (manager : SurfaceManager α) (c : ℕ) (allocation : CoreSurfaceAllocation α)
    (length pitch : ℤ) : Option (SurfaceManager α × ℕ) :=
  let avail :=
    if allocation.buffer.policy = .videoOnly then manager.avail-length else manager.avail
  (splitChunk {manager with avail := avail} c length).map fun (manager,c) =>
    ({manager with
      memory := setData manager.memory c fun d =>
        {d with allocation := some allocation, buffer := some allocation.buffer, pitch := pitch}
      minToleration := manager.minToleration+1},c)

/-- `!chunk->buffer` for a chunk that is there. -/
def isFree (memory : Memory (Chunk α)) (c : ℕ) : Bool :=
  (memory c).any fun chunk => chunk.data.buffer.isNone

def lengthOf (memory : Memory (Chunk α)) (c : ℕ) : ℤ :=
  ((memory c).map fun chunk => chunk.data.length).getD 0

def grow (memory : Memory (Chunk α)) (c : ℕ) (length : ℤ) : Memory (Chunk α) :=
  setData memory c fun d => {d with length := d.length+length}

def mergePrev (memory : Memory (Chunk α)) (c : ℕ) : Memory (Chunk α) × ℕ :=
  match (memory c).bind Node.prev with
  | none => (memory,c)
  | some prev =>
    if isFree memory prev then (unlinkAfter (grow memory prev (lengthOf memory c)) prev,prev)
    else (memory,c)

def mergeNext (memory : Memory (Chunk α)) (c : ℕ) : Memory (Chunk α) :=
  match (memory c).bind Node.next with
  | none => memory
  | some next =>
    if isFree memory next then unlinkAfter (grow memory c (lengthOf memory next)) c
    else memory

def freeChunk (manager : SurfaceManager α) (c : ℕ) : Option (SurfaceManager α × ℕ) :=
  (manager.memory c).map fun chunk =>
    match chunk.data.buffer with
    -- freeing free chunk
    | none => (manager,c)
    | some buffer =>
      let avail :=
        if buffer.policy = .videoOnly then manager.avail+chunk.data.length else manager.avail
      let memory := setData manager.memory c fun d => {d with allocation := none, buffer := none}
      let (memory,c) := mergePrev memory c
      ({manager with
        memory := mergeNext memory c
        avail := avail
        minToleration := manager.minToleration-1},c)

def better (memory : Memory (Chunk α)) (c : ℕ) : Option ℕ → ℕ
  | none => c
  | some best => if lengthOf memory best > lengthOf memory c then c else best

/-- The walk over the chunks, as far as `fuel` goes; `some none` if none of them
will do. Looking only, it ends at the first one that does. -/
def bestFree (memory : Memory (Chunk α)) (length : ℤ) (look : Bool) :
    ℕ → Option ℕ → Option ℕ → Option (Option ℕ)
  | _, none, best => some best
  | 0, some _, _ => none
  | fuel+1, some c, best =>
    (memory c).bind fun chunk =>
      if chunk.data.buffer = none ∧ length ≤ chunk.data.length then
        if look then some (some c)
        else if chunk.data.length = length then some (some (better memory c best))
        else bestFree memory length look fuel chunk.next (some (better memory c best))
      else bestFree memory length look fuel chunk.next best

/-- The heap is set to its length again while it is one chunk of another one. -/
def workaround (manager : SurfaceManager α) (memoryLength : ℤ) : SurfaceManager α :=
  match manager.memory manager.chunks with
  | some ⟨chunk,_,none⟩ =>
    if chunk.length = memoryLength-manager.offset then manager
    else {manager with
      length := memoryLength
      avail := memoryLength-manager.offset
      memory := setData manager.memory manager.chunks fun d =>
        {d with length := memoryLength-manager.offset}}
  | _ => manager

/-- Allocation of a chunk, of the length and pitch calculated for the buffer.
Without an allocation (`ret_chunk` is NULL) it is a check only. -/
def allocate (memoryLength : ℤ) (manager : SurfaceManager α)
    (allocation : Option (CoreSurfaceAllocation α)) (length pitch : ℤ) :
    Option (DirectResult × SurfaceManager α × Option ℕ) :=
  if manager.suspended then some (.suspended,manager,none)
  else if manager.avail < length then some (.tempUnavail,manager,none)
  else
    let manager := manager.workaround memoryLength
    (bestFree manager.memory length allocation.isNone manager.nextChunk (some manager.chunks)
      none).bind fun best =>
      match best,allocation with
      | none,_ => some (.noVideoMemory,manager,none)
      | some _,none => some (.ok,manager,none)
      | some best,some allocation =>
        (manager.occupyChunk best allocation length pitch).map fun (manager,c) =>
          (.ok,manager,some c)

def deallocate (manager : SurfaceManager α) (c : ℕ) : Option (DirectResult × SurfaceManager α) :=
  (manager.freeChunk c).map fun (manager,_) => (.ok,manager)

/-! Lists of chunks, each with its address, as the heap's list stands for. -/
section Chunks

def Tiles : ℤ → List (ℕ × Chunk α) → ℤ → Prop
  | start, [], stop => start = stop
  | start, (_,c)::l, stop => c.offset = start ∧ 0 < c.length ∧ Tiles (start+c.length) l stop

def Coalesced (l : List (ℕ × Chunk α)) : Prop :=
  l.IsChain fun a b => a.2.buffer = none → b.2.buffer ≠ none

def heldLength (c : Chunk α) : ℤ := if c.buffer = some ⟨.videoOnly⟩ then c.length else 0

def held (l : List (ℕ × Chunk α)) : ℤ := (l.map fun a => heldLength a.2).sum

def owners (l : List (ℕ × Chunk α)) : List (α × ℤ) :=
  l.filterMap fun a => a.2.allocation.map fun allocation => (allocation.object,a.2.length)

variable {start stop : ℤ}

theorem tiles_append {l₁ l₂ : List (ℕ × Chunk α)} :
    Tiles start (l₁++l₂) stop ↔ ∃ mid, Tiles start l₁ mid ∧ Tiles mid l₂ stop := by
  induction l₁ generalizing start with
  | nil => simp [Tiles]
  | cons a l₁ ih =>
    obtain ⟨p,c⟩ := a
    simp only [List.cons_append,Tiles,ih]
    constructor
    · rintro ⟨ho,hl,mid,h₁,h₂⟩
      exact ⟨mid,⟨ho,hl,h₁⟩,h₂⟩
    · rintro ⟨mid,⟨ho,hl,h₁⟩,h₂⟩
      exact ⟨ho,hl,mid,h₁,h₂⟩

theorem Tiles.le {l : List (ℕ × Chunk α)} (h : Tiles start l stop) : start ≤ stop := by
  induction l generalizing start with
  | nil => exact le_of_eq h
  | cons a l ih =>
    have := ih h.2.2
    have := h.2.1
    omega

theorem Tiles.mem {l : List (ℕ × Chunk α)} (h : Tiles start l stop) {p : ℕ}
    {c : Chunk α} (hc : (p,c) ∈ l) : start ≤ c.offset ∧ 0 < c.length ∧ c.offset+c.length ≤ stop := by
  obtain ⟨pre,post,rfl⟩ := List.append_of_mem hc
  obtain ⟨mid,hpre,rfl,hpos,hpost⟩ := tiles_append.mp h
  exact ⟨hpre.le,hpos,hpost.le⟩

theorem held_append (l₁ l₂ : List (ℕ × Chunk α)) : held (l₁++l₂) = held l₁+held l₂ := by
  simp [held]

theorem held_cons (p : ℕ) (c : Chunk α) (l : List (ℕ × Chunk α)) :
    held ((p,c)::l) = heldLength c+held l := by
  simp [held]

theorem owners_append (l₁ l₂ : List (ℕ × Chunk α)) : owners (l₁++l₂) = owners l₁++owners l₂ := by
  simp [owners]

theorem owners_cons_free {p : ℕ} {c : Chunk α} (h : c.allocation = none)
    (l : List (ℕ × Chunk α)) : owners ((p,c)::l) = owners l := by
  simp [owners,h]

theorem owners_cons_used {p : ℕ} {c : Chunk α} {a : CoreSurfaceAllocation α}
    (h : c.allocation = some a) (l : List (ℕ × Chunk α)) :
    owners ((p,c)::l) = (a.object,c.length)::owners l := by
  simp [owners,h]

theorem held_le {l : List (ℕ × Chunk α)} (h : Tiles start l stop) : held l ≤ stop-start := by
  induction l generalizing start with
  | nil => simp [held,show start = stop from h]
  | cons a l ih =>
    obtain ⟨p,c⟩ := a
    have := ih h.2.2
    have := h.2.1
    rw [held_cons,heldLength]
    split_ifs <;> omega

theorem free_le_avail {l : List (ℕ × Chunk α)} (h : Tiles start l stop) {p : ℕ}
    {c : Chunk α} (hc : (p,c) ∈ l) (hfree : c.buffer = none) : c.length ≤ stop-start-held l := by
  obtain ⟨pre,post,rfl⟩ := List.append_of_mem hc
  obtain ⟨mid,hpre,-,-,hpost⟩ := tiles_append.mp h
  have := held_le hpre
  have := held_le hpost
  rw [held_append,held_cons,show heldLength c = 0 by simp [heldLength,hfree]]
  omega

theorem coalesced_middle {pre post : List (ℕ × Chunk α)} {p : ℕ} {c : Chunk α} :
    Coalesced (pre++(p,c)::post) ↔ Coalesced (pre++[(p,c)]) ∧ Coalesced ((p,c)::post) :=
  List.isChain_split

theorem Coalesced.used {pre post : List (ℕ × Chunk α)} {p q : ℕ} {c d : Chunk α}
    (h : Coalesced (pre++(p,c)::post)) (hd : d.buffer ≠ none) :
    Coalesced (pre++(q,d)::post) := by
  obtain ⟨hpre,hpost⟩ := coalesced_middle.mp h
  refine coalesced_middle.mpr ⟨?_,?_⟩
  · refine List.isChain_append.mpr ⟨(List.isChain_append.mp hpre).1,List.isChain_singleton _,?_⟩
    rintro a - b hb -
    obtain rfl : (q,d) = b := by simpa using hb
    exact hd
  · refine List.isChain_cons.mpr ⟨?_,(List.isChain_cons.mp hpost).2⟩
    rintro b - hfree
    contradiction

theorem Coalesced.free {pre post : List (ℕ × Chunk α)} {p q : ℕ} {c d : Chunk α}
    (h : Coalesced (pre++(p,c)::post)) (hc : c.buffer = none) :
    Coalesced (pre++(q,d)::post) := by
  obtain ⟨hpre,hpost⟩ := coalesced_middle.mp h
  refine coalesced_middle.mpr ⟨?_,?_⟩
  · refine List.isChain_append.mpr ⟨(List.isChain_append.mp hpre).1,List.isChain_singleton _,?_⟩
    rintro a ha b - hfree
    exact absurd hc ((List.isChain_append.mp hpre).2.2 a ha (p,c) (by simp) hfree)
  · refine List.isChain_cons.mpr ⟨?_,(List.isChain_cons.mp hpost).2⟩
    rintro b hb -
    exact (List.isChain_cons.mp hpost).1 b hb hc

theorem Coalesced.insert {pre post : List (ℕ × Chunk α)} (hpre : Coalesced pre)
    (hpost : Coalesced post) (hlast : ∀ a ∈ pre.getLast?, a.2.buffer ≠ none)
    (hhead : ∀ b ∈ post.head?, b.2.buffer ≠ none) (p : ℕ) (c : Chunk α) :
    Coalesced (pre++(p,c)::post) := by
  refine coalesced_middle.mpr ⟨?_,List.isChain_cons.mpr ⟨fun b hb _ => hhead b hb,hpost⟩⟩
  refine List.isChain_append.mpr ⟨hpre,List.isChain_singleton _,?_⟩
  rintro a ha b - hfree
  exact absurd hfree (hlast a ha)

theorem Coalesced.insert_used {pre post : List (ℕ × Chunk α)} (h : Coalesced (pre++post)) (q : ℕ)
    {d : Chunk α} (hd : d.buffer ≠ none) : Coalesced (pre++(q,d)::post) := by
  obtain ⟨hpre,hpost,-⟩ := List.isChain_append.mp h
  refine List.isChain_append.mpr ⟨hpre,List.isChain_cons.mpr ⟨fun b _ hfree => absurd hfree hd,
    hpost⟩,fun a _ b hb _ => ?_⟩
  obtain rfl : (q,d) = b := by simpa using hb
  exact hd

def Owned (l : List (ℕ × Chunk α)) : Prop :=
  ∀ a ∈ l, a.2.buffer = a.2.allocation.map CoreSurfaceAllocation.buffer

structure Covers (l l' : List (ℕ × Chunk α)) : Prop where
  tiles : ∀ start stop, Tiles start l stop → Tiles start l' stop
  owners_eq : owners l' = owners l
  held_eq : held l' = held l
  owned : Owned l → Owned l'

theorem Covers.refl (l : List (ℕ × Chunk α)) : Covers l l := ⟨fun _ _ h => h,rfl,rfl,id⟩

theorem Covers.trans {l₁ l₂ l₃ : List (ℕ × Chunk α)} (h : Covers l₁ l₂) (h' : Covers l₂ l₃) :
    Covers l₁ l₃ :=
  ⟨fun a b ht => h'.tiles a b (h.tiles a b ht),h'.owners_eq.trans h.owners_eq,
    h'.held_eq.trans h.held_eq,fun ho => h'.owned (h.owned ho)⟩

/-- Two free neighbours are merged. -/
theorem Covers.merge {pre post : List (ℕ × Chunk α)} {p q : ℕ} {c d : Chunk α}
    (howned : Owned (pre++(p,c)::(q,d)::post)) (hc : c.buffer = none) (hd : d.buffer = none) :
    Covers (pre++(p,c)::(q,d)::post) (pre++(p,{c with length := c.length+d.length})::post) := by
  have hca : c.allocation = none := by simpa [hc] using howned (p,c) (by simp)
  have hda : d.allocation = none := by simpa [hd] using howned (q,d) (by simp)
  refine ⟨?_,?_,?_,?_⟩
  · intro start stop h
    obtain ⟨mid,hpre,ho,hl,-,hl',hpost⟩ := tiles_append.mp h
    refine tiles_append.mpr ⟨mid,hpre,ho,by simp only []; omega,?_⟩
    rwa [← add_assoc]
  · simp [owners_append,owners_cons_free,hca,hda]
  · simp [held_append,held_cons,heldLength,hc,hd]
  · intro h a ha
    simp only [List.mem_append,List.mem_cons] at ha
    rcases ha with ha | rfl | ha
    · exact h a (by simp [ha])
    · simp [hc,hca]
    · exact h a (by simp [ha])

/-- Free neighbours are merged. -/
inductive Merges : List (ℕ × Chunk α) → List (ℕ × Chunk α) → Prop
  | refl (l : List (ℕ × Chunk α)) : Merges l l
  | merge {pre post l : List (ℕ × Chunk α)} {p q : ℕ} {c d : Chunk α} :
    c.buffer = none → d.buffer = none →
    Merges (pre++(p,{c with length := c.length+d.length})::post) l →
    Merges (pre++(p,c)::(q,d)::post) l

theorem Merges.covers {l l' : List (ℕ × Chunk α)} (h : Merges l l') (howned : Owned l) :
    Covers l l' := by
  induction h with
  | refl l => exact .refl l
  | merge hc hd _ ih =>
    have hmerge := Covers.merge howned hc hd
    exact hmerge.trans (ih (hmerge.owned howned))

def Fits (length : ℤ) (c : Chunk α) : Prop := c.buffer = none ∧ length ≤ c.length

def Best (length : ℤ) (l : List (ℕ × Chunk α)) : Option ℕ → Prop
  | none => ∀ a ∈ l, ¬ Fits length a.2
  | some b => ∃ d, (b,d) ∈ l ∧ Fits length d ∧ ∀ a ∈ l, Fits length a.2 → d.length ≤ a.2.length

theorem Best.snoc_of_not_fits {length : ℤ} {l : List (ℕ × Chunk α)} {best : Option ℕ} {p : ℕ}
    {c : Chunk α} (h : Best length l best) (hc : ¬ Fits length c) : Best length (l++[(p,c)]) best := by
  cases best with
  | none =>
    intro a ha
    rcases List.mem_append.mp ha with ha | ha
    · exact h a ha
    · obtain rfl : a = (p,c) := by simpa using ha
      exact hc
  | some b =>
    obtain ⟨d,hd,hfits,hmin⟩ := h
    refine ⟨d,by simp [hd],hfits,fun a ha hfa => ?_⟩
    rcases List.mem_append.mp ha with ha | ha
    · exact hmin a ha hfa
    · obtain rfl : a = (p,c) := by simpa using ha
      contradiction

theorem Best.append {length : ℤ} {l rest : List (ℕ × Chunk α)} {b : ℕ}
    (h : Best length l (some b)) (hexact : ∃ a ∈ l, Fits length a.2 ∧ a.2.length = length) :
    Best length (l++rest) (some b) := by
  obtain ⟨d,hd,hfits,hmin⟩ := h
  obtain ⟨a,ha,hfa,hlen⟩ := hexact
  refine ⟨d,by simp [hd],hfits,fun a' _ hfa' => ?_⟩
  have := hmin a ha hfa
  have := hfa'.2
  omega

end Chunks

section Walk

variable {memory : Memory (Chunk α)} {head : Option ℕ} {pre post : List (ℕ × Chunk α)}
variable {p : ℕ} {c : Chunk α} {length : ℤ}

theorem lengthOf_eq (h : Represents memory head (pre++(p,c)::post)) :
    lengthOf memory p = c.length := by
  simp [lengthOf,h.node]

theorem isFree_eq (h : Represents memory head (pre++(p,c)::post)) :
    isFree memory p = c.buffer.isNone := by
  simp [isFree,h.node]

/-- The better one of the best chunk so far and the next one that fits. -/
theorem Best.snoc (h : Represents memory head (pre++(p,c)::post)) {best : Option ℕ}
    (hbest : Best length pre best) (hc : Fits length c) :
    Best length (pre++[(p,c)]) (some (better memory p best)) := by
  have hc' := lengthOf_eq h
  cases best with
  | none =>
    refine ⟨c,by simp [better],hc,fun a ha hfa => ?_⟩
    rcases List.mem_append.mp ha with ha | ha
    · exact absurd hfa (hbest a ha)
    · obtain rfl : a = (p,c) := by simpa using ha
      exact le_rfl
  | some b =>
    obtain ⟨d,hd,hfits,hmin⟩ := hbest
    have hlen : lengthOf memory b = d.length := by
      obtain ⟨pre',post',hsplit⟩ := List.append_of_mem hd
      rw [hsplit,List.append_assoc] at h
      exact lengthOf_eq h
    rw [better,hlen,hc']
    split_ifs with hlt
    · refine ⟨c,by simp,hc,fun a ha hfa => ?_⟩
      rcases List.mem_append.mp ha with ha | ha
      · exact hlt.le.trans (hmin a ha hfa)
      · obtain rfl : a = (p,c) := by simpa using ha
        exact le_rfl
    · refine ⟨d,by simp [hd],hfits,fun a ha hfa => ?_⟩
      rcases List.mem_append.mp ha with ha | ha
      · exact hmin a ha hfa
      · obtain rfl : a = (p,c) := by simpa using ha
        exact not_lt.mp hlt

/-- The walk ends, at the smallest free chunk that is long enough. -/
theorem bestFree_best (rest : List (ℕ × Chunk α)) (fuel : ℕ) (hfuel : rest.length ≤ fuel)
    (best : Option ℕ) (h : Represents memory head (pre++rest)) (hbest : Best length pre best) :
    ∃ r, bestFree memory length false fuel (first rest none) best = some r ∧
      Best length (pre++rest) r := by
  induction rest generalizing pre fuel best with
  | nil => exact ⟨best,by cases fuel <;> rfl,by simpa using hbest⟩
  | cons a rest ih =>
    obtain ⟨q,d⟩ := a
    cases fuel with
    | zero => simp at hfuel
    | succ fuel =>
      have hnext (best' : Option ℕ) (hbest' : Best length (pre++[(q,d)]) best') :
          ∃ r, bestFree memory length false fuel (first rest none) best' = some r ∧
            Best length (pre++(q,d)::rest) r := by
        obtain ⟨r,hr,hb⟩ := @ih (pre++[(q,d)]) fuel (by simpa using hfuel) best'
          (by simpa using h) hbest'
        exact ⟨r,hr,by simpa using hb⟩
      rw [first_cons,bestFree,h.node,Option.bind_some]
      by_cases hd : Fits length d
      · have hsnoc := hbest.snoc h hd
        simp only [if_pos (show d.buffer = none ∧ length ≤ d.length from hd)]
        by_cases hexact : d.length = length
        · refine ⟨_,by rw [if_neg (by simp),if_pos hexact],?_⟩
          have := @Best.append _ _ _ rest _ hsnoc ⟨(q,d),by simp,hd,hexact⟩
          simpa using this
        · rw [if_neg (by simp),if_neg hexact]
          exact hnext _ hsnoc
      · rw [if_neg (show ¬ (d.buffer = none ∧ length ≤ d.length) from hd)]
        exact hnext best (hbest.snoc_of_not_fits hd)

/-- Looking only, the walk tells whether any chunk is long enough. -/
theorem bestFree_look (rest : List (ℕ × Chunk α)) (fuel : ℕ) (hfuel : rest.length ≤ fuel)
    (h : Represents memory head (pre++rest)) :
    ∃ r, bestFree memory length true fuel (first rest none) none = some r ∧
      (r = none ↔ ∀ a ∈ rest, ¬ Fits length a.2) := by
  induction rest generalizing pre fuel with
  | nil => exact ⟨none,by cases fuel <;> rfl,by simp⟩
  | cons a rest ih =>
    obtain ⟨q,d⟩ := a
    cases fuel with
    | zero => simp at hfuel
    | succ fuel =>
      rw [first_cons,bestFree,h.node,Option.bind_some]
      by_cases hd : Fits length d
      · rw [if_pos (show d.buffer = none ∧ length ≤ d.length from hd)]
        exact ⟨some q,by simp,by simp [hd]⟩
      · obtain ⟨r,hr,hnone⟩ := @ih (pre++[(q,d)]) fuel (by simpa using hfuel) (by simpa using h)
        rw [if_neg (show ¬ (d.buffer = none ∧ length ≤ d.length) from hd)]
        exact ⟨r,hr,by simp [hnone,hd]⟩

/-- A chunk that was just freed, with the previous one if that was free. -/
theorem mergePrev_represents (h : Represents memory head (pre++(p,c)::post)) :
    ∃ pre' q d, (mergePrev memory p).2 = q ∧
      Represents (mergePrev memory p).1 head (pre'++(q,d)::post) ∧
      ((pre' = pre ∧ q = p ∧ d = c ∧ ∀ a ∈ pre.getLast?, a.2.buffer ≠ none) ∨
        ∃ e, pre = pre'++[(q,e)] ∧ e.buffer = none ∧ d = {e with length := e.length+c.length}) := by
  rcases List.eq_nil_or_concat pre with rfl | ⟨pre',⟨q,e⟩,rfl⟩
  · exact ⟨[],p,c,by simp [mergePrev,h.node],by simpa [mergePrev,h.node] using h,
      .inl ⟨rfl,rfl,rfl,by simp⟩⟩
  · have h' : Represents memory head (pre'++(q,e)::(p,c)::post) := by simpa using h
    have hprev : (memory p).bind Node.prev = some q := by simp [h.node,last]
    have hlen := lengthOf_eq h
    by_cases hfree : e.buffer = none
    · have hm : mergePrev memory p = (unlinkAfter (grow memory q c.length) q,q) := by
        simp [mergePrev,hprev,isFree_eq h',hfree,hlen]
      rw [hm]
      exact ⟨pre',q,_,rfl,(h'.setData fun d => {d with length := d.length+c.length}).unlinkAfter,
        .inr ⟨e,by simp,hfree,rfl⟩⟩
    · have hm : mergePrev memory p = (memory,p) := by
        simp [mergePrev,hprev,isFree_eq h',hfree]
      rw [hm]
      exact ⟨_,p,c,rfl,h,.inl ⟨rfl,rfl,rfl,by simpa using hfree⟩⟩

theorem mergePrev_eq_none {r : ℕ} (hr : memory r = none) : (mergePrev memory p).1 r = none := by
  rcases hn : (memory p).bind Node.prev with _ | q
  · simpa [mergePrev,hn] using hr
  · by_cases hfree : isFree memory q
    · simpa [mergePrev,hn,hfree] using unlinkAfter_eq_none (by simpa [grow] using hr)
    · simpa [mergePrev,hn,hfree] using hr

theorem mergeNext_eq_none {r : ℕ} (hr : memory r = none) : mergeNext memory p r = none := by
  rcases hn : (memory p).bind Node.next with _ | q
  · simpa [mergeNext,hn] using hr
  · by_cases hfree : isFree memory q
    · simpa [mergeNext,hn,hfree] using unlinkAfter_eq_none (by simpa [grow] using hr)
    · simpa [mergeNext,hn,hfree] using hr

/-- A free chunk, with the next one if that is free. -/
theorem mergeNext_represents (h : Represents memory head (pre++(p,c)::post)) :
    ∃ post' d, Represents (mergeNext memory p) head (pre++(p,d)::post') ∧
      ((post' = post ∧ d = c ∧ ∀ b ∈ post.head?, b.2.buffer ≠ none) ∨
        ∃ q e, post = (q,e)::post' ∧ e.buffer = none ∧
          d = {c with length := c.length+e.length}) := by
  cases post with
  | nil => exact ⟨[],c,by simpa [mergeNext,h.node] using h,.inl ⟨rfl,rfl,by simp⟩⟩
  | cons b post =>
    obtain ⟨q,e⟩ := b
    have h' : Represents memory head ((pre++[(p,c)])++(q,e)::post) := by simpa using h
    have hnext : (memory p).bind Node.next = some q := by simp [h.node]
    have hlen := lengthOf_eq h'
    by_cases hfree : e.buffer = none
    · have hm : mergeNext memory p = unlinkAfter (grow memory p e.length) p := by
        simp [mergeNext,hnext,isFree_eq h',hfree,hlen]
      rw [hm]
      exact ⟨post,_,(h.setData fun d => {d with length := d.length+e.length}).unlinkAfter,
        .inr ⟨q,e,rfl,hfree,rfl⟩⟩
    · have hm : mergeNext memory p = memory := by
        simp [mergeNext,hnext,isFree_eq h',hfree]
      rw [hm]
      exact ⟨_,c,h,.inl ⟨rfl,rfl,by simpa using hfree⟩⟩

end Walk

/-- The addresses below the next one are enough for all chunks. -/
theorem length_le {memory : Memory (Chunk α)} {head : Option ℕ} {l : List (ℕ × Chunk α)} {n : ℕ}
    (h : Represents memory head l) (hfresh : ∀ p, n ≤ p → memory p = none) : l.length ≤ n := by
  have hlt : ∀ p ∈ l.map Prod.fst, p < n := by
    intro p hp
    by_contra hge
    obtain ⟨⟨q,d⟩,hmem,rfl⟩ := List.mem_map.mp hp
    obtain ⟨node,hn,-⟩ := h.exists_node hmem
    rw [hfresh q (not_lt.mp hge)] at hn
    contradiction
  have hsub : (l.map Prod.fst).toFinset ⊆ Finset.range n := by
    intro p hp
    exact Finset.mem_range.mpr (hlt p (List.mem_toFinset.mp hp))
  have hcard := Finset.card_le_card hsub
  rwa [List.toFinset_card_of_nodup h.nodup,List.length_map,Finset.card_range] at hcard

structure Heap (L : ℤ) (manager : SurfaceManager α) (live : α → Option ℤ)
    (l : List (ℕ × Chunk α)) : Prop where
  represents : Represents manager.memory (some manager.chunks) l
  fresh : ∀ p, manager.nextChunk ≤ p → manager.memory p = none
  tiles : Tiles manager.offset l L
  coalesced : Coalesced l
  owned : Owned l
  nodup : ((owners l).map Prod.fst).Nodup
  live_iff : ∀ a n, live a = some n ↔ (a,n) ∈ owners l
  avail_eq : manager.avail = L-manager.offset-held l
  not_suspended : manager.suspended = false

section Heap

variable {L : ℤ} {manager : SurfaceManager α} {live : α → Option ℤ} {l pre post : List (ℕ × Chunk α)}
variable {p : ℕ} {c : Chunk α}

theorem Heap.create (hL : 0 < L) :
    Heap L (create L) (fun _ : α => none) [(0,⟨0,L-0,0,none,none⟩)] where
  represents := by
    refine ⟨rfl,⟨rfl,trivial⟩,by simp,fun p hp => ?_⟩
    by_contra hne
    simp [SurfaceManager.create,show p ≠ 0 by simpa using hne] at hp
  fresh p hp := by
    have : p ≠ 0 := by simp only [SurfaceManager.create] at hp; omega
    simp [SurfaceManager.create,this]
  tiles := by
    refine ⟨rfl,by simpa using hL,?_⟩
    simp [Tiles,SurfaceManager.create]
  coalesced := List.isChain_singleton _
  owned := by simp [Owned]
  nodup := by simp [owners]
  live_iff := by simp [owners]
  avail_eq := by simp [SurfaceManager.create,held,heldLength]
  not_suspended := rfl

theorem Heap.length_le (h : Heap L manager live l) : l.length ≤ manager.nextChunk :=
  SurfaceManager.length_le h.represents h.fresh

/-- The heap has the manager's length, so there is nothing to work around. -/
theorem Heap.workaround (h : Heap L manager live l) : manager.workaround L = manager := by
  rcases hn : manager.memory manager.chunks with _ | ⟨c,prev,_ | next⟩
  · simp [SurfaceManager.workaround,hn]
  · obtain ⟨pre,post,rfl⟩ := h.represents.exists_split hn
    have hnode := h.represents.node
    rw [hn,Option.some.injEq,Node.mk.injEq] at hnode
    obtain ⟨-,-,hpost⟩ := hnode
    have hpost : post = [] := by
      cases post with
      | nil => rfl
      | cons a post => simp [first] at hpost
    have hhead := h.represents.head_eq
    have hpre : pre = [] := by
      cases pre with
      | nil => rfl
      | cons a pre =>
        have hnodup := h.represents.nodup
        simp [first] at hhead
        simp [hhead] at hnodup
    subst hpost hpre
    have hlen : c.length = L-manager.offset := by
      obtain ⟨-,-,heq⟩ := h.tiles
      simp only [Tiles] at heq
      omega
    simp [SurfaceManager.workaround,hn,hlen]
  · simp [SurfaceManager.workaround,hn]

def tail (c : Chunk α) (allocation : CoreSurfaceAllocation α) (length pitch : ℤ) : Chunk α :=
  ⟨c.offset+c.length-length,length,pitch,some allocation.buffer,some allocation⟩

def remainder (p : ℕ) (c : Chunk α) (length : ℤ) : List (ℕ × Chunk α) :=
  if c.length = length then [] else [(p,{c with length := c.length-length})]

theorem occupyChunk_represents
    (h : Represents manager.memory (some manager.chunks) (pre++(p,c)::post))
    (hfresh : ∀ p, manager.nextChunk ≤ p → manager.memory p = none)
    (allocation : CoreSurfaceAllocation α) (length pitch : ℤ) :
    ∃ man q, manager.occupyChunk p allocation length pitch = some (man,q) ∧
      Represents man.memory (some man.chunks)
        (pre++remainder p c length++(q,tail c allocation length pitch)::post) ∧
      (∀ p, man.nextChunk ≤ p → man.memory p = none) ∧ man.offset = manager.offset ∧
      man.avail = manager.avail-heldLength (tail c allocation length pitch) ∧
      man.suspended = manager.suspended := by
  have havail : (if allocation.buffer.policy = .videoOnly then manager.avail-length
      else manager.avail) = manager.avail-heldLength (tail c allocation length pitch) := by
    obtain ⟨object,⟨policy⟩⟩ := allocation
    cases policy <;> simp [heldLength,tail]
  let f (d : Chunk α) : Chunk α :=
    {d with allocation := some allocation, buffer := some allocation.buffer, pitch := pitch}
  by_cases hlen : c.length = length
  · have hf : f c = tail c allocation length pitch := by simp [f,tail,← hlen]
    simp only [occupyChunk,splitChunk,h.node,Option.map_some,if_pos hlen]
    refine ⟨_,_,rfl,?_,?_,rfl,havail,rfl⟩
    · rw [remainder,if_pos hlen,← hf]
      simpa using h.setData f
    · intro r hr
      simpa using hfresh r hr
  · let g (d : Chunk α) : Chunk α := {d with length := d.length-length}
    have hshort := h.setData g
    have hnone : setData manager.memory p g manager.nextChunk = none := by
      simpa using hfresh _ le_rfl
    have hlink := hshort.linkAfter hnone ⟨c.offset+c.length-length,length,0,none,none⟩
    have hlink' : Represents (linkAfter (setData manager.memory p g) p manager.nextChunk
        ⟨c.offset+c.length-length,length,0,none,none⟩) (some manager.chunks)
        ((pre++[(p,g c)])++(manager.nextChunk,⟨c.offset+c.length-length,length,0,none,none⟩)::post) := by
      simpa using hlink
    simp only [occupyChunk,splitChunk,h.node,Option.map_some,if_neg hlen]
    refine ⟨_,_,rfl,?_,?_,rfl,havail,rfl⟩
    · rw [remainder,if_neg hlen]
      exact hlink'.setData f
    · intro r hr
      have hr' : manager.nextChunk+1 ≤ r := hr
      rw [setData_eq_none]
      exact linkAfter_eq_none (by simpa using hfresh r (by omega)) (by omega)

theorem Coalesced.occupied (h : Coalesced (pre++(p,c)::post)) (hc : c.buffer = none) (q : ℕ)
    (allocation : CoreSurfaceAllocation α) (length pitch : ℤ) :
    Coalesced (pre++remainder p c length++(q,tail c allocation length pitch)::post) := by
  have hused : (tail c allocation length pitch).buffer ≠ none := by simp [tail]
  rw [remainder]
  split_ifs with hlen
  · simpa using h.used hused
  · have hshort : Coalesced ((pre++[(p,{c with length := c.length-length})])++post) := by
      simpa using h.free hc
    exact hshort.insert_used q hused

theorem Owned.occupied (h : Owned (pre++(p,c)::post)) (hc : c.buffer = none) (q : ℕ)
    (allocation : CoreSurfaceAllocation α) (length pitch : ℤ) :
    Owned (pre++remainder p c length++(q,tail c allocation length pitch)::post) := by
  intro a ha
  simp only [List.mem_append,List.mem_cons] at ha
  rcases ha with (ha | ha) | rfl | ha
  · exact h a (by simp [ha])
  · rw [remainder] at ha
    split_ifs at ha with hlen
    · simp at ha
    · obtain rfl : a = (p,{c with length := c.length-length}) := by simpa using ha
      simpa [hc] using h (p,c) (by simp)
  · rfl
  · exact h a (by simp [ha])

/-- A used chunk is freed and the gap closed to both sides. -/
theorem freeChunk_merges (h : Represents manager.memory (some manager.chunks) (pre++(p,c)::post))
    (hfresh : ∀ r, manager.nextChunk ≤ r → manager.memory r = none)
    (hcoalesced : Coalesced (pre++(p,c)::post)) (howned : Owned (pre++(p,c)::post))
    {allocation : CoreSurfaceAllocation α} (hc : c.allocation = some allocation) :
    ∃ memory q l, manager.freeChunk p = some ({manager with
        memory
        avail := manager.avail+heldLength c
        minToleration := manager.minToleration-1},q) ∧
      Represents memory (some manager.chunks) l ∧
      (∀ r, manager.nextChunk ≤ r → memory r = none) ∧ Coalesced l ∧
      Owned (pre++(p,{c with allocation := none, buffer := none})::post) ∧
      Merges (pre++(p,{c with allocation := none, buffer := none})::post) l := by
  have hbuffer : c.buffer = some allocation.buffer := by
    have := howned (p,c) (by simp)
    simpa [hc] using this
  let f (d : Chunk α) : Chunk α := {d with allocation := none, buffer := none}
  obtain ⟨pre',q,d,hq,hprev,hpre'⟩ := mergePrev_represents (h.setData f)
  obtain ⟨post',e,hnext,hpost'⟩ := mergeNext_represents hprev
  have hchain := List.isChain_append.mp hcoalesced
  have hpostchain := (List.isChain_cons.mp hchain.2.1).2
  have hpre : d.buffer = none ∧ Coalesced pre' ∧ (∀ a ∈ pre'.getLast?, a.2.buffer ≠ none) ∧
      ∀ l, Merges (pre'++(q,d)::post) l → Merges (pre++(p,f c)::post) l := by
    rcases hpre' with ⟨rfl,rfl,rfl,hlast⟩ | ⟨g,rfl,hfree,rfl⟩
    · exact ⟨rfl,hchain.1,hlast,fun _ hl => hl⟩
    · obtain ⟨hpre,-,hlast⟩ := List.isChain_append.mp hchain.1
      exact ⟨hfree,hpre,fun a ha hfree' => hlast a ha (q,g) (by simp) hfree' hfree,
        fun l hl => by simpa using Merges.merge hfree (rfl : (f c).buffer = none) hl⟩
  obtain ⟨hd,hpre,hlast,hmerges⟩ := hpre
  have hpost : Coalesced post' ∧ (∀ b ∈ post'.head?, b.2.buffer ≠ none) ∧
      Merges (pre'++(q,d)::post) (pre'++(q,e)::post') := by
    rcases hpost' with ⟨rfl,rfl,hhead⟩ | ⟨r,g,rfl,hfree,rfl⟩
    · exact ⟨hpostchain,hhead,.refl _⟩
    · obtain ⟨hhead,hpost⟩ := List.isChain_cons.mp hpostchain
      exact ⟨hpost,fun b hb => hhead b hb hfree,.merge hd hfree (.refl _)⟩
  obtain ⟨hpost,hhead,hmerge⟩ := hpost
  have havail : (if allocation.buffer.policy = .videoOnly then manager.avail+c.length
      else manager.avail) = manager.avail+heldLength c := by
    obtain ⟨object,⟨policy⟩⟩ := allocation
    cases policy <;> simp [heldLength,hbuffer]
  refine ⟨mergeNext (mergePrev (setData manager.memory p f) p).1 q,q,_,?_,hnext,fun r hr => ?_,
    hpre.insert hpost hlast hhead q e,fun a ha => ?_,hmerges _ hmerge⟩
  · simp only [freeChunk,h.node,Option.map_some,hbuffer,havail,← hq]
    rfl
  · exact mergeNext_eq_none (mergePrev_eq_none (by simpa using hfresh r hr))
  · simp only [List.mem_append,List.mem_cons] at ha
    rcases ha with ha | rfl | ha
    · exact howned a (by simp [ha])
    · rfl
    · exact howned a (by simp [ha])

variable [DecidableEq α]

/-- A free chunk that is long enough is handed to a new allocation. -/
theorem Heap.occupy (h : Heap L manager live (pre++(p,c)::post)) {length : ℤ} (hpos : 0 < length)
    (hc : Fits length c) {allocation : CoreSurfaceAllocation α}
    (hnew : live allocation.object = none) (pitch : ℤ) :
    ∃ man q l, manager.occupyChunk p allocation length pitch = some (man,q) ∧
      Heap L man (update live allocation.object (some length)) l ∧
      (q,tail c allocation length pitch) ∈ l := by
  obtain ⟨man,q,hman,hrep,hfresh,hoffset,havail,hsusp⟩ :=
    occupyChunk_represents h.represents h.fresh allocation length pitch
  refine ⟨man,q,pre++remainder p c length++(q,tail c allocation length pitch)::post,hman,?_,by simp⟩
  have halloc : c.allocation = none := by
    have := h.owned (p,c) (by simp)
    simpa [hc.1] using this
  have hrem : owners (remainder p c length) = [] ∧ held (remainder p c length) = 0 := by
    rw [remainder]
    split_ifs <;> simp [owners,held,heldLength,halloc,hc.1]
  have howners : owners (pre++remainder p c length++(q,tail c allocation length pitch)::post) =
      owners pre++(allocation.object,length)::owners post := by
    rw [owners_append,owners_append,hrem.1,owners_cons_used (rfl : _ = some allocation)]
    simp [tail]
  have hold : owners (pre++(p,c)::post) = owners pre++owners post := by
    rw [owners_append,owners_cons_free halloc]
  have hlive := h.live_iff
  have hnodup := h.nodup
  rw [hold] at hlive hnodup
  have habsent : allocation.object ∉ (owners pre++owners post).map Prod.fst := by
    intro hmem
    obtain ⟨⟨a,n⟩,hn,ha⟩ := List.mem_map.mp hmem
    rw [← ha,(hlive a n).mpr hn] at hnew
    contradiction
  refine ⟨hrep,hfresh,?_,h.coalesced.occupied hc.1 ..,h.owned.occupied hc.1 q _ _ _,?_,?_,?_,
    hsusp.trans h.not_suspended⟩
  · rw [hoffset]
    obtain ⟨mid,hpre,ho,hl,hpost⟩ := tiles_append.mp h.tiles
    have hfit := hc.2
    rw [List.append_assoc]
    refine tiles_append.mpr ⟨mid,hpre,?_⟩
    rw [remainder]
    split_ifs with hlen
    · exact ⟨by simp [tail]; omega,hpos,by simpa [tail,← hlen] using hpost⟩
    · have hend : mid+(c.length-length)+length = mid+c.length := by ring
      exact ⟨ho,by simp only []; omega,by simp [tail]; omega,hpos,by simpa [tail,hend] using hpost⟩
  · rw [howners]
    simp only [List.map_append,List.map_cons,List.nodup_middle,List.nodup_cons] at habsent hnodup ⊢
    exact ⟨habsent,hnodup⟩
  · intro a n
    rw [howners,List.mem_append,List.mem_cons]
    by_cases ha : a = allocation.object
    · subst ha
      have hno (k : ℤ) : (allocation.object,k) ∉ owners pre++owners post := fun hk =>
        habsent (List.mem_map.mpr ⟨_,hk,rfl⟩)
      have hno' := hno n
      rw [List.mem_append,not_or] at hno'
      simp [hno'.1,hno'.2,eq_comm]
    · rw [update_of_ne ha,hlive,List.mem_append]
      simp [ha]
  · have hfree : heldLength c = 0 := by simp [heldLength,hc.1]
    rw [havail,hoffset,h.avail_eq,held_append,held_append,held_append,held_cons,held_cons,hrem.2,
      hfree]
    ring

/-- A chunk is freed and the gap closed to both sides. -/
theorem Heap.free (h : Heap L manager live (pre++(p,c)::post))
    {allocation : CoreSurfaceAllocation α} (hc : c.allocation = some allocation) :
    ∃ man q l, manager.freeChunk p = some (man,q) ∧
      Heap L man (update live allocation.object none) l := by
  obtain ⟨memory,q,l,hman,hrep,hfresh,hcoalesced,howned,hmerges⟩ :=
    freeChunk_merges h.represents h.fresh h.coalesced h.owned hc
  have hcover := hmerges.covers howned
  have howners : owners l = owners pre++owners post := by
    rw [hcover.owners_eq,owners_append,owners_cons_free rfl]
  have hheld : held l = held pre+held post := by
    rw [hcover.held_eq,held_append,held_cons]
    simp [heldLength]
  have hlive := h.live_iff
  have hnodup := h.nodup
  rw [owners_append,owners_cons_used hc] at hlive hnodup
  refine ⟨_,q,l,hman,hrep,hfresh,hcover.tiles _ _ ?_,hcoalesced,hcover.owned howned,?_,?_,?_,
    h.not_suspended⟩
  · obtain ⟨mid,htiles⟩ := tiles_append.mp h.tiles
    exact tiles_append.mpr ⟨mid,htiles⟩
  · rw [howners]
    simp only [List.map_append,List.map_cons,List.nodup_middle,List.nodup_cons] at hnodup
    simpa using hnodup.2
  · intro a n
    rw [howners]
    simp only [List.map_append,List.map_cons,List.nodup_middle,List.nodup_cons] at hnodup
    by_cases ha : a = allocation.object
    · subst ha
      have hno : (allocation.object,n) ∉ owners pre++owners post := fun hmem =>
        hnodup.1 (by rw [← List.map_append]; exact List.mem_map.mpr ⟨_,hmem,rfl⟩)
      simp [hno]
    · rw [update_of_ne ha,hlive]
      simp [ha]
  · have havail' := h.avail_eq
    rw [held_append,held_cons] at havail'
    rw [hheld,havail']
    ring

/-- Without a free chunk that is long enough a request fails, whatever the reason
given; otherwise it gets the tail of a smallest one. -/
inductive Served (length pitch : ℤ) (l : List (ℕ × Chunk α)) :
    Option (CoreSurfaceAllocation α) → DirectResult → List (ℕ × Chunk α) → Prop
  | tempUnavail {allocation : Option (CoreSurfaceAllocation α)} :
    (∀ a ∈ l, ¬ Fits length a.2) → Served length pitch l allocation .tempUnavail l
  | noVideoMemory {allocation : Option (CoreSurfaceAllocation α)} :
    (∀ a ∈ l, ¬ Fits length a.2) → Served length pitch l allocation .noVideoMemory l
  | look : (∃ a ∈ l, Fits length a.2) → Served length pitch l none .ok l
  | placed {allocation : CoreSurfaceAllocation α} {l' : List (ℕ × Chunk α)} {p q : ℕ} {c : Chunk α} :
    (p,c) ∈ l → Fits length c → (∀ a ∈ l, Fits length a.2 → c.length ≤ a.2.length) →
    (q,tail c allocation length pitch) ∈ l' → Served length pitch l (some allocation) .ok l'

def liveAfter (allocation : Option (CoreSurfaceAllocation α)) (length : ℤ) (r : DirectResult)
    (live : α → Option ℤ) : α → Option ℤ :=
  match allocation with
  | none => live
  | some allocation =>
    if r = .ok then update live allocation.object (some length) else live

theorem Heap.allocate (h : Heap L manager live l) {allocation : Option (CoreSurfaceAllocation α)}
    {length : ℤ} (hpos : 0 < length) (hnew : ∀ a ∈ allocation, live a.object = none) (pitch : ℤ) :
    ∃ r man ret l', manager.allocate L allocation length pitch = some (r,man,ret) ∧
      Served length pitch l allocation r l' ∧
      Heap L man (liveAfter allocation length r live) l' := by
  have hfail (r : DirectResult) (hr : r ≠ .ok) : liveAfter allocation length r live = live := by
    cases allocation <;> simp [liveAfter,hr]
  by_cases havail : manager.avail < length
  · refine ⟨.tempUnavail,manager,none,l,by
      simp [SurfaceManager.allocate,h.not_suspended,havail],.tempUnavail ?_,by
      rwa [hfail _ (by simp)]⟩
    rintro ⟨p,c⟩ hc ⟨hfree,hlen⟩
    have hroom := hlen.trans (free_le_avail h.tiles hc hfree)
    rw [← h.avail_eq] at hroom
    omega
  have hhead := h.represents.head_eq
  have hstart : manager.allocate L allocation length pitch =
      (bestFree manager.memory length allocation.isNone manager.nextChunk (first l none)
        none).bind fun best => match best,allocation with
      | none,_ => some (.noVideoMemory,manager,none)
      | some _,none => some (.ok,manager,none)
      | some best,some allocation =>
        (manager.occupyChunk best allocation length pitch).map fun (manager,c) =>
          (.ok,manager,some c) := by
    simp only [SurfaceManager.allocate,h.not_suspended,h.workaround,if_neg havail,hhead]
    rfl
  cases allocation with
  | none =>
    obtain ⟨r,hr,hnone⟩ := @bestFree_look _ manager.memory _ [] length l _ h.length_le h.represents
    rw [hstart,Option.isNone_none,hr]
    cases r with
    | none => exact ⟨_,_,_,l,rfl,.noVideoMemory (hnone.mp rfl),h⟩
    | some b =>
      refine ⟨_,_,_,l,rfl,.look ?_,h⟩
      by_contra hno
      push Not at hno
      simpa using hnone.mpr hno
  | some allocation =>
    obtain ⟨r,hr,hbest⟩ := @bestFree_best _ manager.memory _ [] length l _ h.length_le none
      h.represents (by simp [Best])
    rw [hstart,Option.isNone_some,hr]
    cases r with
    | none => exact ⟨_,_,_,l,rfl,.noVideoMemory hbest,h⟩
    | some b =>
      obtain ⟨d,hd,hfits,hmin⟩ := hbest
      obtain ⟨pre,post,rfl⟩ := List.append_of_mem hd
      obtain ⟨man,q,l',hman,hheap,hmem⟩ := h.occupy hpos hfits (hnew allocation rfl) pitch
      refine ⟨_,_,_,l',by simp only [Option.bind_some,hman]; rfl, .placed hd hfits hmin hmem,?_⟩
      simpa [liveAfter] using hheap

/-- Freeing a free chunk changes nothing. -/
theorem Heap.deallocate (h : Heap L manager live l) {p : ℕ} {n : Node (Chunk α)}
    (hp : manager.memory p = some n) :
    ∃ man l', manager.deallocate p = some (.ok,man) ∧ Heap L man (match n.data.allocation with
        | none => live
        | some allocation => update live allocation.object none) l' := by
  obtain ⟨pre,post,rfl⟩ := h.represents.exists_split hp
  cases ha : n.data.allocation with
  | none =>
    have hbuffer : n.data.buffer = none := by
      simpa [ha] using h.owned (p,n.data) (by simp)
    exact ⟨manager,_,by simp [deallocate,freeChunk,hp,hbuffer],h⟩
  | some allocation =>
    obtain ⟨man,q,l',hman,hheap⟩ := h.free ha
    exact ⟨man,l',by simp [deallocate,hman],hheap⟩

end Heap

structure State (α : Type*) where
  manager : SurfaceManager α
  live : α → Option ℤ

inductive Event (α : Type*)
  | allocate (allocation : Option (CoreSurfaceAllocation α)) (length pitch : ℤ)
  | deallocate (c : ℕ)

section Runs

variable [DecidableEq α]

def step (L : ℤ) (s : State α) : Event α → Option (State α)
  | .allocate allocation length pitch =>
    (s.manager.allocate L allocation length pitch).map fun (r,manager,_) =>
      ⟨manager,liveAfter allocation length r s.live⟩
  | .deallocate c =>
    (s.manager.memory c).bind fun chunk => (s.manager.deallocate c).map fun (_,manager) =>
      ⟨manager,match chunk.data.allocation with
        | none => s.live
        | some allocation => update s.live allocation.object none⟩

def Allows (s : State α) : Event α → Prop
  | .allocate allocation length _ => 0 < length ∧ ∀ a ∈ allocation, s.live a.object = none
  | .deallocate _ => True

end Runs

end SurfaceManager
end DirectFB
