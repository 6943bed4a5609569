import DirectFB.Memory
import DirectFB.Reaches
import DirectFB.VoodooTypes

/-! The receiving part of `io_loop`. Bytes are read up to a limit, packets are looked for in
what has been read, and those that are complete are dispatched. -/
namespace DirectFB
namespace VoodooInput
open Memory Voodoo Transition

/-- `VOODOO_CONNECTION_LINK_INPUT_BUF_MAX`. -/
def inputBufMax : ℕ := packetMax+packetHeaderSize

def inputBufferSize : ℕ := inputBufMax+packetMax+packetHeaderSize

/-- Where the thread is: at the top of its loop, looking at the header at `last`, or
dispatching the packet at `input.start`. -/
inductive Phase
  | top
  | look (last : ℕ)
  | dispatch
  deriving DecidableEq

/-- The fields of `input`, and what is kept of the past: the packets that were dispatched,
all bytes that were received, and if some were stored behind the buffer. -/
structure Input where
  buffer : Mem
  start : ℕ
  last : ℕ
  stop : ℕ
  max : ℕ
  tmp : Mem
  phase : Phase
  closed : Bool
  overrun : Bool
  dispatched : List (List UInt8)
  received : List UInt8

section Header

variable (b : Mem) (p : ℕ)

/-- The field `size` of the header at `p`. -/
def size : UInt32 := load32 b p

def flags : UInt32 := load32 b (p+4)

def uncompressed : UInt32 := load32 b (p+8)

/-- `VOODOO_MSG_ALIGN( header->size )`. -/
def aligned : ℕ := (msgAlign (size b p)).toNat

/-- `VPHF_COMPRESSED` is set. -/
def Compressed : Prop := flags b p &&& 1 ≠ 0

def Bad : Prop :=
  (uncompressed b p).toNat < messageHeaderSize ∨ packetMax < (uncompressed b p).toNat

instance : Decidable (Compressed b p) := inferInstanceAs (Decidable (_ ≠ _))

instance : Decidable (Bad b p) := inferInstanceAs (Decidable (_ ∨ _))

def next : ℕ := p+(packetHeaderSize+aligned b p)

def taken : ℕ := if Compressed b p then (size b p).toNat else (uncompressed b p).toNat

end Header

def reset (s : Input) : Input :=
  if s.start = s.max then {s with
    start := 0
    stop := 0
    last := 0
    max := inputBufMax}
  else s

/-- What `SendReceive` stores, up to the limit. -/
def receive (s : Input) (data : List UInt8) : Option Input :=
  let s := reset s
  if s.stop+data.length ≤ s.max then
    some (if data = [] then s else {s with
      buffer := write s.buffer s.stop data
      stop := s.stop+data.length
      phase := .look s.last
      overrun := s.overrun || inputBufferSize < s.stop+data.length
      received := s.received++data})
  else none

/-- What follows the search, with `last` where it ended. -/
def searched (s : Input) (last : ℕ) : Input :=
  if last ≠ s.last then {s with
    last := last
    phase := .dispatch}
  else {s with phase := .top}

/-- One round of the search for packets. -/
def look (s : Input) (last : ℕ) : Input :=
  if packetHeaderSize ≤ s.stop-last ∧ Bad s.buffer last then {s with closed := true}
  else if s.stop-last < packetHeaderSize+aligned s.buffer last then
    searched (if s.max-last < packetHeaderSize+aligned s.buffer last then
      {s with max := next s.buffer last}
    else s) last
  else if next s.buffer last < s.stop then {s with phase := .look (next s.buffer last)}
  else searched s (next s.buffer last)

/-- `direct_fastlz_decompress`, for bytes and a maximal length. -/
abbrev Decompress := List UInt8 → ℕ → List UInt8

/-- One round of the loop that dispatches packets. -/
def dispatch (decompress : Decompress) (s : Input) : Input :=
  let length := (uncompressed s.buffer s.start).toNat
  let content := bytes s.buffer (s.start+packetHeaderSize) (taken s.buffer s.start)
  let tmp := if Compressed s.buffer s.start then write s.tmp 0 (decompress content length) else s.tmp
  let payload := if Compressed s.buffer s.start then bytes tmp 0 length else content
  {s with
    tmp := tmp
    dispatched := s.dispatched++[payload]
    start := next s.buffer s.start
    phase := if next s.buffer s.start < s.last then .dispatch else .top}

inductive Event
  | receive (data : List UInt8)
  | run

def step (decompress : Decompress) (s : Input) : Event → Option Input
  | .receive data => if s.closed = false ∧ s.phase = .top then receive s data else none
  | .run =>
    if s.closed then none
    else match s.phase with
      | .top => none
      | .look last => some (look s last)
      | .dispatch => some (dispatch decompress s)

structure Created (s : Input) : Prop where
  start : s.start = 0
  last : s.last = 0
  stop : s.stop = 0
  max : s.max = inputBufMax
  phase : s.phase = .top
  closed : s.closed = false
  overrun : s.overrun = false
  dispatched : s.dispatched = []
  received : s.received = []

/-- The bytes of the buffer that decide over a cursor or the limit, or are copied or
decompressed, in the step that comes next. -/
def used (s : Input) : List (ℕ × ℕ) :=
  match s.phase with
  | .top => []
  | .look last =>
    if packetHeaderSize ≤ s.stop-last ∧ Bad s.buffer last then []
    else if s.stop-last < packetHeaderSize+aligned s.buffer last ∧
        packetHeaderSize+aligned s.buffer last ≤ s.max-last then []
    else [(last,last+4)]
  | .dispatch => [(s.start,s.start+packetHeaderSize),
      (s.start+packetHeaderSize,s.start+packetHeaderSize+taken s.buffer s.start)]

def Meets (s : Input) : Event → Prop
  | .receive _ => True
  | .run =>
    match s.phase with
    | .top => True
    | .look last => ¬(packetHeaderSize ≤ s.stop-last ∧ Bad s.buffer last) →
        s.max-last < packetHeaderSize+aligned s.buffer last →
        last+4 ≤ s.stop ∧ next s.buffer last ≤ inputBufferSize
    | .dispatch => taken s.buffer s.start ≤ aligned s.buffer s.start

def Boundary (b : Mem) : ℕ → ℕ → Prop := Relation.ReflTransGen fun p q => q = next b p

def IsPacket (packet : List UInt8) : Prop :=
  packet.length = packetHeaderSize+aligned (ofList packet) 0

structure Ordered (s : Input) : Prop where
  start : s.start ≤ s.last
  last : s.last ≤ s.stop
  stop : s.stop ≤ s.max
  max : s.max ≤ inputBufferSize

def AtBoundary (s : Input) : Prop :=
  ∃ packets : List (List UInt8), (∀ packet ∈ packets, IsPacket packet) ∧
    packets.length = s.dispatched.length ∧
    s.received = packets.flatten++bytes s.buffer s.start (s.stop-s.start)

def InPhase (s : Input) : Prop :=
  match s.phase with
  | .top => s.start = s.last
  | .look last => s.start = s.last ∧ Boundary s.buffer s.last last ∧ last < s.stop
  | .dispatch => s.start < s.last ∧ Boundary s.buffer s.start s.last

structure Inv (s : Input) : Prop where
  ordered : Ordered s
  phase : InPhase s
  boundary : AtBoundary s
  overrun : s.overrun = false

section Steps

variable {decompress : Decompress} {s u : Input} {p q : ℕ} {data : List UInt8}

theorem lt_next (b : Mem) (p : ℕ) : p < next b p := by
  have : 0 < packetHeaderSize := by decide
  rw [next]
  omega

theorem Boundary.le {b : Mem} (h : Boundary b p q) : p ≤ q := by
  induction h with
  | refl => exact le_rfl
  | tail _ hnext ih => exact ih.trans (hnext ▸ (lt_next b _).le)

theorem Boundary.first {b : Mem} (h : Boundary b p q) (hlt : p < q) :
    next b p ≤ q ∧ Boundary b (next b p) q := by
  obtain rfl | ⟨c,rfl,hrest⟩ := Relation.ReflTransGen.cases_head h
  · exact absurd hlt (lt_irrefl _)
  · exact ⟨Boundary.le hrest,hrest⟩

theorem Boundary.extend {b : Mem} (h : Boundary b p q) : Boundary b p (next b q) :=
  Relation.ReflTransGen.tail h rfl

theorem reset_cases (s : Input) : (s.start = s.max ∧ reset s = {s with
      start := 0
      stop := 0
      last := 0
      max := inputBufMax}) ∨ (s.start ≠ s.max ∧ reset s = s) := by
  by_cases h : s.start = s.max
  · exact .inl ⟨h,if_pos h⟩
  · exact .inr ⟨h,if_neg h⟩

/-- Nothing happens that the invariant is about when the buffer is used again. -/
theorem Inv.reset (h : Inv s) (htop : s.phase = .top) :
    Inv (reset s) ∧ (VoodooInput.reset s).phase = .top := by
  obtain ⟨hmax,hs⟩ | ⟨-,hs⟩ := reset_cases s
  · rw [hs]
    have hordered := h.ordered
    have hempty : s.stop-s.start = 0 := by
      have := hordered.stop
      omega
    obtain ⟨packets,hpackets,hlength,hreceived⟩ := h.boundary
    refine ⟨⟨⟨le_rfl,le_rfl,Nat.zero_le _,(by decide : inputBufMax ≤ inputBufferSize)⟩,?_,⟨packets,hpackets,hlength,?_⟩,h.overrun⟩,
      htop⟩
    · simp only [InPhase,htop]
    · simp only
      rw [hreceived,hempty]
      rfl
  · rw [hs]
    exact ⟨h,htop⟩

theorem receive_cases (h : receive s data = some u) :
    (reset s).stop+data.length ≤ (reset s).max ∧ ((data = [] ∧ u = reset s) ∨ (data ≠ [] ∧
      u = {reset s with
        buffer := write (reset s).buffer (reset s).stop data
        stop := (reset s).stop+data.length
        phase := .look (reset s).last
        overrun := (reset s).overrun || inputBufferSize < (reset s).stop+data.length
        received := (reset s).received++data})) := by
  simp only [receive] at h
  split_ifs at h with hle hnil
  · exact ⟨hle,.inl ⟨hnil,(Option.some.inj h).symm⟩⟩
  · exact ⟨hle,.inr ⟨hnil,(Option.some.inj h).symm⟩⟩

theorem bytes_received (b : Mem) (h : p ≤ q) : bytes (write b q data) p (q+data.length-p) =
    bytes b p (q-p)++data := by
  rw [show q+data.length-p = q-p+data.length by omega,bytes_add,show p+(q-p) = q by omega,
    bytes_write,bytes_write_disjoint _ (by omega)]

theorem Inv.receive (h : Inv s) (htop : s.phase = .top) (hs : receive s data = some u) : Inv u := by
  obtain ⟨hinv,hphase⟩ := h.reset htop
  obtain ⟨hle,⟨-,rfl⟩ | ⟨hne,rfl⟩⟩ := receive_cases hs
  · exact hinv
  have hordered := hinv.ordered
  have hstart := hordered.start
  have hlast := hordered.last
  have hmax := hordered.max
  have hsame : (VoodooInput.reset s).start = (VoodooInput.reset s).last := by
    have := hinv.phase
    simpa only [InPhase,hphase] using this
  obtain ⟨packets,hpackets,hlength,hreceived⟩ := hinv.boundary
  refine ⟨⟨hstart,hlast.trans (Nat.le_add_right _ _),hle,hmax⟩,⟨hsame,.refl,?_⟩,
    ⟨packets,hpackets,hlength,?_⟩,?_⟩
  · have := List.length_pos_of_ne_nil hne
    simp only
    omega
  · simp only
    rw [hreceived,bytes_received _ (hstart.trans hlast),List.append_assoc]
  · have := hinv.overrun
    simp only [this,Bool.false_or,decide_eq_false_iff_not]
    omega

/-- All that one round of the search can do. -/
theorem look_cases (s : Input) (p : ℕ) :
    ((packetHeaderSize ≤ s.stop-p ∧ Bad s.buffer p) ∧ look s p = {s with closed := true}) ∨
    (¬(packetHeaderSize ≤ s.stop-p ∧ Bad s.buffer p) ∧
      s.stop-p < packetHeaderSize+aligned s.buffer p ∧
      ((s.max-p < packetHeaderSize+aligned s.buffer p ∧
        look s p = searched {s with max := next s.buffer p} p) ∨
      (packetHeaderSize+aligned s.buffer p ≤ s.max-p ∧ look s p = searched s p))) ∨
    (¬(packetHeaderSize ≤ s.stop-p ∧ Bad s.buffer p) ∧
      packetHeaderSize+aligned s.buffer p ≤ s.stop-p ∧
      ((next s.buffer p < s.stop ∧ look s p = {s with phase := .look (next s.buffer p)}) ∨
      (s.stop ≤ next s.buffer p ∧ look s p = searched s (next s.buffer p)))) := by
  rw [look]
  by_cases hbad : packetHeaderSize ≤ s.stop-p ∧ Bad s.buffer p
  · exact .inl ⟨hbad,if_pos hbad⟩
  rw [if_neg hbad]
  by_cases hpart : s.stop-p < packetHeaderSize+aligned s.buffer p
  · rw [if_pos hpart]
    by_cases hmax : s.max-p < packetHeaderSize+aligned s.buffer p
    · rw [if_pos hmax]
      exact .inr (.inl ⟨hbad,hpart,.inl ⟨hmax,rfl⟩⟩)
    · rw [if_neg hmax]
      exact .inr (.inl ⟨hbad,hpart,.inr ⟨not_lt.mp hmax,rfl⟩⟩)
  · rw [if_neg hpart]
    by_cases hnext : next s.buffer p < s.stop
    · exact .inr (.inr ⟨hbad,not_lt.mp hpart,.inl ⟨hnext,if_pos hnext⟩⟩)
    · exact .inr (.inr ⟨hbad,not_lt.mp hpart,.inr ⟨not_lt.mp hnext,if_neg hnext⟩⟩)

theorem searched_cases (s : Input) (p : ℕ) :
    (p = s.last ∧ searched s p = {s with phase := .top}) ∨ (p ≠ s.last ∧ searched s p = {s with
      last := p
      phase := .dispatch}) := by
  by_cases h : p = s.last
  · exact .inl ⟨h,if_neg (not_not.mpr h)⟩
  · exact .inr ⟨h,if_pos h⟩

/-- The search may end at any boundary that has been reached. -/
theorem Inv.searched (hordered : Ordered s) (hstart : s.start = s.last)
    (hboundary : Boundary s.buffer s.last p) (hp : p ≤ s.stop) (hat : AtBoundary s)
    (hoverrun : s.overrun = false) : Inv (searched s p) := by
  obtain ⟨-,hs⟩ | ⟨hne,hs⟩ := searched_cases s p
  · rw [hs]
    exact ⟨⟨hordered.start,hordered.last,hordered.stop,hordered.max⟩,hstart,hat,hoverrun⟩
  · rw [hs]
    have hle := hboundary.le
    refine ⟨⟨?_,hp,hordered.stop,hordered.max⟩,⟨?_,?_⟩,hat,hoverrun⟩
    · exact hstart.trans_le hle
    · exact hstart.trans_lt (lt_of_le_of_ne hle hne.symm)
    · rw [hstart]
      exact hboundary

theorem Inv.look (h : Inv s) (hphase : s.phase = .look p) (hok : Meets s .run) :
    Inv (look s p) := by
  have hordered := h.ordered
  have hsearch := h.phase
  rw [InPhase,hphase] at hsearch
  obtain ⟨hstart,hboundary,hp⟩ := hsearch
  have hnext : next s.buffer p = p+(packetHeaderSize+aligned s.buffer p) := rfl
  simp only [Meets,hphase] at hok
  obtain ⟨-,hs⟩ | ⟨hgood,hpart,⟨hmax,hs⟩ | ⟨hmax,hs⟩⟩ | ⟨hgood,hwhole,⟨hlt,hs⟩ | ⟨hge,hs⟩⟩ :=
    look_cases s p
  · rw [hs]
    refine ⟨⟨hordered.start,hordered.last,hordered.stop,hordered.max⟩,?_,h.boundary,h.overrun⟩
    simp only [InPhase,hphase]
    exact ⟨hstart,hboundary,hp⟩
  · rw [hs]
    obtain ⟨-,hfits⟩ := hok hgood hmax
    exact .searched ⟨hordered.start,hordered.last,by simp only; omega,hfits⟩ hstart hboundary
      hp.le h.boundary h.overrun
  · rw [hs]
    exact .searched hordered hstart hboundary hp.le h.boundary h.overrun
  · rw [hs]
    exact ⟨⟨hordered.start,hordered.last,hordered.stop,hordered.max⟩,
      ⟨hstart,hboundary.extend,hlt⟩,h.boundary,h.overrun⟩
  · rw [hs]
    exact .searched hordered hstart hboundary.extend (by omega) h.boundary h.overrun

theorem isPacket_bytes (b : Mem) (p : ℕ) : IsPacket (bytes b p (packetHeaderSize+aligned b p)) := by
  have hsize : aligned (ofList (bytes b p (packetHeaderSize+aligned b p))) 0 = aligned b p := by
    have : packetHeaderSize = 16 := rfl
    rw [aligned,aligned,size,size]
    refine congrArg (fun v => (msgAlign v).toNat) ?_
    simp only [load32,ofList]
    rw [getD_bytes b p (by omega),getD_bytes b p (by omega),getD_bytes b p (by omega),
      getD_bytes b p (by omega)]
    rfl
  rw [IsPacket,length_bytes,hsize]

theorem Inv.dispatch (h : Inv s) (hphase : s.phase = .dispatch) : Inv (dispatch decompress s) := by
  have hordered := h.ordered
  have hlast := hordered.last
  have hdispatch := h.phase
  rw [InPhase,hphase] at hdispatch
  obtain ⟨hlt,hboundary⟩ := hdispatch
  obtain ⟨hle,hrest⟩ := hboundary.first hlt
  have hnext : next s.buffer s.start = s.start+(packetHeaderSize+aligned s.buffer s.start) := rfl
  obtain ⟨packets,hpackets,hlength,hreceived⟩ := h.boundary
  refine ⟨⟨hle,hlast,hordered.stop,hordered.max⟩,?_,⟨packets++[bytes s.buffer s.start
    (packetHeaderSize+aligned s.buffer s.start)],?_,?_,?_⟩,h.overrun⟩
  · simp only [InPhase,VoodooInput.dispatch]
    split_ifs with hmore
    · exact ⟨hmore,hrest⟩
    · exact le_antisymm hle (not_lt.mp hmore)
  · intro packet hpacket
    obtain hpacket | hpacket := List.mem_append.mp hpacket
    · exact hpackets packet hpacket
    · rw [List.mem_singleton.mp hpacket]
      exact isPacket_bytes s.buffer s.start
  · simp only [VoodooInput.dispatch,List.length_append,hlength,List.length_singleton]
  · simp only [VoodooInput.dispatch]
    rw [hreceived,show s.stop-s.start = packetHeaderSize+aligned s.buffer s.start+
      (s.stop-next s.buffer s.start) by omega,bytes_add,← hnext]
    simp

theorem Inv.step {e : Event} (h : Inv s) (hok : Meets s e) (hs : step decompress s e = some u) :
    Inv u := by
  cases e with
  | receive data =>
    simp only [VoodooInput.step] at hs
    split_ifs at hs with htop
    exact h.receive htop.2 hs
  | run =>
    simp only [VoodooInput.step] at hs
    split_ifs at hs
    cases hphase : s.phase with
    | top => simp [hphase] at hs
    | look last =>
      rw [hphase] at hs
      obtain rfl := Option.some.inj hs
      exact h.look hphase hok
    | dispatch =>
      rw [hphase] at hs
      obtain rfl := Option.some.inj hs
      exact h.dispatch hphase

theorem Inv.created (h : Created s) : Inv s := by
  refine ⟨⟨?_,?_,?_,?_⟩,?_,⟨[],by simp,?_,?_⟩,h.overrun⟩
  · rw [h.start,h.last]
  · rw [h.last,h.stop]
  · rw [h.stop]
    exact Nat.zero_le _
  · rw [h.max]
    decide
  · simp only [InPhase,h.phase,h.start,h.last]
  · rw [h.dispatched]
  · rw [h.received,h.stop,h.start]
    rfl

theorem Inv.reaches (h : Reaches (VoodooInput.step decompress) Meets Created s) : Inv s :=
  h.invariant Inv (fun _ => Inv.created) fun _ _ _ hinv hok hs => hinv.step hok hs

/-- What decides or is copied has been received. -/
theorem Inv.used (h : Inv s) (hok : Meets s .run) : ∀ r ∈ used s, r.2 ≤ s.stop := by
  have hphase := h.phase
  have hlast := h.ordered.last
  have hheader : packetHeaderSize = 16 := rfl
  simp only [InPhase,Meets] at hphase hok
  intro r hr
  cases hp : s.phase with
  | top => simp [VoodooInput.used,hp] at hr
  | look p =>
    rw [hp] at hphase hok
    simp only [VoodooInput.used,hp] at hr
    split_ifs at hr with hbad hpart
    · cases hr
    · cases hr
    · obtain rfl := List.mem_singleton.mp hr
      by_cases hmax : s.max-p < packetHeaderSize+aligned s.buffer p
      · exact (hok hbad hmax).1
      · simp only
        omega
  | dispatch =>
    rw [hp] at hphase hok
    obtain ⟨hle,-⟩ := hphase.2.first hphase.1
    rw [next] at hle
    simp only [VoodooInput.used,hp,List.mem_cons,List.not_mem_nil,or_false] at hr
    obtain rfl | rfl := hr
    · simp only
      omega
    · simp only
      omega

end Steps

section Runs

def fresh : Input where
  buffer _ := 0
  start := 0
  last := 0
  stop := 0
  max := inputBufMax
  tmp _ := 0
  phase := .top
  closed := false
  overrun := false
  dispatched := []
  received := []

def header (size flags uncompressed : UInt32) : List UInt8 :=
  bytesOf size++bytesOf flags++bytesOf uncompressed++bytesOf 0

end Runs

end VoodooInput

end DirectFB
