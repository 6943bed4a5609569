import DirectFB.VoodooInput

/-! Packets on their way from one peer to the other: queued, framed with a header, sent and
received in pieces, and dispatched. -/
namespace DirectFB
namespace VoodooFraming
open Memory Voodoo Transition VoodooInput

/-- The two coders of fastlz, and `voodoo_config->compression_min`. -/
structure Coder where
  compress : List UInt8 → List UInt8
  decompress : Decompress
  compressionMin : ℕ

def Coder.Lossless (c : Coder) : Prop := ∀ l, c.decompress (c.compress l) l.length = l

/-- A peer that sends, the bytes on their way, and the input of the other peer. The packet in
`output.sending` is represented by the bytes that are yet to be sent. -/
structure System where
  packets : List (List UInt8)
  sending : List UInt8
  wire : List UInt8
  input : Input
  queued : List (List UInt8)

/-- `VoodooPacketHeader`. The last word is never set. -/
def packetHeader (size flags uncompressed align : UInt32) : List UInt8 :=
  bytesOf size++bytesOf flags++bytesOf uncompressed++bytesOf align

/-- `VoodooPacket::Compressed` is asked for, and its result is smaller. -/
def Shrinks (c : Coder) (payload : List UInt8) : Prop :=
  c.compressionMin ≠ 0 ∧ c.compressionMin ≤ payload.length ∧
    (c.compress payload).length < payload.length

instance (c : Coder) (payload : List UInt8) : Decidable (Shrinks c payload) :=
  inferInstanceAs (Decidable (_ ∧ _ ∧ _))

def body (c : Coder) (payload : List UInt8) : List UInt8 :=
  if Shrinks c payload then c.compress payload else payload

/-- `VPHF_COMPRESSED` or not. -/
def frameFlags (c : Coder) (payload : List UInt8) : UInt32 := if Shrinks c payload then 1 else 0

/-- `VOODOO_MSG_ALIGN(packet->size() + sizeof(VoodooPacketHeader))` bytes from the header on. -/
def frame (c : Coder) (payload : List UInt8) (align : UInt32) (pad : List UInt8) : List UInt8 :=
  packetHeader (UInt32.ofNat (body c payload).length) (frameFlags c payload)
    (UInt32.ofNat payload.length) align++body c payload++pad

def Valid (payload : List UInt8) : Prop :=
  payload.length%4 = 0 ∧ messageHeaderSize ≤ payload.length ∧ payload.length ≤ packetMax

instance (payload : List UInt8) : Decidable (Valid payload) :=
  inferInstanceAs (Decidable (_ ∧ _ ∧ _))

inductive Event
  | queue (payload : List UInt8)
  | take (align : UInt32) (pad : List UInt8)
  | send (n : ℕ)
  | receive (n : ℕ)
  | run

/-- A step of a thread that queues a packet, or of the threads in `io_loop` on either side.
What follows a packet that is not aligned may be anything. -/
def step (c : Coder) (s : System) : Event → Option System
  | .queue payload =>
    if Valid payload then
      some {s with
        packets := s.packets++[payload]
        queued := s.queued++[payload]}
    else none
  | .take align pad =>
    match s.packets with
    | [] => none
    | payload::packets =>
      if s.sending = [] ∧ (body c payload).length+pad.length = ((body c payload).length+3)/4*4 then
        some {s with
          packets := packets
          sending := frame c payload align pad}
      else none
  | .send n =>
    if 0 < n ∧ n ≤ s.sending.length then
      some {s with
        sending := s.sending.drop n
        wire := s.wire++s.sending.take n}
    else none
  | .receive n =>
    if n ≤ s.wire.length then
      (VoodooInput.step c.decompress s.input (.receive (s.wire.take n))).map fun input =>
        {s with
          wire := s.wire.drop n
          input := input}
    else none
  | .run => (VoodooInput.step c.decompress s.input .run).map fun input => {s with input := input}

structure Initial (s : System) : Prop where
  packets : s.packets = []
  sending : s.sending = []
  wire : s.wire = []
  input : Created s.input
  queued : s.queued = []

def Timely (s : System) : Event → Prop
  | .run => ∀ p, s.input.phase = .look p → s.input.stop < p+4 →
      packetHeaderSize+aligned s.input.buffer p ≤ s.input.max-p
  | _ => True

structure IsFrame (decompress : Decompress) (payload raw : List UInt8) : Prop where
  valid : messageHeaderSize ≤ payload.length ∧ payload.length ≤ packetMax
  shape : ∃ size flags align content pad, raw = packetHeader size flags
      (UInt32.ofNat payload.length) align++content++pad ∧ content.length = size.toNat ∧
    raw.length = packetHeaderSize+(msgAlign size).toNat ∧ size.toNat ≤ packetMax ∧
    if flags &&& 1 ≠ 0 then decompress content payload.length = payload else content = payload

section Frames

variable {c : Coder} {decompress : Decompress} {payload raw rest more : List UInt8} {b : Mem}
  {p n : ℕ}

theorem length_body_le (c : Coder) (payload : List UInt8) :
    (body c payload).length ≤ payload.length := by
  rw [body]
  split_ifs with h
  · exact h.2.2.le
  · exact le_rfl

theorem frame_isFrame (hc : c.Lossless) (hvalid : Valid payload) (align : UInt32) {pad : List UInt8}
    (hpad : (body c payload).length+pad.length = ((body c payload).length+3)/4*4) :
    IsFrame c.decompress payload (frame c payload align pad) := by
  obtain ⟨-,hmin,hmax⟩ := hvalid
  have hbody := length_body_le c payload
  have hpacket : packetMax = 17408 := rfl
  have hsize : (UInt32.ofNat (body c payload).length).toNat = (body c payload).length :=
    Nat.mod_eq_of_lt (by omega)
  refine ⟨⟨hmin,hmax⟩,_,_,align,body c payload,pad,rfl,hsize.symm,?_,by omega,?_⟩
  · rw [msgAlign_eq (by omega),hsize,← hpad]
    simp only [frame,packetHeader,List.length_append,length_bytesOf,packetHeaderSize]
    omega
  · rw [frameFlags,body]
    split_ifs with hshrinks hflag hflag
    · exact hc payload
    · exact absurd (by decide) hflag
    · exact absurd hflag (by decide)
    · rfl

@[simp] theorem length_packetHeader (size flags uncompressed align : UInt32) :
    (packetHeader size flags uncompressed align).length = packetHeaderSize := rfl

theorem load32_of_append {l : List UInt8} {v : UInt32} (h : bytes b p n++more = l++bytesOf v++rest)
    (hn : l.length+4 ≤ n) : load32 b (p+l.length) = v :=
  load32_of_bytes (bytes_of_append h hn)

theorem IsFrame.length_eq (h : IsFrame decompress payload raw) (hb : bytes b p n++more = raw++rest)
    (hn : 4 ≤ n) : raw.length = packetHeaderSize+aligned b p := by
  obtain ⟨size,flags,align,content,pad,rfl,-,hlength,-,-⟩ := h.shape
  have hsize : VoodooInput.size b p = size := load32_of_append (l := [])
    (hb.trans (by simp only [packetHeader,List.append_assoc,List.nil_append]; rfl)) hn
  rw [hlength,aligned,hsize]

theorem IsFrame.good (h : IsFrame decompress payload raw) (hb : bytes b p n++more = raw++rest)
    (hn : packetHeaderSize ≤ n) : ¬Bad b p ∧ (uncompressed b p).toNat = payload.length := by
  obtain ⟨size,flags,align,content,pad,rfl,-,-,-,-⟩ := h.shape
  have hpacket : packetMax = 17408 := rfl
  have hheader : packetHeaderSize = 16 := rfl
  obtain ⟨hmin,hmax⟩ := h.valid
  have hword : uncompressed b p = UInt32.ofNat payload.length :=
    load32_of_append (l := bytesOf size++bytesOf flags)
      (hb.trans (by simp only [packetHeader,List.append_assoc]; rfl))
      (by simp only [List.length_append,length_bytesOf]; omega)
  have hlength : (uncompressed b p).toNat = payload.length := by
    rw [hword]
    exact Nat.mod_eq_of_lt (by omega)
  refine ⟨?_,hlength⟩
  rw [Bad,hlength]
  omega

/-- A frame that has arrived gives the payload, and takes no more than its size. -/
theorem IsFrame.dispatch {s : Input} (h : IsFrame decompress payload raw)
    (hb : bytes s.buffer s.start n++more = raw++rest) (hn : raw.length ≤ n) :
    (dispatch decompress s).dispatched = s.dispatched++[payload] ∧
    taken s.buffer s.start ≤ aligned s.buffer s.start := by
  have hheader : packetHeaderSize = 16 := rfl
  obtain ⟨size,flags,align,content,pad,hraw,hcontent,hlength,hmax,hcode⟩ := h.shape
  have haligned : raw.length = packetHeaderSize+aligned s.buffer s.start :=
    h.length_eq hb (by omega)
  have hunc := (h.good hb (by omega)).2
  have hsize : VoodooInput.size s.buffer s.start = size := load32_of_append (l := [])
    (hb.trans (by rw [hraw]; simp only [packetHeader,List.append_assoc,List.nil_append]; rfl))
    (by simp only [List.length_nil]; omega)
  have hflags : VoodooInput.flags s.buffer s.start = flags := load32_of_append (l := bytesOf size)
    (hb.trans (by rw [hraw]; simp only [packetHeader,List.append_assoc]; rfl))
    (by simp only [length_bytesOf]; omega)
  have hlengths : raw.length = packetHeaderSize+content.length+pad.length := by
    rw [hraw]
    simp only [List.length_append,length_packetHeader]
  have hshape : bytes s.buffer s.start n++more = packetHeader size flags
      (UInt32.ofNat payload.length) align++content++(pad++rest) := by
    rw [hb,hraw,List.append_assoc]
  have hbytes : bytes s.buffer (s.start+packetHeaderSize) content.length = content :=
    bytes_of_append hshape (by rw [length_packetHeader]; omega)
  by_cases hcompressed : flags &&& 1 ≠ 0
  · rw [if_pos hcompressed] at hcode
    have hset : Compressed s.buffer s.start := by rwa [Compressed,hflags]
    have htaken : taken s.buffer s.start = content.length := by
      rw [taken,if_pos hset,hsize,hcontent]
    refine ⟨?_,by omega⟩
    simp only [VoodooInput.dispatch,if_pos hset,htaken,hbytes,hunc,hcode]
    rw [bytes_write]
  · rw [if_neg hcompressed] at hcode
    have hset : ¬Compressed s.buffer s.start := by rwa [Compressed,hflags]
    have htaken : taken s.buffer s.start = content.length := by
      rw [taken,if_neg hset,hunc,hcode]
    refine ⟨?_,by omega⟩
    simp only [VoodooInput.dispatch,if_neg hset,htaken,hbytes]
    rw [hcode]

end Frames

def position (s : Input) : ℕ :=
  match s.phase with
  | .look p => p
  | _ => s.last

def raws (frames : List (List UInt8 × List UInt8)) : List UInt8 := (frames.map Prod.snd).flatten

/-- The frames that are on their way: those that are looked at and complete, and the others. -/
structure Framed (decompress : Decompress) (s : System)
    (scanned rest : List (List UInt8 × List UInt8)) : Prop where
  frames : ∀ f ∈ scanned++rest, IsFrame decompress f.1 f.2
  queued : s.queued = s.input.dispatched++(scanned++rest).map Prod.fst++s.packets
  contents : bytes s.input.buffer s.input.start (s.input.stop-s.input.start)++(s.wire++s.sending) =
    raws (scanned++rest)
  looked : position s.input = s.input.start+(raws scanned).length
  opened : s.input.closed = false
  multiple : (position s.input)%4 = 0 ∧ s.input.max%4 = 0
  limit : s.input.max = inputBufMax ∨ position s.input = s.input.max ∨
    (position s.input < inputBufMax ∧ ∃ f frames, rest = f::frames ∧
      s.input.max = position s.input+f.2.length)
  waiting : (∀ p, s.input.phase ≠ .look p) → ∀ f frames, rest = f::frames →
    s.input.stop-position s.input < f.2.length ∧
    (4 ≤ s.input.stop-position s.input → position s.input+f.2.length ≤ s.input.max)

section Invariant

variable {c : Coder} {decompress : Decompress} {s u : System}
  {scanned rest frames : List (List UInt8 × List UInt8)} {f : List UInt8 × List UInt8}

theorem raws_append : raws (frames++rest) = raws frames++raws rest := by
  rw [raws,List.map_append,List.flatten_append]
  rfl

theorem raws_cons : raws (f::rest) = f.2++raws rest := rfl

theorem IsFrame.le_length {payload raw : List UInt8} (h : IsFrame decompress payload raw) :
    packetHeaderSize ≤ raw.length ∧ raw.length%4 = 0 ∧
    raw.length ≤ packetHeaderSize+packetMax := by
  obtain ⟨size,flags,align,content,pad,-,-,hlength,hmax,-⟩ := h.shape
  have hpacket : packetMax = 17408 := rfl
  have hheader : packetHeaderSize = 16 := rfl
  have halign := msgAlign_eq (i := size) (by omega)
  omega

theorem position_bounds {s : Input} (h : Inv s) : s.start ≤ position s ∧ position s ≤ s.stop := by
  have hordered := h.ordered
  have hstart := hordered.start
  have hphase := h.phase
  rw [InPhase] at hphase
  rw [position]
  cases hp : s.phase with
  | look p =>
    rw [hp] at hphase
    have hle := hphase.2.1.le
    exact ⟨hstart.trans hle,hphase.2.2.le⟩
  | top => exact ⟨hstart,hordered.last⟩
  | dispatch => exact ⟨hstart,hordered.last⟩

/-- What is in the buffer are the frames looked at, and the beginning of the others. -/
theorem Framed.split (h : Framed decompress s scanned rest) (hinv : Inv s.input) :
    bytes s.input.buffer (position s.input) (s.input.stop-position s.input)++
      (s.wire++s.sending) = raws rest := by
  obtain ⟨hstart,hstop⟩ := position_bounds hinv
  have hbytes := h.contents
  have hposition := h.looked
  rw [raws_append,show s.input.stop-s.input.start = (raws scanned).length+
    (s.input.stop-position s.input) by omega,bytes_add,List.append_assoc,
    show s.input.start+(raws scanned).length = position s.input from hposition.symm] at hbytes
  exact (List.append_inj hbytes (length_bytes _ _ _)).2

theorem Framed.exists_frame (h : Framed decompress s scanned rest) (hinv : Inv s.input)
    (hlt : position s.input < s.input.stop) : ∃ f frames, rest = f::frames := by
  refine List.exists_cons_of_ne_nil ?_
  rintro rfl
  have hlength := congrArg List.length (h.split hinv)
  simp only [List.length_append,length_bytes,raws,List.map_nil,List.flatten_nil,
    List.length_nil] at hlength
  omega

theorem Framed.scanned_eq_nil (h : Framed decompress s scanned rest)
    (hposition : position s.input = s.input.start) : scanned = [] := by
  have hlength := h.looked
  cases scanned with
  | nil => rfl
  | cons f frames =>
    have hf := (h.frames f (by simp)).le_length.1
    have hheader : packetHeaderSize = 16 := rfl
    rw [raws_cons,List.length_append] at hlength
    omega

theorem Framed.reset (h : Framed decompress s scanned rest) (hinv : Inv s.input)
    (htop : s.input.phase = .top) :
    Framed decompress {s with input := VoodooInput.reset s.input} scanned rest := by
  obtain ⟨hmax,hs⟩ | ⟨-,hs⟩ := reset_cases s.input
  · have hordered := hinv.ordered
    have hstart := hordered.start
    have hlast := hordered.last
    have hstop := hordered.stop
    have hposition : position s.input = s.input.last := by rw [position,htop]
    obtain rfl := h.scanned_eq_nil (by omega)
    have hempty : s.input.stop-s.input.start = 0 := by omega
    have hbytes := h.contents
    rw [hempty] at hbytes
    have hzero : position (VoodooInput.reset s.input) = 0 := by
      rw [hs]
      simp only [position,htop]
    refine ⟨h.frames,?_,?_,?_,?_,?_,?_,fun _ f frames hf => ?_⟩
    · simp only [hs]
      exact h.queued
    · simp only [hs]
      exact hbytes
    · rw [hzero,hs]
      rfl
    · simp only [hs]
      exact h.opened
    · rw [hzero,hs]
      exact ⟨rfl,(by decide : inputBufMax%4 = 0)⟩
    · rw [hs]
      exact .inl rfl
    · have hlength := (h.frames f (by rw [hf]; simp)).le_length.1
      have hheader : packetHeaderSize = 16 := rfl
      rw [hzero,hs]
      simp only
      omega
  · rw [hs]
    exact h

theorem Framed.receive (h : Framed decompress s scanned rest) (hinv : Inv s.input) {n : ℕ}
    (htop : s.input.phase = .top) {input : Input}
    (hs : VoodooInput.receive s.input (s.wire.take n) = some input) :
    Framed decompress {s with
      wire := s.wire.drop n
      input := input} scanned rest := by
  have hreset := h.reset hinv htop
  obtain ⟨hinv',hphase⟩ := hinv.reset htop
  obtain ⟨-,⟨hnil,rfl⟩ | ⟨hne,rfl⟩⟩ := receive_cases hs
  · have hzero : s.wire.drop n = s.wire := by
      have := List.take_append_drop n s.wire
      rwa [hnil,List.nil_append] at this
    simp only [hzero]
    exact hreset
  · have hordered := hinv'.ordered
    have hposition : position (VoodooInput.reset s.input) = (VoodooInput.reset s.input).last := by
      rw [position,hphase]
    refine ⟨hreset.frames,hreset.queued,?_,?_,hreset.opened,?_,?_,?_⟩
    · simp only
      rw [bytes_received _ (hordered.start.trans hordered.last),List.append_assoc,
        ← List.append_assoc (s.wire.take n),List.take_append_drop]
      exact hreset.contents
    · have := hreset.looked
      rw [hposition] at this
      exact this
    · have := hreset.multiple
      rw [hposition] at this
      exact this
    · have := hreset.limit
      rw [hposition] at this
      exact this
    · exact fun hlook => absurd rfl (hlook _)

theorem Framed.searched {i : Input} {p : ℕ}
    (h : Framed decompress {s with input := {i with phase := .look p}} scanned rest)
    (hwaiting : ∀ f frames, rest = f::frames →
      i.stop-p < f.2.length ∧ (4 ≤ i.stop-p → p+f.2.length ≤ i.max)) :
    Framed decompress {s with input := VoodooInput.searched i p} scanned rest := by
  obtain ⟨hp,hs⟩ | ⟨-,hs⟩ := searched_cases i p
  · rw [hs]
    have hposition : position {i with phase := .top} = p := hp.symm
    refine ⟨h.frames,h.queued,h.contents,?_,h.opened,?_,?_,fun _ => ?_⟩
    all_goals simp only [hposition]
    · exact h.looked
    · exact h.multiple
    · exact h.limit
    · exact hwaiting
  · rw [hs]
    exact ⟨h.frames,h.queued,h.contents,h.looked,h.opened,h.multiple,h.limit,fun _ => hwaiting⟩

theorem Framed.look {p : ℕ} (h : Framed decompress s scanned rest) (hinv : Inv s.input)
    (hphase : s.input.phase = .look p) (htimely : Timely s .run) :
    Meets s.input .run ∧ ∃ scanned rest,
      Framed decompress {s with input := VoodooInput.look s.input p} scanned rest := by
  have hp : position s.input = p := by rw [position,hphase]
  have hlt : p < s.input.stop := by
    have hsearch := hinv.phase
    rw [InPhase,hphase] at hsearch
    exact hsearch.2.2
  have hmax := hinv.ordered.stop
  obtain ⟨f,frames,rfl⟩ := h.exists_frame hinv (hp ▸ hlt)
  have hf := h.frames f (by simp)
  obtain ⟨hmin,hfour,hlong⟩ := hf.le_length
  have hsplit := h.split hinv
  rw [hp,raws_cons] at hsplit
  have hlength : 4 ≤ s.input.stop-p → f.2.length = packetHeaderSize+aligned s.input.buffer p :=
    hf.length_eq hsplit
  have hgood : packetHeaderSize ≤ s.input.stop-p → ¬Bad s.input.buffer p :=
    fun hn => (hf.good hsplit hn).1
  have hmultiple := h.multiple
  have hlooked := h.looked
  have hlimit := h.limit
  have hstale := htimely p hphase
  have hheader : packetHeaderSize = 16 := rfl
  have hpacket : packetMax = 17408 := rfl
  have hbuf : inputBufMax = 17424 := rfl
  have hsize : inputBufferSize = 34848 := rfl
  have hnext : next s.input.buffer p = p+(packetHeaderSize+aligned s.input.buffer p) := rfl
  rw [hp] at hmultiple hlooked hlimit
  have hnow : s.input.max = inputBufMax ∨ p < inputBufMax ∧ s.input.max = p+f.2.length := by
    obtain hlimit | hlimit | ⟨hbelow,g,gs,hg,hlimit⟩ := hlimit
    · exact .inl hlimit
    · omega
    · obtain ⟨rfl,-⟩ := List.cons.inj hg
      exact .inr ⟨hbelow,hlimit⟩
  have hsame : Framed decompress {s with input := {s.input with phase := .look p}} scanned
      (f::frames) := ⟨h.frames,h.queued,h.contents,hlooked,h.opened,hmultiple,hlimit,
    fun hlook => absurd rfl (hlook p)⟩
  clear hlimit
  refine ⟨?_,?_⟩
  · simp only [Meets,hphase]
    intro _ hraise
    omega
  obtain ⟨⟨hn,hbad⟩,-⟩ | ⟨-,hpart,⟨hraise,hs⟩ | ⟨hfits,hs⟩⟩ | ⟨-,hwhole,hs⟩ :=
    look_cases s.input p
  · exact absurd hbad (hgood hn)
  · rw [hs]
    have hlen := hlength (by omega)
    have hraised : next s.input.buffer p = p+f.2.length := by omega
    refine ⟨scanned,f::frames,Framed.searched ⟨h.frames,h.queued,h.contents,hlooked,h.opened,
      ⟨hmultiple.1,?_⟩,.inr (.inr ⟨?_,f,frames,rfl,hraised⟩),fun hlook => absurd rfl (hlook p)⟩
      fun g gs hg => ?_⟩
    · simp only
      omega
    · simp only [position]
      omega
    · obtain ⟨rfl,-⟩ := List.cons.inj hg
      simp only
      omega
  · rw [hs]
    refine ⟨scanned,f::frames,hsame.searched fun g gs hg => ?_⟩
    obtain ⟨rfl,-⟩ := List.cons.inj hg
    omega
  · have hlen := hlength (by omega)
    have hraws : (raws (scanned++[f])).length = (raws scanned).length+f.2.length := by
      rw [raws_append,List.length_append,raws_cons,List.length_append]
      rfl
    have happend : scanned++f::frames = scanned++[f]++frames := by simp
    have hlooking : Framed decompress
        {s with input := {s.input with phase := .look (next s.input.buffer p)}} (scanned++[f])
        frames := by
      have hframes := h.frames
      have hqueued := h.queued
      have hcontents := h.contents
      rw [happend] at hframes hqueued hcontents
      refine ⟨hframes,hqueued,hcontents,?_,h.opened,⟨?_,hmultiple.2⟩,?_,
        fun hlook => absurd rfl (hlook _)⟩
      · simp only [position]
        omega
      · simp only [position]
        omega
      · simp only [position]
        omega
    obtain ⟨hmore,hs⟩ | ⟨hend,hs⟩ := hs
    · rw [hs]
      exact ⟨_,_,hlooking⟩
    · rw [hs]
      refine ⟨_,_,hlooking.searched fun g gs hg => ?_⟩
      have hg' := (h.frames g (by rw [hg]; simp)).le_length
      omega

theorem Framed.dispatch (h : Framed decompress s scanned rest) (hinv : Inv s.input)
    (hphase : s.input.phase = .dispatch) :
    Meets s.input .run ∧ ∃ scanned, Framed decompress
      {s with input := VoodooInput.dispatch decompress s.input} scanned rest := by
  have hp : position s.input = s.input.last := by rw [position,hphase]
  have hdispatch := hinv.phase
  rw [InPhase,hphase] at hdispatch
  have hlooked := h.looked
  have hstop := hinv.ordered.last
  cases scanned with
  | nil =>
    rw [hp,raws] at hlooked
    simp only [List.map_nil,List.flatten_nil,List.length_nil] at hlooked
    omega
  | cons f frames =>
    have hf := h.frames f (by simp)
    have hcontents := h.contents
    rw [hp,raws_cons,List.length_append] at hlooked
    rw [List.cons_append,raws_cons] at hcontents
    obtain ⟨hdispatched,htaken⟩ := hf.dispatch hcontents (by omega)
    have hheader : packetHeaderSize = 16 := rfl
    have hlength := hf.length_eq hcontents (by have := hf.le_length; omega)
    have hnext : (VoodooInput.dispatch decompress s.input).start = s.input.start+f.2.length := by
      rw [hlength]
      rfl
    have hposition : position (VoodooInput.dispatch decompress s.input) = s.input.last := by
      simp only [position,VoodooInput.dispatch]
      split_ifs <;> rfl
    refine ⟨?_,frames,fun g hg => h.frames g (List.mem_cons_of_mem f hg),?_,?_,?_,h.opened,?_,?_,
      fun _ => ?_⟩
    · simp only [Meets,hphase]
      exact htaken
    · have hqueued := h.queued
      rw [List.cons_append,List.map_cons] at hqueued
      simp only [hdispatched]
      rw [hqueued]
      simp
    · simp only [hnext]
      have hle : s.input.stop-s.input.start = f.2.length+
        (s.input.stop-(s.input.start+f.2.length)) := by omega
      rw [hle,bytes_add,List.append_assoc] at hcontents
      exact (List.append_inj hcontents (length_bytes _ _ _)).2
    · rw [hposition,hnext]
      omega
    · rw [hposition,← hp]
      exact h.multiple
    · rw [hposition,← hp]
      exact h.limit
    · rw [hposition,← hp]
      exact h.waiting (by simp [hphase])

def Sound (c : Coder) (s : System) : Prop :=
  Inv s.input ∧ (∀ payload ∈ s.packets, Valid payload) ∧
    ∃ scanned rest, Framed c.decompress s scanned rest

theorem Framed.take (h : Framed decompress s scanned rest) (hinv : Inv s.input)
    {payload raw : List UInt8} {packets : List (List UInt8)} (hpackets : s.packets = payload::packets)
    (hsending : s.sending = []) (hraw : IsFrame decompress payload raw) :
    Framed decompress {s with
      packets := packets
      sending := raw} scanned (rest++[(payload,raw)]) := by
  have hheader : packetHeaderSize = 16 := rfl
  refine ⟨?_,?_,?_,h.looked,h.opened,h.multiple,?_,?_⟩
  · intro f hf
    rw [← List.append_assoc] at hf
    obtain hf | hf := List.mem_append.mp hf
    · exact h.frames f hf
    · rw [List.mem_singleton.mp hf]
      exact hraw
  · rw [h.queued,hpackets]
    simp
  · have hcontents := h.contents
    rw [hsending,List.append_nil] at hcontents
    rw [← List.append_assoc,← List.append_assoc,raws_append,hcontents]
    simp [raws]
  · obtain hlimit | hlimit | ⟨hbelow,f,frames,rfl,hlimit⟩ := h.limit
    · exact .inl hlimit
    · exact .inr (.inl hlimit)
    · exact .inr (.inr ⟨hbelow,f,frames++[(payload,raw)],rfl,hlimit⟩)
  · intro hlook f frames hf
    cases rest with
    | cons g gs =>
      obtain ⟨rfl,-⟩ := List.cons.inj hf
      exact h.waiting hlook g gs rfl
    | nil =>
      obtain ⟨rfl,-⟩ := List.cons.inj hf
      have hempty := congrArg List.length (h.split hinv)
      simp only [List.length_append,length_bytes,raws,List.map_nil,List.flatten_nil,
        List.length_nil] at hempty
      have hlength := hraw.le_length
      simp only
      omega

theorem Sound.step {e : Event} (hc : c.Lossless) (h : Sound c s) (hok : Timely s e)
    (hs : step c s e = some u) : Sound c u := by
  obtain ⟨hinv,hvalid,scanned,rest,hframed⟩ := h
  cases e with
  | queue payload =>
    simp only [VoodooFraming.step] at hs
    split_ifs at hs with hpayload
    obtain rfl := Option.some.inj hs
    refine ⟨hinv,fun p hp => ?_,scanned,rest,⟨hframed.frames,?_,hframed.contents,hframed.looked,
      hframed.opened,hframed.multiple,hframed.limit,hframed.waiting⟩⟩
    · obtain hp | hp := List.mem_append.mp hp
      · exact hvalid p hp
      · exact List.mem_singleton.mp hp ▸ hpayload
    · simp only
      rw [hframed.queued,List.append_assoc]
  | take align pad =>
    simp only [VoodooFraming.step] at hs
    cases hpackets : s.packets with
    | nil => simp [hpackets] at hs
    | cons payload packets =>
      simp only [hpackets] at hs
      split_ifs at hs with hpad
      obtain rfl := Option.some.inj hs
      rw [hpackets] at hvalid
      have hpayload := hvalid payload (List.mem_cons_self ..)
      exact ⟨hinv,fun p hp => hvalid p (List.mem_cons_of_mem _ hp),scanned,_,
        hframed.take hinv hpackets hpad.1 (frame_isFrame hc hpayload align hpad.2)⟩
  | send n =>
    simp only [VoodooFraming.step] at hs
    split_ifs at hs
    obtain rfl := Option.some.inj hs
    refine ⟨hinv,hvalid,scanned,rest,⟨hframed.frames,hframed.queued,?_,hframed.looked,
      hframed.opened,hframed.multiple,hframed.limit,hframed.waiting⟩⟩
    simp only
    rw [List.append_assoc s.wire,List.take_append_drop]
    exact hframed.contents
  | receive n =>
    simp only [VoodooFraming.step] at hs
    split_ifs at hs with hn
    obtain ⟨input,hinput,rfl⟩ := Option.map_eq_some_iff.mp hs
    simp only [VoodooInput.step] at hinput
    split_ifs at hinput with htop
    exact ⟨hinv.receive htop.2 hinput,hvalid,scanned,rest,hframed.receive hinv htop.2 hinput⟩
  | run =>
    obtain ⟨input,hinput,rfl⟩ := Option.map_eq_some_iff.mp hs
    have hstep := hinput
    simp only [VoodooInput.step,hframed.opened,Bool.false_eq_true,if_false] at hinput
    cases hphase : s.input.phase with
    | top => simp [hphase] at hinput
    | look p =>
      rw [hphase] at hinput
      obtain rfl := Option.some.inj hinput
      obtain ⟨hmeets,scanned,rest,hlook⟩ := hframed.look hinv hphase hok
      exact ⟨hinv.step hmeets hstep,hvalid,scanned,rest,hlook⟩
    | dispatch =>
      rw [hphase] at hinput
      obtain rfl := Option.some.inj hinput
      obtain ⟨hmeets,scanned,hdispatch⟩ := hframed.dispatch hinv hphase
      exact ⟨hinv.step hmeets hstep,hvalid,scanned,rest,hdispatch⟩

theorem Sound.initial (h : Initial s) : Sound c s := by
  have hinput := h.input
  have hposition : position s.input = 0 := by
    rw [position,hinput.phase]
    exact hinput.last
  refine ⟨Inv.created hinput,fun p hp => ?_,[],[],⟨by simp,?_,?_,?_,hinput.closed,?_,
    .inl hinput.max,by simp⟩⟩
  · rw [h.packets] at hp
    cases hp
  · rw [h.queued,hinput.dispatched,h.packets]
    rfl
  · rw [h.wire,h.sending,hinput.stop,hinput.start]
    rfl
  · rw [hposition,hinput.start]
    rfl
  · rw [hposition,hinput.max]
    exact ⟨rfl,by decide⟩

theorem Sound.reaches (hc : c.Lossless) (h : Reaches (VoodooFraming.step c) Timely Initial s) :
    Sound c s :=
  h.invariant (Sound c) (fun _ => Sound.initial) fun _ _ _ hsound hok hs => hsound.step hc hok hs

end Invariant

section Progress

variable {decompress : Decompress} {s : System}
  {scanned rest : List (List UInt8 × List UInt8)}

def work (s : Input) : ℕ :=
  match s.phase with
  | .top => 0
  | .look p => s.stop-s.start+1+(s.stop-p)
  | .dispatch => s.last-s.start

/-- With something on its way, the thread has room to read. -/
theorem Framed.room (h : Framed decompress s scanned rest) (hinv : Inv s.input)
    (htop : s.input.phase = .top) (hwire : s.wire ≠ []) :
    (VoodooInput.reset s.input).stop < (VoodooInput.reset s.input).max := by
  obtain ⟨-,hs⟩ | ⟨hne,hs⟩ := reset_cases s.input
  · rw [hs]
    exact (by decide : 0 < inputBufMax)
  · rw [hs]
    have hp : position s.input = s.input.last := by rw [position,htop]
    have hstart : s.input.start = s.input.last := by
      have := hinv.phase
      rwa [InPhase,htop] at this
    have hlast := hinv.ordered.last
    have hstop := hinv.ordered.stop
    have hmultiple := h.multiple
    have hrest : rest ≠ [] := by
      rintro rfl
      have hempty := congrArg List.length (h.split hinv)
      simp only [List.length_append,raws,List.map_nil,List.flatten_nil,List.length_nil] at hempty
      have := List.length_pos_of_ne_nil hwire
      omega
    obtain ⟨f,frames,hf⟩ := List.exists_cons_of_ne_nil hrest
    obtain ⟨hpart,hfits⟩ := h.waiting (by simp [htop]) f frames hf
    rw [hp] at hpart hfits hmultiple
    refine lt_of_le_of_ne hstop fun hfull => ?_
    by_cases hfour : 4 ≤ s.input.stop-s.input.last
    · have := hfits hfour
      omega
    · omega

/-- With nothing on its way, everything has been dispatched. -/
theorem Framed.done (h : Framed decompress s scanned rest) (hinv : Inv s.input)
    (htop : s.input.phase = .top) (hpackets : s.packets = []) (hsending : s.sending = [])
    (hwire : s.wire = []) : s.input.dispatched = s.queued := by
  have hp : position s.input = s.input.last := by rw [position,htop]
  have hstart : s.input.start = s.input.last := by
    have := hinv.phase
    rwa [InPhase,htop] at this
  obtain rfl := h.scanned_eq_nil (by rw [hp,hstart])
  have hrest : rest = [] := by
    by_contra hne
    obtain ⟨f,frames,rfl⟩ := List.exists_cons_of_ne_nil hne
    have hpart := (h.waiting (by simp [htop]) f frames rfl).1
    have hlength := congrArg List.length (h.split hinv)
    rw [hwire,hsending,raws_cons] at hlength
    simp only [List.length_append,length_bytes,List.length_nil] at hlength
    omega
  rw [h.queued,hrest,hpackets]
  simp

/-- Each step that the thread makes on its own brings it nearer to the top of its loop. -/
theorem Framed.work_lt (h : Framed decompress s scanned rest) (hinv : Inv s.input)
    (hphase : s.input.phase ≠ .top) :
    ∃ input, VoodooInput.step decompress s.input .run = some input ∧ work input < work s.input := by
  have hsearch := hinv.phase
  rw [InPhase] at hsearch
  simp only [VoodooInput.step,h.opened,Bool.false_eq_true,if_false]
  cases hp : s.input.phase with
  | top => exact absurd hp hphase
  | look p =>
    rw [hp] at hsearch
    obtain ⟨hstart,hboundary,hlt⟩ := hsearch
    have hle := hboundary.le
    refine ⟨_,rfl,?_⟩
    have hposition : position s.input = p := by rw [position,hp]
    obtain ⟨f,frames,rfl⟩ := h.exists_frame hinv (hposition ▸ hlt)
    have hsplit := h.split hinv
    rw [hposition,raws_cons] at hsplit
    have hsearched : ∀ i q, i.start = s.input.start → q ≤ s.input.stop →
        work (VoodooInput.searched i q) < work s.input := by
      intro i q hi hq
      rw [work,work,hp]
      obtain ⟨-,hs⟩ | ⟨-,hs⟩ := searched_cases i q <;> rw [hs] <;> simp only <;> omega
    have hnext := lt_next s.input.buffer p
    obtain ⟨⟨hn,hbad⟩,-⟩ | ⟨-,-,⟨-,hs⟩ | ⟨-,hs⟩⟩ | ⟨-,hwhole,⟨hmore,hs⟩ | ⟨-,hs⟩⟩ :=
      look_cases s.input p
    · exact absurd hbad ((h.frames f (by simp)).good hsplit hn).1
    · rw [hs]
      exact hsearched _ p rfl hlt.le
    · rw [hs]
      exact hsearched _ p rfl hlt.le
    · rw [hs,work,work,hp]
      simp only
      omega
    · rw [hs]
      refine hsearched _ _ rfl ?_
      rw [next]
      omega
  | dispatch =>
    rw [hp] at hsearch
    obtain ⟨hle,-⟩ := hsearch.2.first hsearch.1
    have hnext := lt_next s.input.buffer s.input.start
    refine ⟨_,rfl,?_⟩
    rw [work,work,hp]
    simp only [VoodooInput.dispatch]
    split_ifs <;> simp only <;> omega

end Progress

/-- With a lossless coder, and as long as no size of which some bytes are yet to come raises the
limit, what is dispatched is what was queued, in its order and up to some packet, the
connection is not closed, nothing is stored behind the buffer, and the way of the packets goes
on until all that were queued are dispatched. -/
theorem framing_transparent (c : Coder) (hc : c.Lossless) {s : System}
    (h : Reaches (step c) Timely Initial s) :
    s.input.dispatched <+: s.queued ∧ s.input.closed = false ∧ s.input.overrun = false ∧
    (s.input.phase ≠ .top → ∃ u, step c s .run = some u ∧ work u.input < work s.input) ∧
    (s.input.phase = .top → s.wire ≠ [] → ∃ room, 0 < room ∧
      ∀ n, 0 < n → n ≤ s.wire.length → n ≤ room → (step c s (.receive n)).isSome) ∧
    (s.sending ≠ [] → ∀ n, 0 < n → n ≤ s.sending.length → (step c s (.send n)).isSome) ∧
    (s.sending = [] → s.packets ≠ [] → ∃ align pad, (step c s (.take align pad)).isSome) ∧
    (s.packets = [] → s.sending = [] → s.wire = [] → s.input.phase = .top →
      s.input.dispatched = s.queued) := by
  obtain ⟨hinv,-,scanned,rest,hframed⟩ := Sound.reaches hc h
  refine ⟨?_,hframed.opened,hinv.overrun,fun hphase => ?_,fun htop hwire => ?_,
    fun _ n hn hle => ?_,fun hsending hpackets => ?_,fun hpackets hsending hwire htop => ?_⟩
  · rw [hframed.queued,List.append_assoc]
    exact List.prefix_append _ _
  · obtain ⟨input,hinput,hwork⟩ := hframed.work_lt hinv hphase
    exact ⟨{s with input := input},by simp [step,hinput],hwork⟩
  · have hroom := hframed.room hinv htop hwire
    refine ⟨(reset s.input).max-(reset s.input).stop,by omega,fun n _ hn hle => ?_⟩
    have hfits : (reset s.input).stop+n ≤ (reset s.input).max := by omega
    simp [step,hn,VoodooInput.step,hframed.opened,htop,receive,hfits]
  · simp [step,hn,hle]
  · obtain ⟨payload,packets,hcons⟩ := List.exists_cons_of_ne_nil hpackets
    refine ⟨0,List.replicate (((body c payload).length+3)/4*4-(body c payload).length) 0,?_⟩
    simp only [step,hcons,hsending,List.length_replicate,true_and]
    rw [if_pos (by omega)]
    rfl
  · exact hframed.done hinv htop hpackets hsending hwire

section Runs

def literal : Coder where
  compress l := UInt8.ofNat (l.length-1)::l
  decompress l _ := l.tail
  compressionMin := 1

theorem literal_lossless : literal.Lossless := fun _ => rfl

def idle (b : UInt8) : System where
  packets := []
  sending := []
  wire := []
  input := {fresh with buffer := fun _ => b}
  queued := []

theorem idle_initial (b : UInt8) : Initial (idle b) :=
  ⟨rfl,rfl,rfl,⟨rfl,rfl,rfl,rfl,rfl,rfl,rfl,rfl,rfl⟩,rfl⟩

def short : List UInt8 := [1,2,3,4,5,6,7,8,9,10,11,12]

/-- A packet that is received in two pieces. -/
theorem short_packet_dispatched : ∃ s, Reaches (step literal) Timely Initial s ∧
    s.queued = [short] ∧ s.input.dispatched = s.queued ∧ s.input.closed = false := by
  obtain ⟨s,hs,hqueued,hpackets,hsending,hwire,htop⟩ : ∃ s, Reaches (step literal) Timely Initial s ∧
      s.queued = [short] ∧ s.packets = [] ∧ s.sending = [] ∧ s.wire = [] ∧
      s.input.phase = .top := by
    refine ⟨_,.step .run (.step .run (.step (.receive 22) (.step .run (.step (.receive 6)
      (.step (.send 28) (.step (.take 0 []) (.step (.queue short) (.init (idle_initial 255))
      trivial rfl) trivial rfl) trivial rfl) trivial rfl) ?_ rfl) trivial rfl) ?_ rfl) ?_ rfl,
      rfl,rfl,rfl,rfl,rfl⟩
    · rintro p ⟨⟩ hlt
      exact absurd hlt (by decide)
    · rintro p ⟨⟩ hlt
      exact absurd hlt (by decide)
    · rintro p ⟨⟩
  have hframing := framing_transparent literal literal_lossless hs
  exact ⟨s,hs,hqueued,hframing.2.2.2.2.2.2.2 hpackets hsending hwire htop,hframing.2.1⟩

def long : List UInt8 := List.replicate packetMax 0

theorem long_valid : Valid long := by
  rw [Valid,long,List.length_replicate]
  decide

theorem body_literal {payload : List UInt8} : body literal payload = payload := by
  have hlong : ¬Shrinks literal payload := fun h => absurd h.2.2 (by simp [literal])
  rw [body,if_neg hlong]

/-- The long packet is queued, taken and sent at once. -/
theorem send_long {s : System} (h : Reaches (step literal) (fun _ _ => True) Initial s)
    (hpackets : s.packets = []) (hsending : s.sending = []) :
    ∃ u, Reaches (step literal) (fun _ _ => True) Initial u ∧ u.packets = [] ∧ u.sending = [] ∧
      u.input = s.input ∧ u.wire.length = s.wire.length+17424 := by
  have hlong : long.length = 17408 := List.length_replicate ..
  have hframe : (frame literal long 0 []).length = 17424 := by
    rw [frame,body_literal]
    simp [hlong,packetHeaderSize]
  have hqueue := Reaches.step (.queue long) h trivial (by rw [step,if_pos long_valid])
  have htake := Reaches.step (.take 0 []) hqueue trivial (by
    simp only [step,hpackets,hsending,body_literal,hlong,List.nil_append]
    rfl)
  have hsend := Reaches.step (.send 17424) htake trivial (by
    simp only [step,hframe]
    rfl)
  refine ⟨_,hsend,rfl,?_,rfl,?_⟩
  · simp [hframe]
  · simp [hframe]

/-- Only one byte of a header has arrived, and the limit is raised far beyond the buffer. What
is sent next is stored there. -/
theorem stale_size_overruns : ∃ s, Reaches (step literal) (fun _ _ => True) Initial s ∧
    s.input.overrun = true := by
  obtain ⟨s,hs,hpackets,hsending,hwire,htop,hclosed,hstop,hmax⟩ : ∃ s,
      exec (step literal) (idle 255)
        [.queue short,.take 0 [],.send 1,.receive 1,.run,.send 27] = some s ∧
      s.packets = [] ∧ s.sending = [] ∧ s.wire.length = 27 ∧ s.input.phase = .top ∧
      s.input.closed = false ∧ (reset s.input).stop = 1 ∧ 100000 < (reset s.input).max :=
    ⟨_,rfl,rfl,rfl,rfl,rfl,rfl,by decide,by decide⟩
  have hstart : Reaches (step literal) (fun _ _ => True) Initial (idle 255) :=
    .init (idle_initial 255)
  obtain ⟨t,ht,htp,hts,hti,htw⟩ := send_long (hstart.exec (fun _ _ => trivial) hs) hpackets hsending
  obtain ⟨u,hu,-,-,hui,huw⟩ := send_long ht htp hts
  have hlength : u.wire.length = 34875 := by omega
  have hinput : u.input = s.input := hui.trans hti
  have hsize : inputBufferSize = 34848 := rfl
  have hne : u.wire.take 34875 ≠ [] := by
    rw [List.ne_nil_iff_length_pos,List.length_take]
    omega
  have hreceive := Reaches.step (.receive 34875) hu trivial (by
    simp only [step,hlength,hinput,VoodooInput.step,hclosed,htop,receive,List.length_take,hstop]
    rw [if_pos le_rfl,if_pos ⟨trivial,trivial⟩,if_pos (by omega),if_neg hne]
    rfl)
  refine ⟨_,hreceive,?_⟩
  simp [hsize]

end Runs

end VoodooFraming

end DirectFB
