import DirectFB.VoodooFraming

/-! Output of a connection: threads collect messages in packets of their own and flush them,
and the thread in `io_loop` sends the packets one after the other. -/
namespace DirectFB
namespace VoodooOutput
open Memory Voodoo Transition VoodooFraming

abbrev Message := List UInt8

/-- A packet with the header that is sent before its data. What is kept of the past are the
messages that it has been filled with since the last reset. -/
structure Packet where
  sending : Bool
  data : Mem
  current : ℕ
  size : ℕ
  flags : UInt32
  uncompressed : ℕ
  align : UInt32
  messages : List Message

/-- `VOODOO_MSG_ALIGN`, of a `size_t`. -/
def aligned (length : ℕ) : ℕ := (length+3)/4*4

/-- `VOODOO_CONNECTION_PACKET_NUM_OUTPUT`. -/
def numOutput : ℕ := 2

namespace Packet

/-- `VoodooPacket::New`, of a size, at an address where anything may have been. -/
def new (p : Packet) (size : ℕ) : Packet :=
  {p with
    sending := false
    current := 0
    size := size
    flags := 0
    uncompressed := size
    messages := []}

def append (p : Packet) (size : ℕ) : Option Packet :=
  if p.size+size > packetMax then none
  else some {p with
    current := p.size
    size := p.size+size
    uncompressed := p.uncompressed+size}

def reset (p : Packet) (size : ℕ) : Packet :=
  {p with
    current := 0
    size := size
    uncompressed := size
    messages := []}

/-- The caller of `GetPacket` writes its message at `data_raw()`. -/
def fill (p : Packet) (m : Message) : Packet :=
  {p with
    data := write p.data p.current m
    messages := p.messages++[m]}

def payload (p : Packet) : List UInt8 := bytes p.data 0 p.uncompressed

/-- The result of `VoodooPacket::Compressed` where it is smaller, in new memory. -/
def compressed (c : Coder) (p : Packet) (align : UInt32) (fresh : Mem) : Packet where
  sending := true
  data := write fresh 0 (c.compress p.payload)
  current := 0
  size := (c.compress p.payload).length
  flags := 1
  uncompressed := p.uncompressed
  align := align
  messages := p.messages

/-- The bytes from `data_header()` on that are sent. -/
def raw (p : Packet) : List UInt8 :=
  packetHeader (UInt32.ofNat p.size) p.flags (UInt32.ofNat p.uncompressed) p.align++
    bytes p.data 0 (aligned (p.size+packetHeaderSize)-packetHeaderSize)

end Packet

/-- Where a thread is: outside, in `GetPacket` before it reads the flag of the packet from
`Get`, in its wait for the flag, about to reset, and with a message to be written or put. -/
inductive Pc
  | idle
  | checking (length : ℕ)
  | waiting (length : ℕ)
  | resetting (length : ℕ)
  | filling (length : ℕ)
  | filled

/-- What a thread has in `output.tls`, and where it is. -/
structure Thread where
  pc : Pc
  active : Option ℕ
  num : ℕ
  next : ℕ

/-- `output.sending`: a packet from the list, or a compressed copy of one. -/
inductive Sending (τ : Type*)
  | packet (p : τ × ℕ)
  | copy (t : τ) (q : Packet)

structure Batch (τ : Type*) where
  owner : τ
  raw : List UInt8
  messages : List Message

/-- The threads and their packets, the packets that are linked, and what `io_loop` is sending.
Between `sending = false` and the removal from the list it has `output.lock` and is about to
unlink; all other critical sections are a single step. What is kept of the past are the packets
that were sent and the messages that each thread has written. -/
structure State (τ : Type*) where
  thread : τ → Thread
  packet : τ × ℕ → Packet
  packets : List (τ × ℕ)
  sending : Option (Sending τ)
  sent : List UInt8
  unlinking : Option (τ × ℕ)
  transmitted : List (Batch τ)
  written : τ → List Message

variable {τ : Type*} [DecidableEq τ]

inductive Event (τ : Type*)
  | get (t : τ) (length : ℕ)
  | check (t : τ)
  | wake (t : τ)
  | reset (t : τ)
  | fill (t : τ) (m : Message)
  | put (t : τ) (flush : Bool)
  | take (align : UInt32) (fresh : Mem)
  | transmit (n : ℕ)
  | complete
  | unlink

open Function

def setPc (s : State τ) (t : τ) (pc : Pc) : State τ :=
  {s with thread := update s.thread t {s.thread t with pc := pc}}

/-- `Flush`. -/
def flush (s : State τ) (p : τ × ℕ) : State τ :=
  {s with
    packet := update s.packet p {s.packet p with sending := true}
    packets := s.packets++[p]}

/-- `Packets::Get`, in `GetPacket`. -/
def get (s : State τ) (t : τ) (length : ℕ) : State τ :=
  if (s.thread t).num < numOutput then
    {s with
      packet := update s.packet (t,(s.thread t).num) ((s.packet (t,(s.thread t).num)).new 0)
      thread := update s.thread t {s.thread t with
        pc := .checking length
        active := some (s.thread t).num
        num := (s.thread t).num+1}}
  else
    {s with thread := update s.thread t {s.thread t with
      pc := .checking length
      active := some (s.thread t).next
      next := ((s.thread t).next+1)%numOutput}}

/-- `GetPacket`, up to the check of the packet from `Get`. -/
def getPacket (s : State τ) (t : τ) (length : ℕ) : Option (State τ) :=
  match (s.thread t).active with
  | none => some (get s t length)
  | some i =>
    match (s.packet (t,i)).append (aligned length) with
    | some q => some {setPc s t (.filling length) with packet := update s.packet (t,i) q}
    | none => if s.unlinking = none then some (get (flush s (t,i)) t length) else none

/-- `PutPacket`. -/
def putPacket (s : State τ) (t : τ) (i : ℕ) : State τ :=
  {flush s (t,i) with thread := update s.thread t {s.thread t with
    pc := .idle
    active := none}}

/-- What `output.sending` points to. -/
def pointee (s : State τ) : Sending τ → Packet
  | .packet p => s.packet p
  | .copy _ q => q

def Sending.owner : Sending τ → τ
  | .packet p => p.1
  | .copy t _ => t

/-- The first packet in the list is taken to be sent, or a compressed copy of it. -/
def take (c : Coder) (s : State τ) (p : τ × ℕ) (align : UInt32) (fresh : Mem) : State τ :=
  if Shrinks c (s.packet p).payload then
    {s with
      packet := update s.packet p {s.packet p with sending := false}
      sending := some (.copy p.1 ((s.packet p).compressed c align fresh))
      sent := []
      unlinking := some p}
  else
    {s with
      sending := some (.packet p)
      sent := []}

def complete (s : State τ) (o : Sending τ) : State τ :=
  let s' := {s with
    sending := none
    transmitted := s.transmitted++[⟨o.owner,s.sent,(pointee s o).messages⟩]}
  match o with
  | .packet p => {s' with
    packet := update s.packet p {s.packet p with sending := false}
    unlinking := some p}
  | .copy _ _ => s'

/-- A step of a thread or of `io_loop`. The threads read `sending` without the lock in `check`,
and with it in `wake`. -/
def step (c : Coder) (s : State τ) : Event τ → Option (State τ)
  | .get t length =>
    match (s.thread t).pc with
    | .idle =>
      if messageHeaderSize ≤ length ∧ length ≤ packetMax then getPacket s t length else none
    | _ => none
  | .check t =>
    match (s.thread t).pc, (s.thread t).active with
    | .checking length, some i =>
      some (setPc s t (if (s.packet (t,i)).sending then .waiting length else .resetting length))
    | _, _ => none
  | .wake t =>
    match (s.thread t).pc, (s.thread t).active with
    | .waiting length, some i =>
      if s.unlinking = none ∧ (s.packet (t,i)).sending = false then
        some (setPc s t (.resetting length))
      else none
    | _, _ => none
  | .reset t =>
    match (s.thread t).pc, (s.thread t).active with
    | .resetting length, some i => some {setPc s t (.filling length) with
      packet := update s.packet (t,i) ((s.packet (t,i)).reset (aligned length))}
    | _, _ => none
  | .fill t m =>
    match (s.thread t).pc, (s.thread t).active with
    | .filling length, some i =>
      if m.length = length then
        some {setPc s t .filled with
          packet := update s.packet (t,i) ((s.packet (t,i)).fill m)
          written := update s.written t (s.written t++[m])}
      else none
    | _, _ => none
  | .put t flush =>
    match (s.thread t).pc, (s.thread t).active with
    | .filled, some i =>
      if flush then if s.unlinking = none then some (putPacket s t i) else none
      else some (setPc s t .idle)
    | _, _ => none
  | .take align fresh =>
    match s.unlinking, s.sending, s.packets with
    | none, none, p::_ => some (take c s p align fresh)
    | _, _, _ => none
  | .transmit n =>
    match s.unlinking, s.sending with
    | none, some o =>
      if 0 < n ∧ s.sent.length+n ≤ (pointee s o).raw.length then
        some {s with sent := s.sent++((pointee s o).raw.drop s.sent.length).take n}
      else none
    | _, _ => none
  | .complete =>
    match s.unlinking, s.sending with
    | none, some o =>
      if s.sent.length = (pointee s o).raw.length then some (complete s o) else none
    | _, _ => none
  | .unlink =>
    match s.unlinking with
    | some p => some {s with
      packets := s.packets.erase p
      unlinking := none}
    | none => none

structure Initial (s : State τ) : Prop where
  thread : ∀ t, s.thread t = ⟨.idle,none,0,0⟩
  packets : s.packets = []
  sending : s.sending = none
  unlinking : s.unlinking = none
  transmitted : s.transmitted = []
  written : ∀ t, s.written t = []

/-- Messages as they are laid out in a packet, each with the bytes that align its end. -/
inductive Packed : List UInt8 → List Message → Prop
  | nil : Packed [] []
  | snoc {l : List UInt8} {ms : List Message} {m : Message} {pad : List UInt8} : Packed l ms →
      (m++pad).length = aligned m.length → Packed (l++(m++pad)) (ms++[m])

def IsBatch (c : Coder) (raw : List UInt8) (messages : List Message) : Prop :=
  ∃ payload align pad, raw = frame c payload align pad ∧
    (body c payload).length+pad.length = ((body c payload).length+3)/4*4 ∧
    Valid payload ∧ Packed payload messages

def transmittedOf (s : State τ) (t : τ) : List Message :=
  s.transmitted.flatMap fun b => if b.owner = t then b.messages else []

def sendingOf (s : State τ) (t : τ) : List Message :=
  match s.sending with
  | some o => if o.owner = t then (pointee s o).messages else []
  | none => []

def busy (s : State τ) : List (τ × ℕ) :=
  match s.unlinking, s.sending with
  | some p, _ => [p]
  | none, some (.packet p) => [p]
  | none, _ => []

def queue (s : State τ) : List (τ × ℕ) := s.packets.drop (busy s).length

def messagesOf (s : State τ) (t : τ) (l : List (τ × ℕ)) : List Message :=
  l.flatMap fun p => if p.1 = t then (s.packet p).messages else []

def flushed (s : State τ) (t : τ) : List Message :=
  transmittedOf s t++sendingOf s t++messagesOf s t (queue s)

def Pc.Stale : Pc → Prop
  | .checking _ | .waiting _ | .resetting _ => True
  | _ => False

instance : DecidablePred Pc.Stale := fun pc =>
  match pc with
  | .checking _ | .waiting _ | .resetting _ => isTrue trivial
  | .idle | .filling _ | .filled => isFalse id

def collected (s : State τ) (t : τ) : List Message :=
  match (s.thread t).active with
  | some i => if (s.thread t).pc.Stale then [] else (s.packet (t,i)).messages
  | none => []

structure Ready (q : Packet) : Prop where
  flags : q.flags = 0
  uncompressed : q.uncompressed = q.size
  packed : Packed (bytes q.data 0 q.size) q.messages
  min : messageHeaderSize ≤ q.size
  max : q.size ≤ packetMax

structure Open (q : Packet) (length : ℕ) : Prop where
  flags : q.flags = 0
  uncompressed : q.uncompressed = q.size
  packed : Packed (bytes q.data 0 q.current) q.messages
  size : q.size = q.current+aligned length
  min : messageHeaderSize ≤ length
  max : q.size ≤ packetMax

def Owned (pc : Pc) (q : Packet) : Prop :=
  match pc with
  | .idle | .filled => q.sending = false ∧ Ready q
  | .checking length | .waiting length => messageHeaderSize ≤ length ∧ length ≤ packetMax
  | .resetting length =>
    q.sending = false ∧ messageHeaderSize ≤ length ∧ length ≤ packetMax
  | .filling length => q.sending = false ∧ Open q length

/-- What holds between the threads and `io_loop`. -/
structure Inv (c : Coder) (s : State τ) : Prop where
  next : ∀ t, (s.thread t).next < numOutput
  active : ∀ t i, (s.thread t).active = some i → i < (s.thread t).num
  flags : ∀ t i, i < (s.thread t).num → (s.packet (t,i)).flags = 0
  size : ∀ t i, i < (s.thread t).num → (s.packet (t,i)).size ≤ packetMax
  linked : ∀ p ∈ s.packets, p.2 < (s.thread p.1).num
  shape : s.packets = busy s++queue s
  nodup : s.packets.Nodup
  queued : ∀ p ∈ queue s, (s.packet p).sending ∧ Ready (s.packet p)
  plain : ∀ p, s.sending = some (.packet p) → (s.packet p).sending ∧ Ready (s.packet p) ∧
    ¬Shrinks c (s.packet p).payload
  copy : ∀ t q, s.sending = some (.copy t q) → IsBatch c q.raw q.messages
  unlinking : ∀ p, s.unlinking = some p →
    (s.packet p).sending = false ∧ ∀ q, s.sending ≠ some (.packet q)
  owned : ∀ t i, (s.thread t).active = some i → Owned (s.thread t).pc (s.packet (t,i))
  sent : ∀ o, s.sending = some o → s.sent <+: (pointee s o).raw
  transmitted : ∀ b ∈ s.transmitted, IsBatch c b.raw b.messages
  written : ∀ t, s.written t = flushed s t++collected s t

/-- A state in which all is well, where no flushed message has got lost on the way. -/
structure Advances (c : Coder) (s u : State τ) : Prop where
  inv : Inv c u
  flushed : ∀ t, flushed s t <+: flushed u t

section Packets

variable {c : Coder} {q : Packet} {l : List UInt8} {ms : List Message}

theorem Packed.aligned (h : Packed l ms) : l.length%4 = 0 := by
  induction h with
  | nil => rfl
  | snoc _ hm ih =>
    rw [List.length_append,hm,VoodooOutput.aligned]
    omega

theorem aligned_of_mod {n : ℕ} (h : n%4 = 0) : aligned n = n := by
  rw [aligned]
  omega

theorem le_aligned (n : ℕ) : n ≤ aligned n := by
  rw [aligned]
  omega

theorem Ready.valid (h : Ready q) : Valid q.payload := by
  rw [Valid,Packet.payload,length_bytes,h.uncompressed]
  exact ⟨by simpa using h.packed.aligned,h.min,h.max⟩

theorem Ready.packed_payload (h : Ready q) : Packed q.payload q.messages := by
  rw [Packet.payload,h.uncompressed]
  exact h.packed

theorem Ready.isBatch (h : Ready q) (hc : ¬Shrinks c q.payload) : IsBatch c q.raw q.messages := by
  have hmod : q.size%4 = 0 := by simpa using h.packed.aligned
  have hheader : packetHeaderSize = 16 := rfl
  have hlength : q.payload.length = q.size := by rw [Packet.payload,length_bytes,h.uncompressed]
  have hbody : body c q.payload = q.payload := if_neg hc
  refine ⟨q.payload,q.align,[],?_,?_,h.valid,h.packed_payload⟩
  · rw [Packet.raw,frame,frameFlags,if_neg hc,hbody,hlength,h.flags,h.uncompressed,
      aligned_of_mod (by omega),Nat.add_sub_cancel,List.append_nil,Packet.payload,h.uncompressed]
  · rw [hbody,hlength,List.length_nil]
    omega

theorem Ready.isBatch_compressed (h : Ready q) (hc : Shrinks c q.payload) (align : UInt32)
    (fresh : Mem) :
    IsBatch c (q.compressed c align fresh).raw (q.compressed c align fresh).messages := by
  have hheader : packetHeaderSize = 16 := rfl
  have hlength : q.payload.length = q.size := by rw [Packet.payload,length_bytes,h.uncompressed]
  have hbody : body c q.payload = c.compress q.payload := if_pos hc
  obtain ⟨k,hk⟩ := Nat.exists_eq_add_of_le (le_aligned (c.compress q.payload).length)
  refine ⟨q.payload,align,bytes (q.compressed c align fresh).data
    (c.compress q.payload).length k,?_,?_,h.valid,h.packed_payload⟩
  · have hsize : aligned ((c.compress q.payload).length+packetHeaderSize)-packetHeaderSize =
        (c.compress q.payload).length+k := by
      rw [← hk,aligned,aligned]
      omega
    have hdata : bytes (q.compressed c align fresh).data 0 ((c.compress q.payload).length+k) =
        c.compress q.payload++bytes (q.compressed c align fresh).data
          (c.compress q.payload).length k := by
      rw [bytes_add,Nat.zero_add]
      exact congrArg (·++_) (bytes_write _ _ _)
    rw [Packet.raw,frame,frameFlags,if_pos hc,hbody,hlength]
    simp only [Packet.compressed] at hsize hdata ⊢
    rw [hsize,hdata,h.uncompressed,List.append_assoc]
  · rw [hbody,length_bytes,← hk,aligned]

end Packets

section Frame

variable {c : Coder} {s u : State τ} {t : τ} {p : τ × ℕ}

theorem messagesOf_congr {l : List (τ × ℕ)}
    (h : ∀ p ∈ l, (u.packet p).messages = (s.packet p).messages) :
    messagesOf u t l = messagesOf s t l := by
  rw [messagesOf,messagesOf,List.flatMap_def,List.flatMap_def]
  refine congrArg _ (List.map_congr_left fun p hp => ?_)
  simp only [h p hp]

theorem sendingOf_congr (hs : u.sending = s.sending)
    (h : ∀ o, s.sending = some o → pointee u o = pointee s o) : sendingOf u t = sendingOf s t := by
  rw [sendingOf,sendingOf,hs]
  cases ho : s.sending with
  | none => rfl
  | some o => simp only [h o ho]

omit [DecidableEq τ] in
theorem pointee_congr (h : ∀ p, s.sending = some (.packet p) → u.packet p = s.packet p)
    (o : Sending τ) (ho : s.sending = some o) : pointee u o = pointee s o := by
  cases o with
  | packet p => exact h p ho
  | copy _ _ => rfl

omit [DecidableEq τ] in
theorem collected_congr (ht : u.thread t = s.thread t)
    (hm : ∀ i, (u.packet (t,i)).messages = (s.packet (t,i)).messages) :
    collected u t = collected s t := by
  simp only [collected,ht,hm]

theorem Inv.not_queued (h : Inv c s) (hp : (s.packet p).sending = false) : p ∉ queue s := by
  intro hq
  have := (h.queued p hq).1
  rw [hp] at this
  cases this

theorem Inv.not_plain (h : Inv c s) (hp : (s.packet p).sending = false) :
    s.sending ≠ some (.packet p) := by
  intro hs
  have := (h.plain p hs).1
  rw [hp] at this
  cases this

def changed (s : State τ) (t : τ) (th : Thread) (i : ℕ) (q : Packet) (ms : List Message) :
    State τ :=
  {s with
    thread := update s.thread t th
    packet := update s.packet (t,i) q
    written := update s.written t (s.written t++ms)}

def Private (s : State τ) (p : τ × ℕ) (q : Packet) : Prop :=
  q = s.packet p ∨ p ∉ queue s ∧ s.sending ≠ some (.packet p) ∧ q.sending = false

theorem Private.queued {q : Packet} {x : τ × ℕ} (h : Private s p q) (hx : x ∈ queue s) :
    update s.packet p q x = s.packet x := by
  rcases h with rfl | ⟨hnot,-⟩
  · rw [update_eq_self]
  · exact update_of_ne (fun hxp : x = p => hnot (hxp ▸ hx)) _ _

theorem Private.plain {q : Packet} {x : τ × ℕ} (h : Private s p q)
    (hx : s.sending = some (.packet x)) : update s.packet p q x = s.packet x := by
  rcases h with rfl | ⟨-,hnot,-⟩
  · rw [update_eq_self]
  · exact update_of_ne (fun hxp : x = p => hnot (hxp ▸ hx)) _ _

variable {i n : ℕ}

theorem flushed_changed {th : Thread} {q : Packet} {ms : List Message}
    (h : Private s (t,i) q) (x : τ) : flushed (changed s t th i q ms) x = flushed s x := by
  rw [flushed,flushed]
  exact congrArg₂ _ (congrArg₂ _ rfl (sendingOf_congr rfl (pointee_congr fun _ hp => h.plain hp)))
    (messagesOf_congr fun _ hp => congrArg Packet.messages (h.queued hp))

/-- A step of a thread that leaves alone what others have: its record changes, and the packet
that is now active. -/
theorem Inv.changed (h : Inv c s) (th : Thread) {q : Packet} (ms : List Message)
    (hkeep : Private s (t,i) q) (hnext : th.next < numOutput) (hactive : th.active = some i)
    (hi : i < th.num) (hnum : (s.thread t).num ≤ th.num)
    (hrest : ∀ j, j < th.num → j = i ∨ j < (s.thread t).num)
    (hflags : q.flags = 0) (hsize : q.size ≤ packetMax) (howned : Owned th.pc q)
    (hms : (if th.pc.Stale then [] else q.messages) = collected s t++ms) :
    Advances c s (changed s t th i q ms) := by
  have hother (x) (hx : x ≠ t) (j) : update s.packet (t,i) q (x,j) = s.packet (x,j) :=
    update_of_ne (fun hp => hx (congrArg Prod.fst hp)) _ _
  have hthread (x) (hx : x ≠ t) : update s.thread t th x = s.thread x := update_of_ne hx _ _
  have hpacket (x j) : update s.packet (t,i) q (x,j) = q ∨
      (x,j) ≠ (t,i) ∧ update s.packet (t,i) q (x,j) = s.packet (x,j) := by
    by_cases hx : (x,j) = (t,i)
    · rw [hx]
      exact .inl (update_self _ _ _)
    · exact .inr ⟨hx,update_of_ne hx _ _⟩
  have hold (x j) (hx : (x,j) ≠ (t,i)) (hj : j < (update s.thread t th x).num) :
      j < (s.thread x).num := by
    by_cases hxt : x = t
    · subst hxt
      rw [update_self] at hj
      exact (hrest j hj).resolve_left fun hji => hx (hji ▸ rfl)
    · rwa [hthread x hxt] at hj
  refine ⟨⟨fun x => ?_,fun x j hx => ?_,fun x j hx => ?_,fun x j hx => ?_,fun p hp => ?_,h.shape,
    h.nodup,fun p hp => ?_,fun p hp => ?_,h.copy,fun p hp => ?_,fun x j hx => ?_,fun o ho => ?_,
    h.transmitted,fun x => ?_⟩,fun x => (flushed_changed hkeep x) ▸ List.prefix_rfl⟩
  · by_cases hx : x = t
    · subst hx
      simpa only [VoodooOutput.changed,update_self] using hnext
    · simpa only [VoodooOutput.changed,hthread x hx] using h.next x
  · by_cases hxt : x = t
    · subst hxt
      simp only [VoodooOutput.changed,update_self,hactive,Option.some.injEq] at hx ⊢
      exact hx ▸ hi
    · simp only [VoodooOutput.changed,hthread x hxt] at hx ⊢
      exact h.active x j hx
  · obtain hq | ⟨hne,hq⟩ := hpacket x j <;> simp only [VoodooOutput.changed,hq]
    · exact hflags
    · exact h.flags x j (hold x j hne hx)
  · obtain hq | ⟨hne,hq⟩ := hpacket x j <;> simp only [VoodooOutput.changed,hq]
    · exact hsize
    · exact h.size x j (hold x j hne hx)
  · by_cases hxt : p.1 = t
    · simp only [VoodooOutput.changed,hxt,update_self]
      exact (h.linked p hp).trans_le (hxt ▸ hnum)
    · simp only [VoodooOutput.changed,hthread p.1 hxt]
      exact h.linked p hp
  · simpa only [VoodooOutput.changed,hkeep.queued hp] using h.queued p hp
  · simpa only [VoodooOutput.changed,hkeep.plain hp] using h.plain p hp
  · obtain ⟨hsending,hno⟩ := h.unlinking p hp
    refine ⟨?_,hno⟩
    rcases hkeep with rfl | ⟨-,-,hq⟩
    · simpa only [VoodooOutput.changed,update_eq_self] using hsending
    · obtain hp' | ⟨-,hp'⟩ := hpacket p.1 p.2
      · simpa only [VoodooOutput.changed,hp'] using hq
      · simpa only [VoodooOutput.changed,hp'] using hsending
  · by_cases hxt : x = t
    · subst hxt
      simp only [VoodooOutput.changed,update_self,hactive,Option.some.injEq] at hx ⊢
      subst hx
      simpa only [update_self] using howned
    · simp only [VoodooOutput.changed,hthread x hxt,hother x hxt] at hx ⊢
      exact h.owned x j hx
  · rw [pointee_congr (u := VoodooOutput.changed s t th i q ms) (fun _ hp => hkeep.plain hp) o ho]
    exact h.sent o ho
  · rw [flushed_changed hkeep]
    by_cases hxt : x = t
    · subst hxt
      simp only [VoodooOutput.changed,collected,update_self,hactive]
      rw [hms,h.written x,List.append_assoc]
    · simp only [VoodooOutput.changed,collected,hthread x hxt,hother x hxt,update_of_ne hxt]
      exact h.written x

/-- A step within a call that does not touch the packet. -/
theorem Inv.setPc (h : Inv c s) (hactive : (s.thread t).active = some i) {pc : Pc}
    (howned : Owned pc (s.packet (t,i)))
    (hms : (if pc.Stale then [] else (s.packet (t,i)).messages) = collected s t) :
    Advances c s (setPc s t pc) := by
  have hi := h.active t i hactive
  have hsame : VoodooOutput.setPc s t pc =
      VoodooOutput.changed s t {s.thread t with pc := pc} i (s.packet (t,i)) [] := by
    simp only [VoodooOutput.setPc,VoodooOutput.changed,List.append_nil,update_eq_self]
  rw [hsame]
  exact h.changed _ _ (.inl rfl) (h.next t) hactive hi le_rfl (fun _ hj => .inr hj) (h.flags t i hi)
    (h.size t i hi) howned (by rw [hms,List.append_nil])

/-- A step in which the thread writes to its packet. -/
theorem Inv.write (h : Inv c s) (hactive : (s.thread t).active = some i) (pc : Pc)
    {q : Packet} (ms : List Message) (hfree : (s.packet (t,i)).sending = false)
    (hq : q.sending = false) (hflags : q.flags = 0) (hsize : q.size ≤ packetMax)
    (howned : Owned pc q) (hms : (if pc.Stale then [] else q.messages) = collected s t++ms) :
    Advances c s {VoodooOutput.setPc s t pc with
      packet := update s.packet (t,i) q
      written := update s.written t (s.written t++ms)} :=
  h.changed {s.thread t with pc := pc} ms (.inr ⟨h.not_queued hfree,h.not_plain hfree,hq⟩)
    (h.next t) hactive (h.active t i hactive) le_rfl (fun _ hj => .inr hj) hflags hsize howned hms

omit [DecidableEq τ] in
theorem collected_of_active (hactive : (s.thread t).active = some i) :
    collected s t = if (s.thread t).pc.Stale then [] else (s.packet (t,i)).messages := by
  rw [collected,hactive]

theorem Inv.check (h : Inv c s) (hpc : (s.thread t).pc = .checking n)
    (hactive : (s.thread t).active = some i) :
    Advances c s (VoodooOutput.setPc s t
      (if (s.packet (t,i)).sending then .waiting n else .resetting n)) := by
  have howned := h.owned t i hactive
  rw [hpc] at howned
  have hempty : collected s t = [] := by rw [collected_of_active hactive,hpc]; rfl
  cases hsending : (s.packet (t,i)).sending with
  | true => exact h.setPc hactive howned hempty.symm
  | false => exact h.setPc hactive ⟨hsending,howned⟩ hempty.symm

theorem Inv.wake (h : Inv c s) (hpc : (s.thread t).pc = .waiting n)
    (hactive : (s.thread t).active = some i) (hfree : (s.packet (t,i)).sending = false) :
    Advances c s (VoodooOutput.setPc s t (.resetting n)) := by
  have howned := h.owned t i hactive
  rw [hpc] at howned
  refine h.setPc hactive ⟨hfree,howned⟩ ?_
  rw [collected_of_active hactive,hpc]
  rfl

theorem aligned_le (h : n ≤ packetMax) : aligned n ≤ packetMax := by
  have hmax : packetMax = 17408 := rfl
  rw [aligned]
  omega

theorem Inv.reset (h : Inv c s) (hpc : (s.thread t).pc = .resetting n)
    (hactive : (s.thread t).active = some i) :
    Advances c s {VoodooOutput.setPc s t (.filling n) with
      packet := update s.packet (t,i) ((s.packet (t,i)).reset (aligned n))} := by
  have howned := h.owned t i hactive
  rw [hpc] at howned
  obtain ⟨hfree,hmin,hmax⟩ := howned
  have hflags := h.flags t i (h.active t i hactive)
  have hwrite := h.write (q := (s.packet (t,i)).reset (aligned n)) hactive (.filling n) []
    hfree hfree hflags (aligned_le hmax)
    ⟨hfree,hflags,rfl,.nil,(Nat.zero_add _).symm,hmin,aligned_le hmax⟩
    (by rw [collected_of_active hactive,hpc]; rfl)
  rwa [List.append_nil,update_eq_self] at hwrite

theorem Ready.append {q₀ q : Packet} (h : Ready q₀)
    (hq : q₀.append (aligned n) = some q) (hmin : messageHeaderSize ≤ n) :
    Open q n ∧ q.sending = q₀.sending ∧ q.messages = q₀.messages := by
  rw [Packet.append] at hq
  split_ifs at hq with hroom
  obtain rfl := Option.some.inj hq
  exact ⟨⟨h.flags,congrArg (·+aligned n) h.uncompressed,h.packed,rfl,hmin,not_lt.mp hroom⟩,rfl,rfl⟩

theorem Inv.append (h : Inv c s) (hpc : (s.thread t).pc = .idle)
    (hactive : (s.thread t).active = some i) {q : Packet}
    (hq : (s.packet (t,i)).append (aligned n) = some q) (hmin : messageHeaderSize ≤ n) :
    Advances c s {VoodooOutput.setPc s t (.filling n) with packet := update s.packet (t,i) q} := by
  have howned := h.owned t i hactive
  rw [hpc] at howned
  obtain ⟨hfree,hready⟩ := howned
  obtain ⟨hopen,hsending,hmessages⟩ := hready.append hq hmin
  have hnot := hsending.trans hfree
  have hwrite := h.write hactive (.filling n) [] hfree hnot hopen.flags hopen.max
    ⟨hnot,hopen⟩ (by rw [collected_of_active hactive,hpc,List.append_nil]; exact hmessages)
  rwa [List.append_nil,update_eq_self] at hwrite

theorem Open.fill {q : Packet} {m : Message} (h : Open q m.length) : Ready (q.fill m) := by
  obtain ⟨k,hk⟩ := Nat.exists_eq_add_of_le (le_aligned m.length)
  have hcurrent : bytes (q.fill m).data 0 q.current = bytes q.data 0 q.current :=
    bytes_write_disjoint _ (.inl (Nat.zero_add _).le)
  have hmessage : bytes (q.fill m).data q.current m.length = m := bytes_write _ _ _
  have hsize : (q.fill m).size = q.current+(m.length+k) := by rw [← hk]; exact h.size
  refine ⟨h.flags,h.uncompressed,?_,?_,h.max⟩
  · rw [hsize,bytes_add,bytes_add,hcurrent,Nat.zero_add,hmessage]
    exact .snoc h.packed (by rw [List.length_append,length_bytes,hk])
  · have := h.min
    omega

theorem Inv.fill (h : Inv c s) {m : Message} (hpc : (s.thread t).pc = .filling m.length)
    (hactive : (s.thread t).active = some i) :
    Advances c s {VoodooOutput.setPc s t .filled with
      packet := update s.packet (t,i) ((s.packet (t,i)).fill m)
      written := update s.written t (s.written t++[m])} := by
  have howned := h.owned t i hactive
  rw [hpc] at howned
  obtain ⟨hfree,hopen⟩ := howned
  exact h.write hactive _ _ hfree hfree hopen.flags hopen.max ⟨hfree,hopen.fill⟩
    (by rw [collected_of_active hactive,hpc]; rfl)

theorem Inv.mem_of_busy (h : Inv c s) (hp : p ∈ busy s) : p ∈ s.packets := by
  rw [h.shape]
  exact List.mem_append_left _ hp

omit [DecidableEq τ] in
theorem mem_busy_of_plain (hp : s.sending = some (.packet p)) (hn : s.unlinking = none) :
    p ∈ busy s := by
  rw [busy,hn,hp]
  exact List.mem_singleton_self p

/-- A packet from the ring, or a new one. -/
theorem Inv.get (h : Inv c s) (hactive : (s.thread t).active = none)
    (hmin : messageHeaderSize ≤ n) (hmax : n ≤ packetMax) : Advances c s (get s t n) := by
  have hempty : collected s t = [] := by rw [collected,hactive]
  have hlinked (p : τ × ℕ) (hp : s.sending = some (.packet p)) : p ∈ s.packets := by
    cases hn : s.unlinking with
    | none => exact h.mem_of_busy (mem_busy_of_plain hp hn)
    | some q => exact absurd hp ((h.unlinking q hn).2 p)
  rw [VoodooOutput.get]
  split_ifs with hnum
  · have hnew : (t,(s.thread t).num) ∉ s.packets := fun hp => lt_irrefl _ (h.linked _ hp)
    have hchanged := h.changed (q := (s.packet (t,(s.thread t).num)).new 0) {s.thread t with
        pc := .checking n
        active := some (s.thread t).num
        num := (s.thread t).num+1} []
      (.inr ⟨fun hp => hnew (List.mem_of_mem_drop hp),fun hp => hnew (hlinked _ hp),rfl⟩)
      (h.next t) rfl (Nat.lt_succ_self _) (Nat.le_succ _)
      (fun j hj => (Nat.lt_succ_iff_lt_or_eq.mp hj).symm) rfl (Nat.zero_le _) ⟨hmin,hmax⟩
      (by rw [hempty]; rfl)
    simpa only [VoodooOutput.changed,List.append_nil,update_eq_self] using hchanged
  · have hi := (h.next t).trans_le (not_lt.mp hnum)
    have hchanged := h.changed (q := s.packet (t,(s.thread t).next)) {s.thread t with
        pc := .checking n
        active := some (s.thread t).next
        next := ((s.thread t).next+1)%numOutput} []
      (.inl rfl) (Nat.mod_lt _ (by decide)) rfl hi le_rfl (fun _ hj => .inr hj)
      (h.flags t _ hi) (h.size t _ hi) ⟨hmin,hmax⟩ (by rw [hempty]; rfl)
    simpa only [VoodooOutput.changed,List.append_nil,update_eq_self] using hchanged

theorem Inv.queue_putPacket (h : Inv c s) (i : ℕ) : queue (putPacket s t i) = queue s++[(t,i)] := by
  have hle : (busy s).length ≤ s.packets.length := by
    have hshape := congrArg List.length h.shape
    rw [List.length_append] at hshape
    omega
  exact List.drop_append_of_le_length hle

theorem putPacket_packet (s : State τ) (t : τ) (i : ℕ) (p : τ × ℕ) :
    (putPacket s t i).packet p = s.packet p ∨
      p = (t,i) ∧ (putPacket s t i).packet p = {s.packet p with sending := true} := by
  by_cases hp : p = (t,i)
  · subst hp
    exact .inr ⟨rfl,update_self _ _ _⟩
  · exact .inl (update_of_ne hp _ _)

theorem putPacket_messages (s : State τ) (t : τ) (i : ℕ) (p : τ × ℕ) :
    ((putPacket s t i).packet p).messages = (s.packet p).messages := by
  obtain hp | ⟨-,hp⟩ := putPacket_packet s t i p <;> rw [hp]

theorem Inv.flushed_putPacket (h : Inv c s) (hfree : (s.packet (t,i)).sending = false)
    (x : τ) : flushed (putPacket s t i) x =
      flushed s x++if t = x then (s.packet (t,i)).messages else [] := by
  have hlist : messagesOf (putPacket s t i) x (queue s++[(t,i)]) =
      messagesOf s x (queue s++[(t,i)]) := messagesOf_congr fun p _ => putPacket_messages s t i p
  have hsending : sendingOf (putPacket s t i) x = sendingOf s x :=
    sendingOf_congr rfl (pointee_congr fun p hp =>
      update_of_ne (fun hpt : p = (t,i) => h.not_plain hfree (hpt ▸ hp)) _ _)
  rw [flushed,flushed,h.queue_putPacket,hlist,hsending]
  simp only [messagesOf,List.flatMap_append,List.flatMap_singleton,List.append_assoc]
  rfl

/-- The active packet is flushed. -/
theorem Inv.putPacket (h : Inv c s) (hactive : (s.thread t).active = some i)
    (hpc : (s.thread t).pc = .idle ∨ (s.thread t).pc = .filled) (hlock : s.unlinking = none) :
    Advances c s (putPacket s t i) := by
  have howned : (s.packet (t,i)).sending = false ∧ Ready (s.packet (t,i)) := by
    have howned := h.owned t i hactive
    rcases hpc with hpc | hpc <;> rw [hpc] at howned <;> exact howned
  obtain ⟨hfree,hready⟩ := howned
  have hcollected : collected s t = (s.packet (t,i)).messages := by
    rw [collected_of_active hactive]
    rcases hpc with hpc | hpc <;> rw [hpc] <;> rfl
  have hplain := h.not_plain hfree
  have hnotqueued := h.not_queued hfree
  have hnot : (t,i) ∉ s.packets := by
    rw [h.shape,List.mem_append,not_or]
    refine ⟨fun hp => ?_,hnotqueued⟩
    rw [busy,hlock] at hp
    cases ho : s.sending with
    | none => simp [ho] at hp
    | some o =>
      cases o with
      | copy _ _ => simp [ho] at hp
      | packet p =>
        simp only [ho,List.mem_singleton] at hp
        exact hplain (hp ▸ ho)
  have hsame (p) (hp : p ≠ (t,i)) : (VoodooOutput.putPacket s t i).packet p = s.packet p :=
    update_of_ne hp _ _
  have hthread (x) (hx : x ≠ t) : (VoodooOutput.putPacket s t i).thread x = s.thread x :=
    update_of_ne hx _ _
  have hself : (VoodooOutput.putPacket s t i).thread t = {s.thread t with
        pc := .idle
        active := none} := update_self _ _ _
  have hpacket := putPacket_packet s t i
  have hqueue := h.queue_putPacket (t := t) i
  have hnum (x) : ((VoodooOutput.putPacket s t i).thread x).num = (s.thread x).num := by
    by_cases hx : x = t
    · rw [hx,hself]
    · rw [hthread x hx]
  refine ⟨⟨fun x => ?_,fun x j hx => ?_,fun x j hx => ?_,fun x j hx => ?_,fun p hp => ?_,?_,
    ?_,fun p hp => ?_,fun p hp => ?_,h.copy,fun p hp => ?_,fun x j hx => ?_,fun o ho => ?_,
    h.transmitted,fun x => ?_⟩,fun x => h.flushed_putPacket hfree x ▸ List.prefix_append _ _⟩
  · by_cases hx : x = t
    · rw [hx,hself]
      exact h.next t
    · rw [hthread x hx]
      exact h.next x
  · by_cases hxt : x = t
    · rw [hxt,hself] at hx
      cases hx
    · rw [hthread x hxt] at hx ⊢
      exact h.active x j hx
  · rw [hnum] at hx
    obtain hp | ⟨-,hp⟩ := hpacket (x,j) <;> rw [hp] <;> exact h.flags x j hx
  · rw [hnum] at hx
    obtain hp | ⟨-,hp⟩ := hpacket (x,j) <;> rw [hp] <;> exact h.size x j hx
  · rw [hnum]
    rcases List.mem_append.mp hp with hp | hp
    · exact h.linked p hp
    · obtain rfl := List.mem_singleton.mp hp
      exact h.active t i hactive
  · rw [hqueue,show busy (VoodooOutput.putPacket s t i) = busy s from rfl,← List.append_assoc,
      ← h.shape]
    rfl
  · exact List.nodup_append.mpr ⟨h.nodup,List.nodup_singleton _,fun p hp q hq hpq =>
      hnot (List.mem_singleton.mp hq ▸ hpq ▸ hp)⟩
  · rw [hqueue] at hp
    rcases List.mem_append.mp hp with hp | hp
    · rw [hsame p fun hpt => hnotqueued (hpt ▸ hp)]
      exact h.queued p hp
    · obtain rfl := List.mem_singleton.mp hp
      have hnew : (VoodooOutput.putPacket s t i).packet (t,i) =
          {s.packet (t,i) with sending := true} := update_self _ _ _
      rw [hnew]
      exact ⟨rfl,hready.flags,hready.uncompressed,hready.packed,hready.min,hready.max⟩
  · rw [hsame p fun hpt => hplain (hpt ▸ hp)]
    exact h.plain p hp
  · rw [show s.unlinking = some p from hp] at hlock
    cases hlock
  · by_cases hxt : x = t
    · rw [hxt,hself] at hx
      cases hx
    · rw [hthread x hxt] at hx ⊢
      rw [hsame _ fun hp => hxt (congrArg Prod.fst hp)]
      exact h.owned x j hx
  · rw [pointee_congr (u := VoodooOutput.putPacket s t i)
      (fun p hp => hsame p fun hpt => hplain (hpt ▸ hp)) o ho]
    exact h.sent o ho
  · rw [h.flushed_putPacket hfree]
    by_cases hxt : x = t
    · subst hxt
      rw [collected,hself,if_pos rfl,List.append_nil,← hcollected]
      exact h.written x
    · rw [if_neg (Ne.symm hxt),List.append_nil,
        collected_congr (hthread x hxt) fun j => putPacket_messages s t i (x,j)]
      exact h.written x

omit [DecidableEq τ] in
theorem Owned.release {pc : Pc} {q : Packet} (h : Owned pc q) :
    Owned pc {q with sending := false} := by
  cases pc with
  | idle | filled =>
    exact ⟨rfl,h.2.flags,h.2.uncompressed,h.2.packed,h.2.min,h.2.max⟩
  | checking | waiting => exact h
  | resetting => exact ⟨rfl,h.2⟩
  | filling =>
    exact ⟨rfl,h.2.flags,h.2.uncompressed,h.2.packed,h.2.size,h.2.min,h.2.max⟩

theorem flushed_eq (hqueue : messagesOf u t (queue u) = messagesOf s t (queue u))
    (h : transmittedOf u t++sendingOf u t++messagesOf s t (queue u) =
      transmittedOf s t++sendingOf s t++messagesOf s t (queue s)) :
    flushed u t = flushed s t := by
  rw [flushed,flushed,hqueue,h]

/-- A step of `io_loop` does no more to a packet than to clear its flag. -/
theorem Inv.io (h : Inv c s) (hthread : u.thread = s.thread) (hwritten : u.written = s.written)
    (hpacket : ∀ x, u.packet x = s.packet x ∨ u.packet x = {s.packet x with sending := false})
    (hlinked : ∀ p ∈ u.packets, p ∈ s.packets) (hshape : u.packets = busy u++queue u)
    (hnodup : u.packets.Nodup) (hqueued : ∀ p ∈ queue u, u.packet p = s.packet p ∧ p ∈ queue s)
    (hplain : ∀ p, u.sending = some (.packet p) → (u.packet p).sending ∧ Ready (u.packet p) ∧
      ¬Shrinks c (u.packet p).payload)
    (hcopy : ∀ t q, u.sending = some (.copy t q) → IsBatch c q.raw q.messages)
    (hunlinking : ∀ p, u.unlinking = some p →
      (u.packet p).sending = false ∧ ∀ q, u.sending ≠ some (.packet q))
    (hsent : ∀ o, u.sending = some o → u.sent <+: (pointee u o).raw)
    (htransmitted : ∀ b ∈ u.transmitted, IsBatch c b.raw b.messages)
    (hflushed : ∀ x, transmittedOf u x++sendingOf u x++messagesOf s x (queue u) =
      transmittedOf s x++sendingOf s x++messagesOf s x (queue s)) : Advances c s u := by
  have hmessages (p) : (u.packet p).messages = (s.packet p).messages := by
    rcases hpacket p with hp | hp <;> rw [hp]
  have hflush (x) : flushed u x = flushed s x :=
    flushed_eq (messagesOf_congr fun p _ => hmessages p) (hflushed x)
  refine ⟨⟨fun x => ?_,fun x j hx => ?_,fun x j hx => ?_,fun x j hx => ?_,fun p hp => ?_,hshape,
    hnodup,fun p hp => ?_,hplain,hcopy,hunlinking,fun x j hx => ?_,hsent,htransmitted,
    fun x => ?_⟩,fun x => hflush x ▸ List.prefix_rfl⟩
  · exact hthread ▸ h.next x
  · rw [hthread] at hx ⊢
    exact h.active x j hx
  · rw [hthread] at hx
    rcases hpacket (x,j) with hp | hp <;> rw [hp] <;> exact h.flags x j hx
  · rw [hthread] at hx
    rcases hpacket (x,j) with hp | hp <;> rw [hp] <;> exact h.size x j hx
  · exact hthread ▸ h.linked p (hlinked p hp)
  · rw [(hqueued p hp).1]
    exact h.queued p (hqueued p hp).2
  · rw [hthread] at hx ⊢
    have howned := h.owned x j hx
    rcases hpacket (x,j) with hp | hp <;> rw [hp]
    · exact howned
    · exact howned.release
  · rw [hflush,hwritten,collected_congr (congrFun hthread x) fun i => hmessages (x,i)]
    exact h.written x

theorem Inv.take (h : Inv c s) (hlock : s.unlinking = none) (hidle : s.sending = none)
    {rest : List (τ × ℕ)} (hpackets : s.packets = p::rest) (align : UInt32) (fresh : Mem) :
    Advances c s (take c s p align fresh) := by
  have hqueue : queue s = p::rest := by rw [queue,busy,hlock,hidle]; exact hpackets
  have hnodup := h.nodup
  rw [hpackets] at hnodup
  obtain ⟨hnot,-⟩ := List.nodup_cons.mp hnodup
  obtain ⟨hsending,hready⟩ := h.queued p (hqueue ▸ List.mem_cons_self)
  have hnone (x) : sendingOf s x = [] := by rw [sendingOf,hidle]
  rw [VoodooOutput.take]
  split_ifs with hc
  · have hsame (x) (hx : x ≠ p) : update s.packet p {s.packet p with sending := false} x =
        s.packet x := update_of_ne hx _ _
    have hself : update s.packet p {s.packet p with sending := false} p =
        {s.packet p with sending := false} := update_self _ _ _
    refine h.io rfl rfl (fun x => ?_) (fun _ hx => hx) ?_ h.nodup (fun x hx => ?_) nofun ?_ ?_ ?_
      h.transmitted fun x => ?_
    · by_cases hx : x = p
      · exact .inr (hx ▸ hself)
      · exact .inl (hsame x hx)
    · simp only [busy,queue,hpackets]
      rfl
    · simp only [queue,busy,hpackets,List.length_singleton,List.drop_one,List.tail_cons] at hx
      exact ⟨hsame x fun hxp => hnot (hxp ▸ hx),hqueue ▸ List.mem_cons_of_mem _ hx⟩
    · rintro _ _ ⟨⟩
      exact hready.isBatch_compressed hc align fresh
    · rintro _ ⟨⟩
      exact ⟨congrArg Packet.sending hself,nofun⟩
    · exact fun _ _ => List.nil_prefix
    · rw [hnone,hqueue]
      simp only [queue,busy,hpackets,List.length_singleton,List.drop_one,List.tail_cons,sendingOf,
        Sending.owner,pointee,Packet.compressed,List.append_nil,messagesOf,List.flatMap_cons,
        List.append_assoc]
      rfl
  · refine h.io rfl rfl (fun _ => .inl rfl) (fun _ hx => hx) ?_ h.nodup (fun x hx => ⟨rfl,?_⟩) ?_
      nofun ?_ ?_ h.transmitted fun x => ?_
    · simp only [busy,queue,hlock,hpackets]
      rfl
    · simp only [queue,busy,hlock,hpackets,List.length_singleton,List.drop_one,List.tail_cons] at hx
      exact hqueue ▸ List.mem_cons_of_mem _ hx
    · rintro _ ⟨⟩
      exact ⟨hsending,hready,hc⟩
    · intro q hq
      rw [show s.unlinking = some q from hq] at hlock
      cases hlock
    · exact fun _ _ => List.nil_prefix
    · rw [hnone,hqueue]
      simp only [queue,busy,hlock,hpackets,List.length_singleton,List.drop_one,List.tail_cons,
        sendingOf,Sending.owner,pointee,List.append_nil,messagesOf,List.flatMap_cons,
        List.append_assoc]
      rfl

theorem Inv.transmit (h : Inv c s) {o : Sending τ} (hsending : s.sending = some o) {n : ℕ} :
    Advances c s {s with sent := s.sent++((pointee s o).raw.drop s.sent.length).take n} := by
  refine h.io rfl rfl (fun _ => .inl rfl) (fun _ hx => hx) h.shape h.nodup
    (fun _ hx => ⟨rfl,hx⟩) h.plain h.copy h.unlinking (fun o' ho => ?_) h.transmitted fun _ => rfl
  obtain rfl := Option.some.inj (hsending.symm.trans ho)
  obtain ⟨rest,hrest⟩ := h.sent o hsending
  have hpointee : pointee {s with
      sent := s.sent++((pointee s o).raw.drop s.sent.length).take n} o = pointee s o := by
    cases o <;> rfl
  refine ⟨rest.drop n,?_⟩
  rw [hpointee,← hrest,List.drop_left,List.append_assoc,List.take_append_drop]

theorem transmittedOf_complete (s : State τ) (o : Sending τ) (x : τ) :
    transmittedOf (complete s o) x =
      transmittedOf s x++if o.owner = x then (pointee s o).messages else [] := by
  cases o <;>
    simp only [transmittedOf,complete,List.flatMap_append,List.flatMap_singleton]

theorem queue_complete (hlock : s.unlinking = none) {o : Sending τ}
    (hsending : s.sending = some o) : queue (complete s o) = queue s := by
  cases o <;> simp only [queue,busy,complete,hlock,hsending]

theorem Inv.complete (h : Inv c s) (hlock : s.unlinking = none) {o : Sending τ}
    (hsending : s.sending = some o) (hall : s.sent.length = (pointee s o).raw.length) :
    Advances c s (complete s o) := by
  have hraw : s.sent = (pointee s o).raw := (h.sent o hsending).eq_of_length hall
  have hflushed (x) : transmittedOf (VoodooOutput.complete s o) x =
      transmittedOf s x++sendingOf s x := by
    rw [transmittedOf_complete,sendingOf,hsending]
  have hbatch : IsBatch c s.sent (pointee s o).messages := by
    rw [hraw]
    cases o with
    | packet p => exact (h.plain p hsending).2.1.isBatch (h.plain p hsending).2.2
    | copy t q => exact h.copy t q hsending
  have htransmitted : ∀ b ∈ s.transmitted++[⟨o.owner,s.sent,(pointee s o).messages⟩],
      IsBatch c b.raw b.messages := by
    intro b hb
    rcases List.mem_append.mp hb with hb | hb
    · exact h.transmitted b hb
    · obtain rfl := List.mem_singleton.mp hb
      exact hbatch
  cases o with
  | packet p =>
    have hsame (x) (hx : x ≠ p) : update s.packet p {s.packet p with sending := false} x =
        s.packet x := update_of_ne hx _ _
    have hself : update s.packet p {s.packet p with sending := false} p =
        {s.packet p with sending := false} := update_self _ _ _
    have hbusy : busy s = [p] := by rw [busy,hlock,hsending]
    have hnot : p ∉ queue s := by
      have hnodup := h.nodup
      rw [h.shape,hbusy] at hnodup
      exact (List.nodup_cons.mp hnodup).1
    have hqueue := queue_complete hlock hsending
    refine h.io rfl rfl (fun x => ?_) (fun _ hx => hx) ?_ h.nodup (fun x hx => ?_) nofun nofun ?_
      nofun htransmitted fun x => ?_
    · by_cases hx : x = p
      · exact .inr (hx ▸ hself)
      · exact .inl (hsame x hx)
    · rw [hqueue]
      exact h.shape.trans (congrArg (·++_) hbusy)
    · rw [hqueue] at hx
      exact ⟨hsame x fun hxp => hnot (hxp ▸ hx),hx⟩
    · rintro _ ⟨⟩
      exact ⟨congrArg Packet.sending hself,nofun⟩
    · rw [hqueue,hflushed]
      exact congrArg (·++_) (List.append_nil _)
  | copy t q =>
    have hbusy : busy s = [] := by rw [busy,hlock,hsending]
    have hbusy' : busy (VoodooOutput.complete s (.copy t q)) = [] := by
      simp only [busy,VoodooOutput.complete,hlock]
    have hqueue := queue_complete hlock hsending
    refine h.io rfl rfl (fun _ => .inl rfl) (fun _ hx => hx) ?_ h.nodup (fun x hx => ⟨rfl,?_⟩)
      nofun nofun (fun p hp => ?_) nofun htransmitted fun x => ?_
    · rw [hqueue,hbusy']
      exact h.shape.trans (congrArg (·++_) hbusy)
    · exact hqueue ▸ hx
    · rw [show s.unlinking = some p from hp] at hlock
      cases hlock
    · rw [hqueue,hflushed]
      exact congrArg (·++_) (List.append_nil _)

/-- All but the packet that is unlinked. -/
theorem Inv.unlinked (h : Inv c s) (hp : s.unlinking = some p) :
    s.packets.erase p = queue s ∧ busy {s with
      packets := s.packets.erase p
      unlinking := none} = [] ∧ queue {s with
      packets := s.packets.erase p
      unlinking := none} = queue s := by
  have hshape : s.packets = p::queue s := by
    conv_lhs => rw [h.shape,busy,hp]
    rfl
  have herase : s.packets.erase p = queue s := by
    conv_lhs => rw [hshape,List.erase_cons_head]
  have hbusy : busy {s with
      packets := s.packets.erase p
      unlinking := none} = [] := by
    cases ho : s.sending with
    | none => simp only [busy]
    | some o =>
      cases o with
      | packet q => exact absurd ho ((h.unlinking p hp).2 q)
      | copy _ _ => simp only [busy]
  refine ⟨herase,hbusy,?_⟩
  rw [queue,hbusy]
  exact herase

theorem Inv.unlink (h : Inv c s) (hp : s.unlinking = some p) : Advances c s {s with
      packets := s.packets.erase p
      unlinking := none} := by
  obtain ⟨-,hno⟩ := h.unlinking p hp
  obtain ⟨herase,hbusy,hqueue⟩ := h.unlinked hp
  refine h.io rfl rfl (fun _ => .inl rfl) (fun _ => List.mem_of_mem_erase) ?_
    (h.nodup.erase p) (fun x hx => ⟨rfl,hqueue ▸ hx⟩) (fun q hq => absurd hq (hno q)) h.copy nofun
    h.sent h.transmitted fun x => ?_
  · rw [hqueue,hbusy]
    exact herase
  · rw [hqueue]
    rfl

theorem get_flush (s : State τ) (t : τ) (i n : ℕ) :
    get (flush s (t,i)) t n = get (putPacket s t i) t n := by
  simp only [get,flush,putPacket,update_self,update_idem]
  rfl

theorem Advances.trans {v : State τ} (h : Advances c s u) (h' : Advances c u v) : Advances c s v :=
  ⟨h'.inv,fun x => (h.flushed x).trans (h'.flushed x)⟩

theorem Inv.getPacket (h : Inv c s) (hpc : (s.thread t).pc = .idle)
    (hmin : messageHeaderSize ≤ n) (hmax : n ≤ packetMax)
    (hu : getPacket s t n = some u) : Advances c s u := by
  rw [VoodooOutput.getPacket] at hu
  split at hu
  · obtain rfl := Option.some.inj hu
    exact h.get ‹_› hmin hmax
  · rename_i i hactive
    split at hu
    · obtain rfl := Option.some.inj hu
      exact h.append hpc hactive ‹_› hmin
    · split_ifs at hu with hlock
      obtain rfl := Option.some.inj hu
      have hput := h.putPacket hactive (.inl hpc) hlock
      rw [get_flush]
      refine hput.trans (hput.inv.get ?_ hmin hmax)
      simp only [VoodooOutput.putPacket,update_self]

theorem Inv.step (h : Inv c s) {e : Event τ} (hu : step c s e = some u) : Advances c s u := by
  cases e with
  | get t n =>
    simp only [VoodooOutput.step] at hu
    split at hu
    · split_ifs at hu with hn
      exact h.getPacket ‹_› hn.1 hn.2 hu
    · cases hu
  | check t =>
    simp only [VoodooOutput.step] at hu
    split at hu
    · exact Option.some.inj hu ▸ h.check ‹_› ‹_›
    · cases hu
  | wake t =>
    simp only [VoodooOutput.step] at hu
    split at hu
    · split_ifs at hu with hfree
      exact Option.some.inj hu ▸ h.wake ‹_› ‹_› hfree.2
    · cases hu
  | reset t =>
    simp only [VoodooOutput.step] at hu
    split at hu
    · exact Option.some.inj hu ▸ h.reset ‹_› ‹_›
    · cases hu
  | fill t m =>
    simp only [VoodooOutput.step] at hu
    split at hu
    · split_ifs at hu with hm
      subst hm
      exact Option.some.inj hu ▸ h.fill ‹_› ‹_›
    · cases hu
  | put t flush =>
    simp only [VoodooOutput.step] at hu
    split at hu
    · rename_i i hpc hactive
      split_ifs at hu with hflush hlock
      · exact Option.some.inj hu ▸ h.putPacket hactive (.inr hpc) hlock
      · have howned := h.owned t i hactive
        rw [hpc] at howned
        refine Option.some.inj hu ▸ h.setPc hactive howned ?_
        rw [collected_of_active hactive,hpc]
        rfl
    · cases hu
  | take align fresh =>
    simp only [VoodooOutput.step] at hu
    split at hu
    · exact Option.some.inj hu ▸ h.take ‹_› ‹_› ‹_› align fresh
    · cases hu
  | transmit n =>
    simp only [VoodooOutput.step] at hu
    split at hu
    · split_ifs at hu
      exact Option.some.inj hu ▸ h.transmit ‹_›
    · cases hu
  | complete =>
    simp only [VoodooOutput.step] at hu
    split at hu
    · split_ifs at hu with hall
      exact Option.some.inj hu ▸ h.complete ‹_› ‹_› hall
    · cases hu
  | unlink =>
    simp only [VoodooOutput.step] at hu
    split at hu
    · exact Option.some.inj hu ▸ h.unlink ‹_›
    · cases hu

theorem Inv.initial (h : Initial s) : Inv c s := by
  have hbusy : busy s = [] := by rw [busy,h.unlinking,h.sending]
  have hqueue : queue s = [] := by rw [queue,hbusy,h.packets]; rfl
  have hnum (t i) (hi : i < (s.thread t).num) : False := by
    rw [h.thread] at hi
    exact Nat.not_lt_zero i hi
  have hactive (t) : (s.thread t).active = none := by rw [h.thread]
  refine ⟨fun t => ?_,fun t i ha => ?_,fun t i hi => (hnum t i hi).elim,
    fun t i hi => (hnum t i hi).elim,?_,?_,?_,?_,?_,?_,?_,fun t i ha => ?_,?_,?_,fun t => ?_⟩
  · rw [h.thread]
    exact Nat.zero_lt_two
  · rw [hactive] at ha
    cases ha
  · simp [h.packets]
  · rw [hbusy,hqueue,h.packets]
    rfl
  · rw [h.packets]
    exact List.nodup_nil
  · simp [hqueue]
  · simp [h.sending]
  · simp [h.sending]
  · simp [h.unlinking]
  · rw [hactive] at ha
    cases ha
  · simp [h.sending]
  · simp [h.transmitted]
  · rw [h.written,flushed,transmittedOf,sendingOf,collected,hqueue,h.transmitted,h.sending,hactive]
    rfl

theorem Inv.reaches (h : Reaches (VoodooOutput.step c) (fun _ _ => True) Initial s) : Inv c s :=
  h.invariant (Inv c) (fun _ => Inv.initial) fun _ _ _ hinv _ hs => (hinv.step hs).inv

theorem Inv.exec (h : Inv c s) {es : List (Event τ)} (hu : exec (VoodooOutput.step c) s es = some u) :
    Advances c s u := by
  induction es generalizing s with
  | nil =>
    obtain rfl : s = u := by simpa [Transition.exec] using hu
    exact ⟨h,fun _ => List.prefix_rfl⟩
  | cons e es ih =>
    obtain ⟨v,hv,hrest⟩ := Option.bind_eq_some_iff.mp hu
    exact (h.step hv).trans (ih (h.step hv).inv hrest)

theorem Inv.unlinking_of_linked (h : Inv c s) (hp : p ∈ s.packets)
    (hfree : (s.packet p).sending = false) : s.unlinking = some p := by
  rw [h.shape,List.mem_append] at hp
  have hbusy := hp.resolve_right (h.not_queued hfree)
  rw [busy] at hbusy
  cases hlock : s.unlinking with
  | some q =>
    rw [hlock] at hbusy
    rw [List.mem_singleton.mp hbusy]
  | none =>
    simp only [hlock] at hbusy
    cases ho : s.sending with
    | none => simp [ho] at hbusy
    | some o =>
      cases o with
      | copy _ _ => simp [ho] at hbusy
      | packet q =>
        simp only [ho,List.mem_singleton] at hbusy
        exact absurd (hbusy ▸ ho) (h.not_plain hfree)

end Frame

def Packet.content (q : Packet) : Mem × ℕ × ℕ × ℕ := (q.data,q.current,q.size,q.uncompressed)

/-- The steps of `io_loop`. -/
def Event.OfLoop : Event τ → Prop
  | .take _ _ | .transmit _ | .complete | .unlink => True
  | _ => False

section Results

variable {c : Coder} {s u : State τ} {t : τ} {p : τ × ℕ}

theorem content_setPc_update {pc : Pc} {q : Packet} {i : ℕ} {ms : τ → List Message}
    (hfree : (s.packet (t,i)).sending = false) :
    (({setPc s t pc with
      packet := update s.packet (t,i) q
      written := ms} : State τ).packet p).content = (s.packet p).content ∨
    (s.packet p).sending = false := by
  by_cases hp : p = (t,i)
  · exact .inr (hp ▸ hfree)
  · exact .inl (congrArg Packet.content (update_of_ne hp _ _))

theorem content_get {n : ℕ} (hp : p.2 < (s.thread p.1).num) :
    ((get s t n).packet p).content = (s.packet p).content := by
  rw [get]
  split_ifs
  · refine congrArg Packet.content (update_of_ne (fun hpt => ?_) _ _)
    rw [hpt] at hp
    exact lt_irrefl _ hp
  · rfl

theorem content_flag (q : τ × ℕ) (b : Bool) :
    (update s.packet q {s.packet q with sending := b} p).content = (s.packet p).content := by
  by_cases hp : p = q
  · rw [hp,update_self]
    rfl
  · rw [update_of_ne hp]

theorem Inv.content_step (h : Inv c s) {e : Event τ} (hu : VoodooOutput.step c s e = some u)
    (hp : p.2 < (s.thread p.1).num) :
    (u.packet p).content = (s.packet p).content ∨ (s.packet p).sending = false := by
  have hfree {t : τ} {i : ℕ} (hactive : (s.thread t).active = some i)
      (hpc : ∀ n, (s.thread t).pc ≠ .checking n ∧ (s.thread t).pc ≠ .waiting n) :
      (s.packet (t,i)).sending = false := by
    have howned := h.owned t i hactive
    cases hcase : (s.thread t).pc with
    | checking n => exact absurd hcase (hpc n).1
    | waiting n => exact absurd hcase (hpc n).2
    | idle | filled | resetting | filling => rw [hcase] at howned; exact howned.1
  cases e with
  | get t n =>
    simp only [VoodooOutput.step] at hu
    split at hu
    · rename_i hpc
      split_ifs at hu
      rw [VoodooOutput.getPacket] at hu
      split at hu
      · exact .inl (Option.some.inj hu ▸ content_get hp)
      · rename_i i hactive
        split at hu
        · exact Option.some.inj hu ▸ content_setPc_update (hfree hactive (by simp [hpc]))
        · split_ifs at hu
          refine .inl (Option.some.inj hu ▸ ?_)
          rw [content_get (s := flush s (t,i)) hp]
          exact content_flag _ _
    · cases hu
  | check t | wake t =>
    simp only [VoodooOutput.step] at hu
    split at hu
    · first
      | exact .inl (Option.some.inj hu ▸ rfl)
      | split_ifs at hu; exact .inl (Option.some.inj hu ▸ rfl)
    · cases hu
  | reset t =>
    simp only [VoodooOutput.step] at hu
    split at hu
    · rename_i hpc hactive
      exact Option.some.inj hu ▸ content_setPc_update (hfree hactive (by simp [hpc]))
    · cases hu
  | fill t m =>
    simp only [VoodooOutput.step] at hu
    split at hu
    · rename_i hpc hactive
      split_ifs at hu
      exact Option.some.inj hu ▸ content_setPc_update (hfree hactive (by simp [hpc]))
    · cases hu
  | put t flush =>
    simp only [VoodooOutput.step] at hu
    split at hu
    · split_ifs at hu
      · exact .inl (Option.some.inj hu ▸ content_flag _ _)
      · exact .inl (Option.some.inj hu ▸ rfl)
    · cases hu
  | take align fresh =>
    simp only [VoodooOutput.step] at hu
    split at hu
    · refine .inl (Option.some.inj hu ▸ ?_)
      rw [VoodooOutput.take]
      split_ifs
      · exact content_flag _ _
      · rfl
    · cases hu
  | transmit n =>
    simp only [VoodooOutput.step] at hu
    split at hu
    · split_ifs at hu
      exact .inl (Option.some.inj hu ▸ rfl)
    · cases hu
  | complete =>
    simp only [VoodooOutput.step] at hu
    split at hu
    · rename_i o _ _
      split_ifs at hu
      refine .inl (Option.some.inj hu ▸ ?_)
      cases o with
      | packet q => exact content_flag q _
      | copy _ _ => rfl
    · cases hu
  | unlink =>
    simp only [VoodooOutput.step] at hu
    split at hu
    · exact .inl (Option.some.inj hu ▸ rfl)
    · cases hu

theorem collected_of_flush {e : Event τ} (hu : VoodooOutput.step c s e = some u)
    (hflush : e = .put t true ∨ (∃ n, e = .get t n) ∧ u.packets ≠ s.packets) :
    collected u t = [] := by
  rcases hflush with rfl | ⟨⟨n,rfl⟩,hlinked⟩
  · simp only [step] at hu
    split at hu
    · rw [if_pos trivial] at hu
      split_ifs at hu
      rw [← Option.some.inj hu]
      simp only [collected,putPacket,update_self]
    · cases hu
  · simp only [step] at hu
    split at hu
    · split_ifs at hu
      rw [getPacket] at hu
      have hget (v : State τ) : collected (get v t n) t = [] := by
        rw [get]
        split_ifs <;> simp only [collected,update_self,Pc.Stale,if_true]
      split at hu
      · exact Option.some.inj hu ▸ hget s
      · split at hu
        · exact absurd (Option.some.inj hu ▸ rfl) hlinked
        · split_ifs at hu
          exact Option.some.inj hu ▸ hget _
    · cases hu

/-- The number of steps that `io_loop` has to make with the lock, more or less. -/
def rank (s : State τ) : ℕ :=
  4*(queue s).length+2*s.sending.toList.length+s.unlinking.toList.length

structure Drained (s : State τ) : Prop where
  packets : s.packets = []
  sending : s.sending = none

theorem rank_take (hlock : s.unlinking = none) (hidle : s.sending = none) {rest : List (τ × ℕ)}
    (hpackets : s.packets = p::rest) (align : UInt32) (fresh : Mem) :
    rank (take c s p align fresh) < rank s := by
  rw [take]
  split_ifs <;>
    simp only [rank,queue,busy,hlock,hidle,hpackets,List.length_drop,List.length_cons,
      List.length_nil,Option.toList_some,Option.toList_none] <;>
    omega

theorem rank_complete (hlock : s.unlinking = none) {o : Sending τ}
    (hsending : s.sending = some o) : rank (complete s o) < rank s := by
  have hunlinking : (complete s o).unlinking.toList.length ≤ 1 := by
    cases o
    · exact le_rfl
    · rw [show (complete s (.copy _ _)).unlinking = s.unlinking from rfl,hlock]
      exact Nat.zero_le 1
  have hidle : (complete s o).sending = none := by cases o <;> rfl
  rw [rank,rank,queue_complete hlock hsending,hidle,hsending]
  simp only [Option.toList_none,Option.toList_some,List.length_nil,List.length_singleton]
  omega

theorem Inv.descend (h : Inv c s) (hs : ¬Drained s) :
    ∃ es u, (∀ e ∈ es, Event.OfLoop e) ∧ Transition.exec (VoodooOutput.step c) s es = some u ∧
      rank u < rank s := by
  cases hlock : s.unlinking with
  | some p =>
    have hstep : VoodooOutput.step c s .unlink = some {s with
        packets := s.packets.erase p
        unlinking := none} := by simp only [VoodooOutput.step,hlock]
    refine ⟨[.unlink],_,by simp [Event.OfLoop],exec_single hstep,?_⟩
    rw [rank,rank,(h.unlinked hlock).2.2,hlock]
    exact Nat.lt_succ_self _
  | none =>
    cases ho : s.sending with
    | some o =>
      obtain ⟨n,hn⟩ := Nat.exists_eq_add_of_le (h.sent o ho).length_le
      cases n with
      | zero =>
        have hstep : VoodooOutput.step c s .complete = some (VoodooOutput.complete s o) := by
          simp only [VoodooOutput.step,hlock,ho,hn,Nat.add_zero,if_true]
        exact ⟨[.complete],_,by simp [Event.OfLoop],exec_single hstep,rank_complete hlock ho⟩
      | succ n =>
        let s' : State τ :=
          {s with sent := s.sent++((pointee s o).raw.drop s.sent.length).take (n+1)}
        have hstep : VoodooOutput.step c s (.transmit (n+1)) = some s' := by
          simp only [VoodooOutput.step,hlock,ho]
          rw [if_pos ⟨Nat.succ_pos n,hn.ge⟩]
          simp only [s',hlock,ho]
        have hpointee : pointee s' o = pointee s o := by cases o <;> rfl
        have hall : s'.sent.length = (pointee s' o).raw.length := by
          rw [hpointee]
          simp only [s',List.length_append,List.length_take,List.length_drop]
          omega
        have hcomplete : VoodooOutput.step c s' .complete = some (VoodooOutput.complete s' o) := by
          simp only [VoodooOutput.step,show s'.unlinking = none from hlock,
            show s'.sending = some o from ho,hall,if_true]
        refine ⟨[.transmit (n+1),.complete],_,by simp [Event.OfLoop],?_,
          rank_complete (s := s') hlock ho⟩
        rw [Transition.exec,hstep]
        exact exec_single hcomplete
    | none =>
      cases hpackets : s.packets with
      | nil => exact absurd ⟨hpackets,ho⟩ hs
      | cons p rest =>
        have hstep : VoodooOutput.step c s (.take 0 fun _ => 0) =
            some (VoodooOutput.take c s p 0 fun _ => 0) := by
          simp only [VoodooOutput.step,hlock,ho,hpackets]
        exact ⟨[.take 0 fun _ => 0],_,by simp [Event.OfLoop],exec_single hstep,
          rank_take hlock ho hpackets _ _⟩

theorem Inv.drains {s : State τ} (h : Inv c s) :
    ∃ es u, (∀ e ∈ es, Event.OfLoop e) ∧ Transition.exec (VoodooOutput.step c) s es = some u ∧
      Drained u := by
  by_cases hs : Drained s
  · exact ⟨[],s,by simp,rfl,hs⟩
  · obtain ⟨es,u,hes,hu,hless⟩ := h.descend hs
    obtain ⟨es',v,hes',hv,hdrained⟩ := (h.exec hu).inv.drains
    refine ⟨es++es',v,fun e he => ?_,exec_append hu hv,hdrained⟩
    exact (List.mem_append.mp he).elim (hes e) (hes' e)
termination_by rank s

/-- Each message that a thread has written is, exactly once and in the order of the thread, in
what was sent, what is being sent, a linked packet or the active packet. A flush leaves nothing
in the active packet, what is flushed stays flushed, and `io_loop` can send all of it. What was
sent are frames of whole messages. A packet is only written to when it is not being sent, and
not linked either unless `io_loop` is done with it and about to unlink it. Packets are not
larger than allowed, and linked at most once. -/
theorem output_batched (h : Reaches (step c) (fun _ _ => True) Initial s) :
    (∀ t, s.written t = flushed s t++collected s t) ∧
    (∀ e u t, step c s e = some u →
      (e = .put t true ∨ (∃ n, e = .get t n) ∧ u.packets ≠ s.packets) →
      flushed u t = u.written t) ∧
    (∀ es u, exec (step c) s es = some u → ∀ t, flushed s t <+: flushed u t) ∧
    (∃ es u, (∀ e ∈ es, Event.OfLoop e) ∧ exec (step c) s es = some u ∧
      ∀ t, flushed s t <+: transmittedOf u t) ∧
    (∀ b ∈ s.transmitted, IsBatch c b.raw b.messages) ∧
    (∀ e u p, step c s e = some u → p.2 < (s.thread p.1).num →
      (u.packet p).content ≠ (s.packet p).content →
      (s.packet p).sending = false ∧ (p ∈ s.packets → s.unlinking = some p)) ∧
    (∀ t i, i < (s.thread t).num → (s.packet (t,i)).size ≤ packetMax) ∧
    s.packets.Nodup := by
  have hinv := Inv.reaches h
  refine ⟨hinv.written,fun e u t hu hflush => ?_,fun es u hu => (hinv.exec hu).flushed,?_,
    hinv.transmitted,fun e u p hu hp hne => ?_,hinv.size,hinv.nodup⟩
  · rw [(hinv.step hu).inv.written t,collected_of_flush hu hflush,List.append_nil]
  · obtain ⟨es,u,hes,hu,hpackets,hsending⟩ := hinv.drains
    refine ⟨es,u,hes,hu,fun t => ?_⟩
    have hempty : flushed u t = transmittedOf u t := by
      rw [flushed,sendingOf,queue,hpackets,hsending,List.drop_nil,List.append_nil]
      exact List.append_nil _
    exact hempty ▸ (hinv.exec hu).flushed t
  · have hfree := (hinv.content_step hu hp).resolve_left hne
    exact ⟨hfree,fun hlinked => hinv.unlinking_of_linked hlinked hfree⟩

end Results

def plain : Coder where
  compress := id
  decompress := fun l _ => l
  compressionMin := 0

def unused : State Unit where
  thread := fun _ => ⟨.idle,none,0,0⟩
  packet := fun _ => ⟨false,fun _ => 0,0,0,0,0,0,[]⟩
  packets := []
  sending := none
  sent := []
  unlinking := none
  transmitted := []
  written := fun _ => []

theorem unused_initial : Initial unused := ⟨fun _ => rfl,rfl,rfl,rfl,rfl,fun _ => rfl⟩

/-- Two packets are flushed, and `GetPacket` has the first again when it has been sent and is
about to be unlinked. -/
def early : List (Event Unit) :=
  [.get () 12,.check (),.reset (),.fill () (List.replicate 12 1),.put () true,
    .get () 12,.check (),.reset (),.fill () (List.replicate 12 2),.put () true,
    .get () 16,.take 0 (fun _ => 0),.transmit 28,.complete,.check ()]

/-- A packet is reset while it is linked. -/
theorem reset_while_linked : ∃ s u p, Reaches (step plain) (fun _ _ => True) Initial s ∧
    step plain s (.reset ()) = some u ∧ p ∈ s.packets ∧
    (u.packet p).content ≠ (s.packet p).content := by
  obtain ⟨s,hs,u,hu,hlinked,hsize⟩ : ∃ s, exec (step plain) unused early = some s ∧
      ∃ u, step plain s (.reset ()) = some u ∧ ((),0) ∈ s.packets ∧
        (u.packet ((),0)).size ≠ (s.packet ((),0)).size :=
    ⟨_,rfl,_,rfl,by decide,by decide⟩
  refine ⟨s,u,((),0),Reaches.exec (.init unused_initial) (fun _ _ => trivial) hs,hu,hlinked,
    fun hcontent => hsize ?_⟩
  exact congrArg (fun x => x.2.2.1) hcontent

/-- One message is written and flushed, and is sent. -/
theorem one_message_batched : ∃ s : State Unit,
    exec (step plain) unused [.get () 12,.check (),.reset (),.fill () (List.replicate 12 1),
      .put () true,.take 0 (fun _ => 0),.transmit 28,.complete,.unlink] = some s ∧
    transmittedOf s () = [List.replicate 12 1] ∧ s.written () = flushed s ()++collected s () := by
  obtain ⟨s,hs,hsent⟩ : ∃ s, exec (step plain) unused [.get () 12,.check (),.reset (),
      .fill () (List.replicate 12 1),.put () true,.take 0 (fun _ => 0),.transmit 28,.complete,
      .unlink] = some s ∧ transmittedOf s () = [List.replicate 12 1] := ⟨_,rfl,by decide⟩
  exact ⟨s,hs,hsent,(output_batched
    (Reaches.exec (.init unused_initial) (fun _ _ => trivial) hs)).1 ()⟩

end VoodooOutput

end DirectFB
