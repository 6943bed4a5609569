import DirectFB.VoodooMessage

/-! The loop over the messages of a packet. Their sizes come from the peer, and are checked by
assertions only. -/
namespace DirectFB
namespace VoodooDispatch
open Memory Voodoo

/-- What the manager has for the messages it handles. -/
inductive Handler
  | super | request | response | discover
  deriving DecidableEq, Repr

def handler (type : UInt32) : Option Handler :=
  if type = 0 then some .super
  else if type = 1 then some .request
  else if type = 2 then some .response
  else if type = 3 then some .discover
  else none

section Header

variable (m : Mem) (p : ℕ)

/-- The field `size` of the header at `p`, an `int`. -/
def size : ℤ := (load32 m p).toInt32.toInt

/-- The field `type`. -/
def type : UInt32 := load32 m (p+8)

/-- `VOODOO_MSG_ALIGN( header->size )`, undefined where the addition overflows. -/
def aligned : Option ℤ :=
  if size m p+3 < 2^31 then some (msgAlign (load32 m p)).toInt32.toInt else none

def message : List UInt8 := bytes m p (size m p).toNat

end Header

/-- The offset, a `size_t`, and what was handled so far. -/
structure Loop where
  offset : ℕ
  handled : List (Option Handler × List UInt8)

def round (m : Mem) (s : Loop) : Option Loop :=
  (aligned m s.offset).map fun aligned => {
    offset := ((s.offset+aligned)%2^64).toNat
    handled := s.handled++[(handler (type m s.offset),message m s.offset)] }

/-- The loop of `ProcessMessages` within `fuel` rounds. -/
def loop (m : Mem) (total : ℕ) : ℕ → Loop → Option Loop
  | 0, s => if s.offset < total then none else some s
  | fuel+1, s => if s.offset < total then (round m s).bind (loop m total fuel) else some s

/-- `ProcessMessages`, with the first message at address zero. -/
def processMessages (m : Mem) (total : UInt64) (fuel : ℕ) : Option Loop :=
  loop m total.toNat fuel ⟨0,[]⟩

def Step (m : Mem) (total : ℕ) (s t : Loop) : Prop := s.offset < total ∧ round m s = some t

structure Inside (m : Mem) (total p : ℕ) : Prop where
  header : p+messageHeaderSize ≤ total
  nonneg : 0 ≤ size m p
  message : p+size m p ≤ total

structure Safe (m : Mem) (total : ℕ) (s : Loop) : Prop where
  ends : ∃ fuel r, loop m total fuel s = some r
  inside : ∀ t, Relation.ReflTransGen (Step m total) s t → t.offset < total → Inside m total t.offset

def padded (n : ℕ) : ℕ := (n+3)/4*4

def Cut (m : Mem) (total : ℕ) : ℕ → List ℕ → Prop
  | p, [] => total ≤ p
  | p, n::sizes => size m p = n ∧ 0 < n ∧ n+3 < 2^31 ∧ p+messageHeaderSize ≤ total ∧ p+n ≤ total ∧
    p+padded n < 2^64 ∧ Cut m total (p+padded n) sizes

/-- A message, as the sender has it, and what is put behind it up to the next one. -/
structure WellFormed (msg pad : List UInt8) : Prop where
  header : messageHeaderSize ≤ msg.length
  max : msg.length+3 < 2^31
  size : load32 (ofList msg) 0 = UInt32.ofNat msg.length
  pad : msg.length+pad.length = padded msg.length

section
variable {m : Mem} {total p n : ℕ}

theorem toNat_of_toInt {v : UInt32} (h : v.toInt32.toInt = n) : v.toNat = n := by
  have hcond : v.toInt32.toInt = if 2*v.toNat < 2^32 then (v.toNat : ℤ) else v.toNat-2^32 :=
    BitVec.toInt_eq_toNat_cond v.toBitVec
  have := v.toNat_lt
  split_ifs at hcond <;> omega

theorem padded_bounds (n : ℕ) : n ≤ padded n ∧ padded n ≤ n+3 := by
  unfold padded
  omega

theorem aligned_eq (h : size m p = n) (hn : n+3 < 2^31) : aligned m p = some (padded n : ℤ) := by
  have hword : (load32 m p).toNat = n := toNat_of_toInt h
  have halign : (msgAlign (load32 m p)).toNat = padded n := by
    rw [msgAlign_eq (by omega),hword,padded]
  have hbounds := padded_bounds n
  rw [aligned,if_pos (by omega),VoodooMessage.toInt_toInt32 (by omega),halign]

variable {s t : Loop} {sizes : List ℕ}

theorem round_eq (h : size m s.offset = n) (hn : n+3 < 2^31)
    (hp : s.offset+padded n < 2^64) : round m s = some ⟨s.offset+padded n,
      s.handled++[(handler (type m s.offset),message m s.offset)]⟩ := by
  rw [round,aligned_eq h hn,Option.map_some]
  congr 2
  omega

theorem loop_of_le (h : total ≤ s.offset) (fuel : ℕ) : loop m total fuel s = some s := by
  cases fuel with
  | zero => exact if_neg (by omega)
  | succ fuel => exact if_neg (by omega)

theorem loop_succ (h : s.offset < total) (fuel : ℕ) :
    loop m total (fuel+1) s = (round m s).bind (loop m total fuel) := if_pos h

theorem Cut.cons_of_lt (h : Cut m total p sizes) (hp : p < total) :
    ∃ n rest, sizes = n::rest ∧ Inside m total p ∧ size m p = n ∧ n+3 < 2^31 ∧
      p+padded n < 2^64 ∧ Cut m total (p+padded n) rest := by
  cases sizes with
  | nil => exact absurd h (by simp only [Cut]; omega)
  | cons n rest =>
    obtain ⟨hsize,hpos,hmax,hheader,hend,hwrap,hrest⟩ := h
    exact ⟨n,rest,rfl,⟨hheader,by omega,by omega⟩,hsize,hmax,hwrap,hrest⟩

theorem Cut.step (h : Cut m total s.offset sizes)
    (hstep : Step m total s t) : ∃ rest, Cut m total t.offset rest := by
  obtain ⟨n,rest,-,-,hsize,hmax,hwrap,hrest⟩ := h.cons_of_lt hstep.1
  have ht := hstep.2
  rw [round_eq hsize hmax hwrap] at ht
  obtain rfl := Option.some.inj ht
  exact ⟨rest,hrest⟩

theorem Cut.ends (h : Cut m total s.offset sizes) : ∃ fuel r, loop m total fuel s = some r := by
  induction sizes generalizing s with
  | nil => exact ⟨0,s,loop_of_le h 0⟩
  | cons n sizes ih =>
    by_cases hlt : s.offset < total
    · obtain ⟨hsize,-,hmax,-,-,hwrap,hrest⟩ := h
      obtain ⟨fuel,r,hr⟩ := ih (s := ⟨s.offset+padded n,
        s.handled++[(handler (type m s.offset),message m s.offset)]⟩) hrest
      refine ⟨fuel+1,r,?_⟩
      rw [loop_succ hlt,round_eq hsize hmax hwrap,Option.bind_some,hr]
    · exact ⟨0,s,loop_of_le (by omega) 0⟩

theorem Cut.safe (h : Cut m total s.offset sizes) : Safe m total s := by
  refine ⟨h.ends,fun t ht hlt => ?_⟩
  have hcut : ∃ rest, Cut m total t.offset rest := by
    induction ht with
    | refl => exact ⟨sizes,h⟩
    | tail _ hstep ih =>
      obtain ⟨rest,hrest⟩ := ih hstep.1
      exact hrest.step hstep
  obtain ⟨rest,hrest⟩ := hcut
  obtain ⟨-,-,-,hinside,-⟩ := hrest.cons_of_lt hlt
  exact hinside

theorem Safe.step (h : Safe m total s) (hstep : Step m total s t)
    (hends : ∃ fuel r, loop m total fuel t = some r) : Safe m total t :=
  ⟨hends,fun u hu => h.inside u (.head hstep hu)⟩

theorem round_offset {s t u : Loop} (h : s.offset = u.offset) (ht : round m s = some t) :
    ∃ v, round m u = some v ∧ t.offset = v.offset := by
  obtain ⟨a,ha,rfl⟩ := Option.map_eq_some_iff.mp ht
  refine ⟨_,by rw [round,← h,ha,Option.map_some],?_⟩
  rfl

theorem loop_offset {fuel : ℕ} {s r u : Loop} (h : s.offset = u.offset)
    (hr : loop m total fuel s = some r) : ∃ r', loop m total fuel u = some r' := by
  induction fuel generalizing s u with
  | zero =>
    simp only [loop,Option.ite_none_left_eq_some] at hr
    exact ⟨u,if_neg (h ▸ hr.1)⟩
  | succ fuel ih =>
    by_cases hlt : s.offset < total
    · rw [loop_succ hlt] at hr
      obtain ⟨t,ht,hrest⟩ := Option.bind_eq_some_iff.mp hr
      obtain ⟨v,hv,hoffset⟩ := round_offset h ht
      obtain ⟨r',hr'⟩ := ih hoffset hrest
      exact ⟨r',by rw [loop_succ (h ▸ hlt),hv,Option.bind_some,hr']⟩
    · exact ⟨u,loop_of_le (by omega) _⟩

/-- Where the loop ends and every message is inside, the sizes part the packet: with a size
of zero the loop would stay where it is, and with an offset that wraps it would be at the
first message again. -/
theorem Safe.cut (htotal : total < 2^64) {fuel least : ℕ} {s r : Loop} (h : Safe m total s)
    (hr : loop m total fuel s = some r) (hfuel : fuel ≤ least)
    (hleast : ∀ f r, loop m total f ⟨0,[]⟩ = some r → least ≤ f) (halign : s.offset%4 = 0) :
    ∃ sizes, Cut m total s.offset sizes := by
  induction fuel generalizing s with
  | zero =>
    simp only [loop,Option.ite_none_left_eq_some,not_lt] at hr
    exact ⟨[],hr.1⟩
  | succ fuel ih =>
    by_cases hlt : s.offset < total
    · rw [loop_succ hlt] at hr
      obtain ⟨t,ht,hrest⟩ := Option.bind_eq_some_iff.mp hr
      have hinside := h.inside s .refl hlt
      obtain ⟨n,hn⟩ := Int.eq_ofNat_of_zero_le hinside.nonneg
      have hend := hinside.message
      have hmax : n+3 < 2^31 := by
        by_contra hbig
        rw [round,aligned,if_neg (by omega)] at ht
        contradiction
      have hbounds := padded_bounds n
      have hpadded : padded n%4 = 0 := Nat.mul_mod_left _ _
      have hoffset : t.offset = (s.offset+padded n)%2^64 := by
        rw [round,aligned_eq hn hmax,Option.map_some,Option.some.injEq] at ht
        rw [← ht]
        dsimp only
        omega
      by_cases hwrap : s.offset+padded n < 2^64
      · have hcut := ih (h.step ⟨hlt,ht⟩ ⟨fuel,r,hrest⟩) hrest (by omega) (by omega)
        rw [Nat.mod_eq_of_lt hwrap] at hoffset
        rw [hoffset] at hcut
        obtain ⟨sizes,hsizes⟩ := hcut
        rcases Nat.eq_zero_or_pos n with rfl | hpos
        · exact ⟨sizes,hsizes⟩
        · exact ⟨n::sizes,hn,hpos,hmax,hinside.header,by omega,hwrap,hsizes⟩
      · have hzero : t.offset = 0 := by omega
        obtain ⟨r',hr'⟩ := loop_offset (u := ⟨0,[]⟩) hzero hrest
        exact absurd (hleast _ _ hr') (by omega)
    · exact ⟨[],not_lt.mp hlt⟩

theorem safe_iff (htotal : total < 2^64) : Safe m total ⟨0,[]⟩ ↔ ∃ sizes, Cut m total 0 sizes := by
  refine ⟨fun h => ?_,fun ⟨sizes,h⟩ => Cut.safe (s := ⟨0,[]⟩) h⟩
  classical
  have hends := h.ends
  obtain ⟨r,hr⟩ := Nat.find_spec hends
  exact h.cut htotal hr le_rfl (fun f r hf => Nat.find_min' hends ⟨r,hf⟩) rfl

theorem bytes_sub {l : List UInt8} (h : bytes m p l.length = l) {i : ℕ} (hi : i < l.length) :
    m (p+i) = ofList l i := by
  rw [ofList,← getD_bytes m p hi,h]

theorem load32_message {l : List UInt8} (h : bytes m p l.length = l) {j : ℕ}
    (hj : j+4 ≤ l.length) : load32 m (p+j) = load32 (ofList l) j := by
  rw [load32,load32,← bytes_sub h (by omega),← bytes_sub h (by omega),← bytes_sub h (by omega),
    ← bytes_sub h (by omega)]
  simp only [Nat.add_assoc]

/-- A message at the offset is handled as it was sent, and the next one comes after its
padding. -/
theorem round_message {msg pad : List UInt8} (h : WellFormed msg pad)
    (hmsg : bytes m s.offset msg.length = msg) (hwrap : s.offset+padded msg.length < 2^64) :
    round m s = some ⟨s.offset+(msg.length+pad.length),
      s.handled++[(handler (type (ofList msg) 0),msg)]⟩ := by
  have hheader : messageHeaderSize = 12 := rfl
  have hmin := h.header
  have hmax := h.max
  have hword : load32 m s.offset = UInt32.ofNat msg.length :=
    (load32_message hmsg (j := 0) (by omega)).trans h.size
  have hsize : size m s.offset = msg.length := by
    have hnat : (UInt32.ofNat msg.length).toNat = msg.length := Nat.mod_eq_of_lt (by omega)
    rw [size,hword,VoodooMessage.toInt_toInt32 (by omega),hnat]
  have htype : type m s.offset = type (ofList msg) 0 := load32_message hmsg (j := 8) (by omega)
  rw [round_eq hsize hmax hwrap,h.pad,htype,message,hsize,Int.toNat_natCast,hmsg]

theorem loop_messages {msgs : List (List UInt8 × List UInt8)}
    (hmsgs : ∀ x ∈ msgs, WellFormed x.1 x.2) (htotal : total < 2^64) {k : ℕ}
    (hk : s.offset+k = total) (hbytes : bytes m s.offset k = msgs.flatMap fun x => x.1++x.2) :
    loop m total msgs.length s = some ⟨total,
      s.handled++msgs.map fun x => (handler (type (ofList x.1) 0),x.1)⟩ := by
  induction msgs generalizing s k with
  | nil =>
    have hzero : k = 0 := by simpa using congrArg List.length hbytes
    subst hzero
    obtain ⟨offset,handled⟩ := s
    obtain rfl : offset = total := hk
    simpa using loop_of_le (m := m) (s := ⟨offset,handled⟩) le_rfl 0
  | cons x msgs ih =>
    obtain ⟨msg,pad⟩ := x
    have hx : WellFormed msg pad := hmsgs _ List.mem_cons_self
    rw [List.flatMap_cons] at hbytes
    have hlength := congrArg List.length hbytes
    rw [length_bytes,List.length_append,List.length_append] at hlength
    have hpad : msg.length+pad.length = padded msg.length := hx.pad
    have hheader : messageHeaderSize = 12 := rfl
    have hmin : messageHeaderSize ≤ msg.length := hx.header
    dsimp only at hlength
    obtain ⟨hmsg,hrest⟩ : bytes m s.offset msg.length = msg ∧
        bytes m (s.offset+(msg.length+pad.length)) (k-(msg.length+pad.length)) =
          msgs.flatMap fun x => x.1++x.2 := by
      have hk : k = msg.length+(pad.length+(k-(msg.length+pad.length))) := by omega
      rw [hk,bytes_add,bytes_add,List.append_assoc] at hbytes
      obtain ⟨hmsg,hbytes⟩ := List.append_inj hbytes (length_bytes m _ _)
      rw [← Nat.add_assoc]
      exact ⟨hmsg,(List.append_inj hbytes (length_bytes m _ _)).2⟩
    rw [List.length_cons,loop_succ (by omega),round_message hx hmsg (by omega),Option.bind_some,
      ih (fun y hy => hmsgs y (List.mem_cons_of_mem _ hy)) (by dsimp only; omega) hrest]
    simp

end

/-- What `ProcessMessages` does with a packet that has these messages, each with its padding. -/
def Handles (m : Mem) (total : UInt64) (msgs : List (List UInt8 × List UInt8)) : Prop :=
  ∃ fuel, processMessages m total fuel =
    some ⟨total.toNat,msgs.map fun x => (handler (type (ofList x.1) 0),x.1)⟩

/-- The loop ends, and looks only at messages inside the packet, for the packets that can be cut
into messages, and no others. Of messages that were padded it handles each, in their order. -/
theorem process_messages_safe_iff (m : Mem) (total : UInt64) :
    (Safe m total.toNat ⟨0,[]⟩ ↔ ∃ sizes, Cut m total.toNat 0 sizes) ∧
    ∀ msgs : List (List UInt8 × List UInt8), (∀ x ∈ msgs, WellFormed x.1 x.2) →
      (bytes m 0 total.toNat = msgs.flatMap fun x => x.1++x.2) → Handles m total msgs :=
  ⟨safe_iff total.toNat_lt,fun msgs hmsgs hbytes => ⟨msgs.length,
    loop_messages hmsgs total.toNat_lt (s := ⟨0,[]⟩) (Nat.zero_add _) hbytes⟩⟩

theorem process_messages_safe_iff_padded : Handles (ofList [13,0,0,0,0,0,0,0,3,0,0,0,7,0,0,0]) 16
      [([13,0,0,0,0,0,0,0,3,0,0,0,7],[0,0,0])] :=
  (process_messages_safe_iff _ 16).2 [([13,0,0,0,0,0,0,0,3,0,0,0,7],[0,0,0])] (fun x hx => by
      obtain rfl := List.mem_singleton.mp hx
      exact ⟨by decide,by decide,by decide,by decide⟩) (by decide)

/-- A message of size zero is handled for ever. -/
theorem empty_message_stays : ¬ ∀ (m : Mem) (total : UInt64), Safe m total.toNat ⟨0,[]⟩ := by
  intro h
  obtain ⟨sizes,hsizes⟩ := (safe_iff (by decide)).mp (h (fun _ => 0) 12)
  obtain ⟨n,rest,rfl,hinside,hsize,-⟩ := hsizes.cons_of_lt (by decide)
  have hpos : 0 < n := hsizes.2.1
  have hzero : size (fun _ => 0) 0 = 0 := by decide
  omega

end VoodooDispatch
end DirectFB
