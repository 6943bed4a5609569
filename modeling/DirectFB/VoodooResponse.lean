import DirectFB.Reaches

/-! Requests and responses of a `VoodooManager`. Each thread numbers its request, sends it, and
waits for a response in the one place there is, which the dispatcher fills. -/
set_option linter.unusedSectionVars false
namespace DirectFB
namespace VoodooResponse
open Transition

/-- `VoodooResponseMessage`, with the serial of the request that it answers. -/
structure Response (β : Type*) where
  request : UInt32
  content : β

/-- Where a thread is: outside, having read `msg_serial`, having written it, on its way to
`response.lock`, waiting on `wait_get`, returned with the lock held, or having released the lock
and about to wake up the dispatcher, after which it may wait for another response. -/
inductive Pc (β : Type*)
  | idle
  | read (serial : UInt32)
  | numbered (serial : UInt32)
  | locking (serial : UInt32)
  | waiting (serial : UInt32)
  | holding (serial : UInt32) (response : Response β)
  | unlocked (next : Option UInt32)

/-- Where the dispatcher is in `handle_response`: outside, about to wake up the threads, about
to look if the response is gone, or waiting on `wait_put`. -/
inductive Dispatcher
  | idle
  | broadcast
  | check
  | waiting
  deriving DecidableEq

/-- The manager, its threads and the peer. `inbox` are responses that are yet to be handled.
What is kept of the past are the serials that were sent, the responses that arrived, and
who obtained which. -/
structure State (τ β : Type*) where
  msgSerial : UInt32
  pc : τ → Pc β
  holder : Option τ
  current : Option (Response β)
  dispatcher : Dispatcher
  inbox : List (Response β)
  sent : List UInt32
  arrived : List (Response β)
  obtained : List (τ × Response β)

variable {τ β : Type*} [DecidableEq τ]

def setPc (s : State τ β) (t : τ) (pc : Pc β) : State τ β := {s with pc := Function.update s.pc t pc}

/-- `lock_response`, up to where it returns or waits. -/
def lockResponse (s : State τ β) (t : τ) (serial : UInt32) : State τ β :=
  match s.current with
  | some r =>
    if r.request = serial then {setPc s t (.holding serial r) with
      holder := some t
      obtained := s.obtained++[(t,r)]}
    else setPc s t (.waiting serial)
  | none => setPc s t (.waiting serial)

/-- `unlock_response`, up to its broadcast. -/
def unlockResponse (s : State τ β) (t : τ) (next : Option UInt32) : State τ β :=
  {setPc s t (.unlocked next) with
    holder := none
    current := none}

/-- What a broadcast on `wait_get` makes of a thread. -/
def wokenUp : Pc β → Pc β
  | .waiting serial => .locking serial
  | pc => pc

inductive Event (τ β : Type*)
  | read (t : τ)
  | write (t : τ)
  | send (t : τ)
  | lock (t : τ)
  | wake (t : τ)
  | finish (t : τ)
  | next (t : τ)
  | broadcastPut (t : τ)
  | respond (r : Response β)
  | put
  | broadcastGet
  | check
  | wakePut

/-- A step of a thread, of the peer or of the dispatcher. Threads may wake up for no reason. -/
def step (s : State τ β) : Event τ β → Option (State τ β)
  | .read t =>
    match s.pc t with
    | .idle => some (setPc s t (.read s.msgSerial))
    | _ => none
  | .write t =>
    match s.pc t with
    | .read serial => some {setPc s t (.numbered serial) with msgSerial := serial+1}
    | _ => none
  | .send t =>
    match s.pc t with
    | .numbered serial => some {setPc s t (.locking serial) with sent := serial::s.sent}
    | _ => none
  | .lock t =>
    match s.pc t,s.holder with
    | .locking serial,none => some (lockResponse s t serial)
    | _,_ => none
  | .wake t =>
    match s.pc t with
    | .waiting serial => some (setPc s t (.locking serial))
    | _ => none
  | .finish t =>
    match s.pc t with
    | .holding _ _ => some (unlockResponse s t none)
    | _ => none
  | .next t =>
    match s.pc t with
    | .holding _ r => some (unlockResponse s t (some r.request))
    | _ => none
  | .broadcastPut t =>
    match s.pc t with
    | .unlocked next => some {setPc s t (next.elim .idle .locking) with
        dispatcher := if s.dispatcher = .waiting then .check else s.dispatcher}
    | _ => none
  | .respond r =>
    if r.request ∈ s.sent then some {s with
      inbox := s.inbox++[r]
      arrived := s.arrived++[r]}
    else none
  | .put =>
    match s.inbox with
    | [] => none
    | r::inbox =>
      if s.dispatcher = .idle ∧ s.holder.isNone then some {s with
        current := some r
        inbox := inbox
        dispatcher := .broadcast}
      else none
  | .broadcastGet =>
    if s.dispatcher = .broadcast then some {s with
      pc := fun t => wokenUp (s.pc t)
      dispatcher := .check}
    else none
  | .check =>
    if s.dispatcher = .check ∧ s.holder.isNone then
      some {s with dispatcher := if s.current.isSome then .waiting else .idle}
    else none
  | .wakePut => if s.dispatcher = .waiting then some {s with dispatcher := .check} else none

def Pc.serial : Pc β → Option UInt32
  | .idle => none
  | .read _ => none
  | .numbered serial => some serial
  | .locking serial => some serial
  | .waiting serial => some serial
  | .holding serial _ => some serial
  | .unlocked next => next

structure Initial (s : State τ β) : Prop where
  pc : ∀ t, s.pc t = .idle
  holder : s.holder = none
  current : s.current = none
  dispatcher : s.dispatcher = .idle
  inbox : s.inbox = []
  arrived : s.arrived = []
  obtained : s.obtained = []

/-- A thread reads `msg_serial` when no other one has read and not yet written it, and the
counter has not come round to a request that is still outstanding. -/
def Serialised (s : State τ β) : Event τ β → Prop
  | .read _ => (∀ t serial, s.pc t ≠ .read serial) ∧ ∀ t, (s.pc t).serial ≠ some s.msgSerial
  | _ => True

def pending (s : State τ β) : List (Response β) := if s.holder.isNone then s.current.toList else []

structure Inv (s : State τ β) : Prop where
  serial : ∀ t t' v, t ≠ t' → (s.pc t).serial = some v → (s.pc t').serial ≠ some v
  reader : ∀ t v, s.pc t = .read v → s.msgSerial = v ∧ (∀ t', (s.pc t').serial ≠ some v) ∧
    ∀ t' v', s.pc t' = .read v' → t' = t
  holding : ∀ t v r, s.pc t = .holding v r → s.holder = some t ∧ s.current = some r ∧ r.request = v
  holder : ∀ t, s.holder = some t → ∃ v r, s.pc t = .holding v r
  idle : s.dispatcher = .idle → s.current = none
  arrived : s.arrived = s.obtained.map Prod.snd++pending s++s.inbox
  awake : ∀ t v r, s.pc t = .waiting v → s.current = some r → r.request = v →
    s.dispatcher = .broadcast
  woken : s.dispatcher = .waiting → s.current = none → ∃ t next, s.pc t = .unlocked next

/-- All that a step can do. -/
inductive Move (s : State τ β) : Event τ β → State τ β → Prop
  | read (t : τ) : s.pc t = .idle → Move s (.read t) (setPc s t (.read s.msgSerial))
  | write (t : τ) (v : UInt32) : s.pc t = .read v →
      Move s (.write t) {setPc s t (.numbered v) with msgSerial := v+1}
  | send (t : τ) (v : UInt32) : s.pc t = .numbered v →
      Move s (.send t) {setPc s t (.locking v) with sent := v::s.sent}
  | lock (t : τ) (v : UInt32) : s.pc t = .locking v → s.holder = none →
      Move s (.lock t) (lockResponse s t v)
  | wake (t : τ) (v : UInt32) : s.pc t = .waiting v → Move s (.wake t) (setPc s t (.locking v))
  | finish (t : τ) (v : UInt32) (r : Response β) : s.pc t = .holding v r →
      Move s (.finish t) (unlockResponse s t none)
  | next (t : τ) (v : UInt32) (r : Response β) : s.pc t = .holding v r →
      Move s (.next t) (unlockResponse s t (some r.request))
  | broadcastPut (t : τ) (next : Option UInt32) : s.pc t = .unlocked next →
      Move s (.broadcastPut t) {setPc s t (next.elim .idle .locking) with
        dispatcher := if s.dispatcher = .waiting then .check else s.dispatcher}
  | respond (r : Response β) : r.request ∈ s.sent → Move s (.respond r) {s with
      inbox := s.inbox++[r]
      arrived := s.arrived++[r]}
  | put (r : Response β) (inbox : List (Response β)) : s.inbox = r::inbox →
      s.dispatcher = .idle → s.holder = none → Move s .put {s with
        current := some r
        inbox := inbox
        dispatcher := .broadcast}
  | broadcastGet : s.dispatcher = .broadcast → Move s .broadcastGet {s with
      pc := fun t => wokenUp (s.pc t)
      dispatcher := .check}
  | check : s.dispatcher = .check → s.holder = none →
      Move s .check {s with dispatcher := if s.current.isSome then .waiting else .idle}
  | wakePut : s.dispatcher = .waiting → Move s .wakePut {s with dispatcher := .check}

/-- Each step is a move. -/
theorem move_of_step {s u : State τ β} {e : Event τ β} (h : step s e = some u) : Move s e u := by
  cases e with
  | read t =>
    cases hpc : s.pc t <;> simp only [step,hpc] at h <;> cases h
    exact .read t hpc
  | write t =>
    cases hpc : s.pc t <;> simp only [step,hpc] at h <;> cases h
    exact .write t _ hpc
  | send t =>
    cases hpc : s.pc t <;> simp only [step,hpc] at h <;> cases h
    exact .send t _ hpc
  | lock t =>
    cases hpc : s.pc t <;> cases hfree : s.holder <;> simp only [step,hpc,hfree] at h <;> cases h
    exact .lock t _ hpc hfree
  | wake t =>
    cases hpc : s.pc t <;> simp only [step,hpc] at h <;> cases h
    exact .wake t _ hpc
  | finish t =>
    cases hpc : s.pc t <;> simp only [step,hpc] at h <;> cases h
    exact .finish t _ _ hpc
  | next t =>
    cases hpc : s.pc t <;> simp only [step,hpc] at h <;> cases h
    exact .next t _ _ hpc
  | broadcastPut t =>
    cases hpc : s.pc t <;> simp only [step,hpc] at h <;> cases h
    exact .broadcastPut t _ hpc
  | respond r =>
    simp only [step] at h
    split_ifs at h with hsent
    exact Option.some.inj h ▸ .respond r hsent
  | put =>
    simp only [step] at h
    cases hinbox : s.inbox with
    | nil => simp [hinbox] at h
    | cons r inbox =>
      simp only [hinbox] at h
      split_ifs at h with hok
      exact Option.some.inj h ▸ .put r inbox hinbox hok.1 (Option.isNone_iff_eq_none.mp hok.2)
  | broadcastGet =>
    simp only [step] at h
    split_ifs at h with hok
    exact Option.some.inj h ▸ .broadcastGet hok
  | check =>
    by_cases hok : s.dispatcher = .check ∧ s.holder.isNone
    · rw [step,if_pos hok] at h
      exact Option.some.inj h ▸ .check hok.1 (Option.isNone_iff_eq_none.mp hok.2)
    · rw [step,if_neg hok] at h
      cases h
  | wakePut =>
    simp only [step] at h
    split_ifs at h with hok
    exact Option.some.inj h ▸ .wakePut hok

section Steps

variable {s u : State τ β} {t : τ}

theorem setPc_pc (s : State τ β) (t x : τ) (pc : Pc β) :
    (setPc s t pc).pc x = if x = t then pc else s.pc x := by
  by_cases hx : x = t <;> simp [setPc,hx]

theorem setPc_same (s : State τ β) (t : τ) (pc : Pc β) : (setPc s t pc).pc t = pc := by
  rw [setPc_pc,if_pos rfl]

theorem setPc_other (s : State τ β) {t x : τ} (pc : Pc β) (h : x ≠ t) :
    (setPc s t pc).pc x = s.pc x := by
  rw [setPc_pc,if_neg h]

theorem unique_setPc (h : Inv s) {pc : Pc β}
    (hserial : ∀ v, pc.serial = some v → ∀ x, x ≠ t → (s.pc x).serial ≠ some v) (x y : τ)
    (v : UInt32) (hne : x ≠ y) (hx : ((setPc s t pc).pc x).serial = some v) :
    ((setPc s t pc).pc y).serial ≠ some v := by
  by_cases hxt : x = t
  · rw [hxt,setPc_same] at hx
    rw [setPc_other s pc (hxt ▸ hne.symm)]
    exact hserial v hx y (hxt ▸ hne.symm)
  · rw [setPc_other s pc hxt] at hx
    by_cases hyt : y = t
    · rw [hyt,setPc_same]
      exact fun hy => hserial v hy x hxt hx
    · rw [setPc_other s pc hyt]
      exact h.serial x y v hne hx

/-- A thread that goes on with its serial, or without, disturbs neither the others nor the one
that has read `msg_serial`. -/
theorem Inv.serials (h : Inv s) (t : τ) (pc : Pc β) (hread : ∀ v, pc ≠ .read v)
    (hsub : ∀ v, pc.serial = some v → (s.pc t).serial = some v) :
    (∀ x y v, x ≠ y → ((setPc s t pc).pc x).serial = some v →
      ((setPc s t pc).pc y).serial ≠ some v) ∧
    ∀ x v, (setPc s t pc).pc x = .read v → s.msgSerial = v ∧
      (∀ y, ((setPc s t pc).pc y).serial ≠ some v) ∧
      ∀ y v', (setPc s t pc).pc y = .read v' → y = x := by
  refine ⟨unique_setPc h fun v hv x hxt => h.serial t x v hxt.symm (hsub v hv),fun x v hx => ?_⟩
  have hxt : x ≠ t := by
    rintro rfl
    rw [setPc_same] at hx
    exact hread v hx
  rw [setPc_other s pc hxt] at hx
  obtain ⟨hn,hout,hunique⟩ := h.reader x v hx
  refine ⟨hn,fun y => ?_,fun y v' hy => ?_⟩
  · by_cases hyt : y = t
    · rw [hyt,setPc_same]
      exact fun hv => hout t (hsub v hv)
    · rw [setPc_other s pc hyt]
      exact hout y
  · by_cases hyt : y = t
    · rw [hyt,setPc_same] at hy
      exact absurd hy (hread v')
    · rw [setPc_other s pc hyt] at hy
      exact hunique y v' hy

/-- A thread goes on without the lock. It neither had nor gets a response, and is not to wake
up the dispatcher. -/
theorem Inv.move (h : Inv s) {pc : Pc β} {n : UInt32} (sent : List UInt32)
    (hold : ∀ v r, s.pc t ≠ .holding v r) (hunlocked : ∀ next, s.pc t ≠ .unlocked next)
    (hnew : ∀ v r, pc ≠ .holding v r)
    (hserial : ∀ v, pc.serial = some v → ∀ x, x ≠ t → (s.pc x).serial ≠ some v)
    (hreader : ∀ x v, (setPc s t pc).pc x = .read v → n = v ∧
      (∀ y, ((setPc s t pc).pc y).serial ≠ some v) ∧
      ∀ y v', (setPc s t pc).pc y = .read v' → y = x)
    (hawake : ∀ v r, pc = .waiting v → s.current = some r → r.request = v →
      s.dispatcher = .broadcast) :
    Inv {setPc s t pc with
      msgSerial := n
      sent := sent} := by
  refine ⟨unique_setPc h hserial,hreader,fun x v r hx => ?_,fun x hx => ?_,h.idle,h.arrived,
    fun x v r hx => ?_,fun hwaiting hnone => ?_⟩
  · by_cases hxt : x = t
    · rw [hxt,setPc_same] at hx
      exact absurd hx (hnew v r)
    · rw [setPc_other s pc hxt] at hx
      exact h.holding x v r hx
  · obtain ⟨v,r,hxr⟩ := h.holder x hx
    have hxt : x ≠ t := by
      rintro rfl
      exact hold v r hxr
    exact ⟨v,r,by rw [setPc_other s pc hxt,hxr]⟩
  · by_cases hxt : x = t
    · rw [hxt,setPc_same] at hx
      exact hawake v r hx
    · rw [setPc_other s pc hxt] at hx
      exact h.awake x v r hx
  · obtain ⟨x,next,hx⟩ := h.woken hwaiting hnone
    have hxt : x ≠ t := by
      rintro rfl
      exact hunlocked next hx
    exact ⟨x,next,by rw [setPc_other s pc hxt,hx]⟩

theorem Inv.keep (h : Inv s) {pc : Pc β} (sent : List UInt32)
    (hold : ∀ v r, s.pc t ≠ .holding v r) (hunlocked : ∀ next, s.pc t ≠ .unlocked next)
    (hnew : ∀ v r, pc ≠ .holding v r) (hread : ∀ v, pc ≠ .read v)
    (hsame : pc.serial = (s.pc t).serial)
    (hawake : ∀ v r, pc = .waiting v → s.current = some r → r.request = v →
      s.dispatcher = .broadcast) :
    Inv {setPc s t pc with sent := sent} :=
  h.move sent hold hunlocked hnew (fun v hv x hxt => h.serial t x v hxt.symm (hsame ▸ hv))
    (h.serials _ _ hread fun _ hv => hsame ▸ hv).2 hawake

theorem Inv.read (h : Inv s) (hpc : s.pc t = .idle) (hok : Serialised s (.read t)) :
    Inv (setPc s t (.read s.msgSerial)) := by
  obtain ⟨hreader,hout⟩ := hok
  refine h.move s.sent (by simp [hpc]) (by simp [hpc]) nofun nofun (fun x v hx => ?_) nofun
  by_cases hxt : x = t
  · rw [hxt,setPc_same] at hx
    obtain rfl := Pc.read.inj hx
    refine ⟨rfl,fun y => ?_,fun y v' hy => ?_⟩
    · by_cases hyt : y = t
      · rw [hyt,setPc_same]
        exact nofun
      · rw [setPc_other s _ hyt]
        exact hout y
    · by_contra hyx
      rw [setPc_other s _ (hxt ▸ hyx)] at hy
      exact hreader y v' hy
  · rw [setPc_other s _ hxt] at hx
    exact absurd hx (hreader x v)

theorem Inv.write (h : Inv s) {v : UInt32} (hpc : s.pc t = .read v) :
    Inv {setPc s t (.numbered v) with msgSerial := v+1} := by
  obtain ⟨-,hout,hunique⟩ := h.reader t v hpc
  refine h.move s.sent (by simp [hpc]) (by simp [hpc]) nofun (fun w hw x _ => ?_) (fun x w hx => ?_)
    nofun
  · obtain rfl := Option.some.inj hw
    exact hout x
  · have hxt : x ≠ t := by
      rintro rfl
      rw [setPc_same] at hx
      cases hx
    rw [setPc_other s _ hxt] at hx
    exact absurd (hunique x w hx) hxt

/-- The thread that finds its response gets it and keeps the lock. -/
theorem Inv.hold (h : Inv s) {v : UInt32} (hpc : s.pc t = .locking v) (hfree : s.holder = none)
    {r : Response β} (hcurrent : s.current = some r) (hr : r.request = v) :
    Inv {setPc s t (.holding v r) with
      holder := some t
      obtained := s.obtained++[(t,r)]} := by
  obtain ⟨hunique,hreader⟩ := h.serials t (.holding v r) nofun (fun w hw => by rw [hpc]; exact hw)
  refine ⟨hunique,hreader,fun x w q hx => ?_,fun x hx => ?_,h.idle,?_,fun x w q hx => ?_,
    fun hwaiting hn => ?_⟩
  · by_cases hxt : x = t
    · simp only [hxt,setPc_same,Pc.holding.injEq] at hx
      obtain ⟨rfl,rfl⟩ := hx
      exact ⟨by rw [hxt],hcurrent,hr⟩
    · simp only [setPc_other s _ hxt] at hx
      have := (h.holding x w q hx).1
      rw [hfree] at this
      cases this
  · obtain rfl := Option.some.inj hx
    exact ⟨v,r,setPc_same s t _⟩
  · have harrived := h.arrived
    simp only [pending,hfree,hcurrent,Option.isNone_none,Option.toList_some,if_true] at harrived
    simp only [pending,Option.isNone_some,Bool.false_eq_true,if_false,List.append_nil,
      List.map_append,List.map_cons,List.map_nil]
    exact harrived
  · have hxt : x ≠ t := by
      rintro rfl
      simp only [setPc_same] at hx
      cases hx
    simp only [setPc_other s _ hxt] at hx
    exact h.awake x w q hx
  · rw [show s.current = none from hn] at hcurrent
    cases hcurrent

theorem Inv.lock (h : Inv s) {v : UInt32} (hpc : s.pc t = .locking v) (hfree : s.holder = none) :
    Inv (lockResponse s t v) := by
  have hwait (hno : ∀ r, s.current = some r → r.request ≠ v) : Inv (setPc s t (.waiting v)) := by
    refine h.keep s.sent (by simp [hpc]) (by simp [hpc]) nofun nofun (by rw [hpc]; rfl) ?_
    rintro w r ⟨⟩ hcurrent hr
    exact absurd hr (hno r hcurrent)
  rw [lockResponse]
  cases hcurrent : s.current with
  | none => exact hwait (by simp [hcurrent])
  | some r =>
    simp only
    split_ifs with hr
    · exact h.hold hpc hfree hcurrent hr
    · refine hwait fun q hq => ?_
      rw [hcurrent] at hq
      exact Option.some.inj hq ▸ hr

theorem Inv.unlock (h : Inv s) {v : UInt32} {r : Response β} (hpc : s.pc t = .holding v r)
    {next : Option UInt32} (hnext : ∀ w, next = some w → w = v) :
    Inv (unlockResponse s t next) := by
  obtain ⟨hholder,hcurrent,-⟩ := h.holding t v r hpc
  obtain ⟨hunique,hreader⟩ := h.serials t (.unlocked next) nofun
    (fun w hw => by rw [hpc,hnext w hw]; rfl)
  refine ⟨hunique,hreader,fun x w q hx => ?_,nofun,fun hidle => ?_,?_,fun _ _ _ _ => nofun,
    fun _ _ => ⟨t,next,setPc_same s t _⟩⟩
  · have hxt : x ≠ t := by
      rintro rfl
      simp only [unlockResponse,setPc_same] at hx
      cases hx
    simp only [unlockResponse,setPc_other s _ hxt] at hx
    have hheld := (h.holding x w q hx).1
    rw [hholder] at hheld
    exact absurd (Option.some.inj hheld).symm hxt
  · rfl
  · have harrived := h.arrived
    simp only [pending,hholder,Option.isNone_some,Bool.false_eq_true,if_false] at harrived
    exact harrived

theorem Inv.broadcastPut (h : Inv s) {next : Option UInt32} (hpc : s.pc t = .unlocked next) :
    Inv {setPc s t (next.elim .idle .locking) with
      dispatcher := if s.dispatcher = .waiting then .check else s.dispatcher} := by
  have hnext : ∀ v r, (next.elim .idle .locking : Pc β) ≠ .holding v r ∧
      (next.elim .idle .locking : Pc β) ≠ .read v ∧
      (next.elim .idle .locking : Pc β) ≠ .waiting v := by
    cases next <;> exact fun _ _ => ⟨nofun,nofun,nofun⟩
  have hserial : (next.elim .idle .locking : Pc β).serial = next := by
    cases next <;> rfl
  obtain ⟨hunique,hreader⟩ := h.serials t (next.elim .idle .locking)
    (fun v hv => by cases next <;> cases hv) (fun w hw => by rw [hpc,← hserial]; exact hw)
  refine ⟨hunique,hreader,fun x v r hx => ?_,fun x hx => ?_,fun hidle => ?_,h.arrived,
    fun x v r hx => ?_,fun hwaiting => ?_⟩
  · by_cases hxt : x = t
    · simp only [hxt,setPc_same] at hx
      exact absurd hx (hnext v r).1
    · simp only [setPc_other s _ hxt] at hx
      exact h.holding x v r hx
  · obtain ⟨v,r,hxr⟩ := h.holder x hx
    have hxt : x ≠ t := by
      rintro rfl
      rw [hpc] at hxr
      cases hxr
    exact ⟨v,r,by simp only [setPc_other s _ hxt,hxr]⟩
  · simp only at hidle
    split_ifs at hidle
    exact h.idle hidle
  · by_cases hxt : x = t
    · simp only [hxt,setPc_same] at hx
      exact absurd hx (hnext v r).2.2
    · simp only [setPc_other s _ hxt] at hx
      intro hcurrent hr
      have hbroadcast := h.awake x v r hx hcurrent hr
      simp only [hbroadcast]
      rfl
  · simp only at hwaiting
    split_ifs at hwaiting with hw
    exact absurd hwaiting hw

theorem Inv.put (h : Inv s) {r : Response β} {inbox : List (Response β)}
    (hinbox : s.inbox = r::inbox) (hidle : s.dispatcher = .idle) (hfree : s.holder = none) :
    Inv {s with
      current := some r
      inbox := inbox
      dispatcher := .broadcast} := by
  refine ⟨h.serial,h.reader,fun t v q ht => ?_,h.holder,nofun,?_,fun _ _ _ _ _ _ => rfl,nofun⟩
  · have hheld := (h.holding t v q ht).1
    rw [hfree] at hheld
    cases hheld
  · have harrived := h.arrived
    simp only [pending,hfree,h.idle hidle,hinbox,Option.isNone_none,if_true,Option.toList_none,
      List.append_nil] at harrived
    simp only [pending,hfree,Option.isNone_none,if_true,Option.toList_some,List.append_assoc]
    exact harrived

theorem wokenUp_serial (pc : Pc β) : (wokenUp pc).serial = pc.serial := by
  cases pc <;> rfl

theorem wokenUp_eq_read {pc : Pc β} {v : UInt32} : wokenUp pc = .read v ↔ pc = .read v := by
  cases pc <;> simp [wokenUp]

theorem wokenUp_eq_holding {pc : Pc β} {v : UInt32} {r : Response β} :
    wokenUp pc = .holding v r ↔ pc = .holding v r := by
  cases pc <;> simp [wokenUp]

theorem Inv.broadcastGet (h : Inv s) : Inv {s with
    pc := fun t => wokenUp (s.pc t)
    dispatcher := .check} := by
  refine ⟨fun x y v => ?_,fun x v hx => ?_,fun x v r hx => ?_,fun x hx => ?_,nofun,h.arrived,
    fun x v r hx => ?_,nofun⟩
  · simp only [wokenUp_serial]
    exact h.serial x y v
  · simp only [wokenUp_eq_read] at hx
    simp only [wokenUp_serial,wokenUp_eq_read]
    exact h.reader x v hx
  · simp only [wokenUp_eq_holding] at hx
    exact h.holding x v r hx
  · simp only [wokenUp_eq_holding]
    exact h.holder x hx
  · simp only at hx
    cases hpc : s.pc x <;> rw [hpc] at hx <;> cases hx

theorem Inv.dispatcher (h : Inv s) {dispatcher : Dispatcher} (hold : s.dispatcher ≠ .broadcast)
    (hidle : dispatcher = .idle → s.current = none)
    (hwaiting : dispatcher = .waiting → s.current ≠ none) :
    Inv {s with dispatcher := dispatcher} := by
  refine ⟨h.serial,h.reader,h.holding,h.holder,hidle,h.arrived,fun t v r ht hcurrent hr => ?_,
    fun hw hnone => absurd hnone (hwaiting hw)⟩
  exact absurd (h.awake t v r ht hcurrent hr) hold

theorem Inv.step {e : Event τ β} (h : Inv s) (hok : Serialised s e)
    (hs : VoodooResponse.step s e = some u) : Inv u := by
  cases move_of_step hs with
  | read t hpc => exact h.read hpc hok
  | write t v hpc => exact h.write hpc
  | send t v hpc =>
    exact h.keep _ (by simp [hpc]) (by simp [hpc]) nofun nofun (by rw [hpc]; rfl) nofun
  | lock t v hpc hfree => exact h.lock hpc hfree
  | wake t v hpc =>
    exact h.keep s.sent (by simp [hpc]) (by simp [hpc]) nofun nofun (by rw [hpc]; rfl) nofun
  | finish t v r hpc => exact h.unlock hpc nofun
  | next t v r hpc =>
    refine h.unlock hpc fun w hw => ?_
    exact (Option.some.inj hw).symm.trans (h.holding t v r hpc).2.2
  | broadcastPut t next hpc => exact h.broadcastPut hpc
  | respond r _ =>
    refine ⟨h.serial,h.reader,h.holding,h.holder,h.idle,?_,h.awake,h.woken⟩
    simp only [h.arrived,List.append_assoc]
    rfl
  | put r inbox hinbox hidle hfree => exact h.put hinbox hidle hfree
  | broadcastGet _ => exact h.broadcastGet
  | check hcheck _ =>
    refine h.dispatcher (by simp [hcheck]) (fun hidle => ?_) fun hwaiting => ?_
    · split_ifs at hidle with hsome
      exact Option.not_isSome_iff_eq_none.mp hsome
    · split_ifs at hwaiting with hsome
      exact Option.isSome_iff_ne_none.mp hsome
  | wakePut hwaiting => exact h.dispatcher (by simp [hwaiting]) nofun nofun

theorem Inv.initial (h : Initial s) : Inv s := by
  refine ⟨fun t _ v _ ht => ?_,fun t v ht => ?_,fun t v r ht => ?_,fun t ht => ?_,
    fun _ => h.current,?_,fun t v r ht => ?_,fun hwaiting => ?_⟩
  · rw [h.pc] at ht
    cases ht
  · rw [h.pc] at ht
    cases ht
  · rw [h.pc] at ht
    cases ht
  · rw [h.holder] at ht
    cases ht
  · rw [h.arrived,h.obtained,pending,h.current,h.inbox]
    simp
  · rw [h.pc] at ht
    cases ht
  · rw [h.dispatcher] at hwaiting
    cases hwaiting

theorem Inv.reaches (h : Reaches VoodooResponse.step Serialised Initial s) : Inv s :=
  h.invariant Inv (fun _ => Inv.initial) fun _ _ _ hinv hok hs => hinv.step hok hs

/-- The place is filled when it is empty, and emptied by the thread that has the response. -/
theorem Inv.overwritten {e : Event τ β} (h : Inv s) (hs : VoodooResponse.step s e = some u) :
    u.current = s.current ∨ (e = .put ∧ s.current = none) ∨
    ∃ t v r, s.pc t = .holding v r ∧ (e = .finish t ∨ e = .next t) ∧ u.current = none := by
  cases move_of_step hs with
  | lock t v hpc hfree =>
    refine .inl ?_
    rw [lockResponse]
    split
    · split_ifs <;> rfl
    · rfl
  | finish t v r hpc => exact .inr (.inr ⟨t,v,r,hpc,.inl rfl,rfl⟩)
  | next t v r hpc => exact .inr (.inr ⟨t,v,r,hpc,.inr rfl,rfl⟩)
  | put r inbox hinbox hidle hfree => exact .inr (.inl ⟨rfl,h.idle hidle⟩)
  | _ => exact .inl rfl

theorem Inv.obtains {e : Event τ β} (h : Inv s) (hs : VoodooResponse.step s e = some u) :
    u.obtained = s.obtained ∨ ∃ t r, u.obtained = s.obtained++[(t,r)] ∧ s.current = some r ∧
      (s.pc t).serial = some r.request ∧ ∀ t', t' ≠ t → (s.pc t').serial ≠ some r.request := by
  cases move_of_step hs with
  | lock t v hpc hfree =>
    rw [lockResponse]
    cases hcurrent : s.current with
    | none => exact .inl rfl
    | some r =>
      simp only
      split_ifs with hr
      · have hserial : (s.pc t).serial = some r.request := by rw [hpc,hr]; rfl
        exact .inr ⟨t,r,rfl,rfl,hserial,fun x hx => h.serial t x _ hx.symm hserial⟩
      · exact .inl rfl
  | _ => exact .inl rfl

end Steps

/-- As long as `msg_serial` is read and written by one thread at a time, and does not come round
to the serial of an outstanding request, outstanding requests have different serials, the
place for a response is only overwritten when it is empty, each response is obtained by the
thread whose request it names, which has it until it finishes or asks for the next one, and
none is skipped: those obtained, the one in its place and those to come are all that arrived,
and nobody sleeps who should take or replace the one in its place. -/
theorem responses_delivered {s : State τ β} (h : Reaches step Serialised Initial s) :
    (∀ t t' v, t ≠ t' → (s.pc t).serial = some v → (s.pc t').serial ≠ some v) ∧
    (∀ e u, step s e = some u → u.current = s.current ∨ (e = .put ∧ s.current = none) ∨
      ∃ t v r, s.pc t = .holding v r ∧ (e = .finish t ∨ e = .next t) ∧ u.current = none) ∧
    (∀ e u, step s e = some u → u.obtained = s.obtained ∨ ∃ t r,
      u.obtained = s.obtained++[(t,r)] ∧ s.current = some r ∧ (s.pc t).serial = some r.request ∧
      ∀ t', t' ≠ t → (s.pc t').serial ≠ some r.request) ∧
    (∀ t v r, s.pc t = .holding v r → s.holder = some t ∧ s.current = some r ∧ r.request = v) ∧
    s.arrived = s.obtained.map Prod.snd++pending s++s.inbox ∧
    (∀ t v r, s.pc t = .waiting v → s.current = some r → r.request = v →
      s.dispatcher = .broadcast) ∧
    (s.dispatcher = .waiting → s.current = none → ∃ t next, s.pc t = .unlocked next) := by
  have hinv := Inv.reaches h
  exact ⟨hinv.serial,fun e u hs => hinv.overwritten hs,fun e u hs => hinv.obtains hs,hinv.holding,
    hinv.arrived,hinv.awake,hinv.woken⟩

section Runs

def quiet : State Bool ℕ where
  msgSerial := 0
  pc _ := .idle
  holder := none
  current := none
  dispatcher := .idle
  inbox := []
  sent := []
  arrived := []
  obtained := []

theorem quiet_initial : Initial quiet := ⟨fun _ => rfl,rfl,rfl,rfl,rfl,rfl,rfl⟩

/-- A request and its response. -/
theorem one_response_delivered : ∃ s, Reaches step Serialised Initial s ∧
    s.pc true = .holding 0 ⟨0,7⟩ ∧ s.holder = some true ∧ s.current = some ⟨0,7⟩ := by
  obtain ⟨s,hs,hpc⟩ : ∃ s, Reaches step Serialised Initial s ∧ s.pc true = .holding 0 ⟨0,7⟩ := by
    refine ⟨_,.step (.lock true) (.step .put (.step (.respond ⟨0,7⟩) (.step (.send true)
      (.step (.write true) (.step (.read true) (.init quiet_initial) ?_ rfl) trivial rfl) trivial
      rfl) trivial rfl) trivial rfl) trivial rfl,rfl⟩
    exact ⟨fun _ _ => nofun,fun _ => nofun⟩
  have hdelivered := (responses_delivered hs).2.2.2.1 true _ _ hpc
  exact ⟨s,hs,hpc,hdelivered.1,hdelivered.2.1⟩

/-- Two threads read `msg_serial` before one of them writes it. -/
theorem serial_given_twice : ∃ s : State Bool ℕ, Reaches step (fun _ _ => True) Initial s ∧
    (s.pc true).serial = some 0 ∧ (s.pc false).serial = some 0 := by
  obtain ⟨s,hs,htrue,hfalse⟩ : ∃ s, exec step quiet
      [.read true,.read false,.write true,.write false] = some s ∧
      (s.pc true).serial = some 0 ∧ (s.pc false).serial = some 0 := ⟨_,rfl,rfl,rfl⟩
  have hstart : Reaches step (fun _ _ => True) Initial quiet := .init quiet_initial
  exact ⟨s,hstart.exec (fun _ _ => trivial) hs,htrue,hfalse⟩

end Runs

end VoodooResponse

end DirectFB
