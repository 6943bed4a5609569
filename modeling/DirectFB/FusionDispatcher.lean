import Mathlib.Algebra.BigOperators.Group.Finset.Basic
import DirectFB.Reaches

/-! The event dispatcher of a single application. Threads append calls to the last of a
chain of buffers; one thread takes them out of the first, and frees a buffer when it is
used up. -/
namespace DirectFB.FusionDispatcher
open Function (update update_of_ne update_self)
open Transition

/-- `sizeof(FusionEventDispatcherCall)`, on a 64 bit system. -/
def callSize : ℕ := 80

/-- `EVENT_DISPATCHER_BUFFER_LENGTH` -/
def bufferLength : ℕ := 64*1024

/-- Who is to get a call, from `call_handler`, `call_handler3` or `reaction`. -/
inductive Kind
  | handler (arg : ℕ)
  | handler3 (arg : ℕ)
  | reaction (reactor channel : ℕ)
  | reactorFree (reactor : ℕ)
  deriving DecidableEq

/-- A `FusionEventDispatcherCall`. The caller `wants` a result when it gave a place for it. -/
structure Call where
  kind : Kind
  oneway : Bool
  length : ℕ
  wants : Bool
  fits : callSize+length ≤ bufferLength
  deriving DecidableEq

def Call.payload (c : Call) : ℕ := if c.oneway then c.length else 0

def align (n : ℕ) : ℕ := (n+3)/4*4

def after (p : ℕ) (c : Call) : ℕ := align (p+callSize+c.payload)

/-- A `FusionEventDispatcherBuffer`, with the calls written to it, each at its offset, and the
offsets of those that are `processed`. -/
structure Buffer where
  readPos : ℕ := 0
  writePos : ℕ := 0
  canFree : Bool := false
  syncCalls : ℕ := 0
  pending : ℕ := 0
  records : List (ℕ × Call) := []
  processed : List ℕ := []

def Buffer.push (b : Buffer) (c : Call) : Buffer :=
  {b with
    records := b.records++[(b.writePos,c)]
    writePos := after b.writePos c
    pending := b.pending+1
    syncCalls := b.syncCalls+if c.oneway then 0 else 1}

def Buffer.call? (b : Buffer) (p : ℕ) : Option Call :=
  (b.records.find? fun r => r.1 = p).map Prod.snd

/-- Where a thread that calls the dispatcher is. -/
inductive Thread
  | idle
  /-- waits for buffers to be used up -/
  | limited (c : Call)
  /-- waits for its call to be processed -/
  | waiting (b p : ℕ) (wants : Bool)
  /-- is to drop its `sync_calls` -/
  | counting (b p : ℕ) (wants : Bool)
  /-- is to read the result of its call -/
  | reading (b p : ℕ)
  deriving DecidableEq

/-- Where the dispatcher is. It waits for a buffer or for a message, and may have been
signalled since. -/
inductive Dispatcher
  | top
  | noBuffer (woken : Bool)
  | noMessage (woken : Bool)
  | handling (b p : ℕ) (c : Call)
  | handled (b p : ℕ) (c : Call)
  | processed (b : ℕ)
  /-- it took bytes for a call that nobody wrote -/
  | garbage (b p : ℕ)
  /-- it took the first of no buffers -/
  | null
  deriving DecidableEq

structure Message where
  buffer : ℕ
  offset : ℕ
  call : Call
  deriving DecidableEq

structure State (τ : Type*) where
  store : ℕ → Buffer
  buffers : List ℕ
  remove : List ℕ
  freed : List ℕ
  next : ℕ
  free : ℕ → Bool
  dispatcher : Dispatcher
  thread : τ → Thread
  queued : List Message
  handled : List Message

variable {τ : Type*}

/-- `direct_waitqueue_signal( &world->event_dispatcher_cond )` -/
def signal : Dispatcher → Dispatcher
  | .noBuffer _ => .noBuffer true
  | .noMessage _ => .noMessage true
  | d => d

def alloc (x : State τ) : State τ :=
  {x with
    store := update x.store x.next {}
    buffers := x.buffers++[x.next]
    next := x.next+1}

def allowFree (x : State τ) (b : ℕ) : State τ :=
  {x with store := update x.store b {x.store b with canFree := true}}

def room (x : State τ) (c : Call) : State τ :=
  let x := if x.buffers = [] then alloc x else x
  let b := x.buffers.getLastD 0
  if bufferLength < (x.store b).writePos+callSize+c.length then alloc (allowFree x b) else x

section Step
variable [DecidableEq τ]

def write (x : State τ) (t : τ) (b : ℕ) (c : Call) : State τ :=
  let p := (x.store b).writePos
  {x with
    store := update x.store b ((x.store b).push c)
    queued := x.queued++[⟨b,p,c⟩]
    dispatcher := signal x.dispatcher
    thread := update x.thread t (if c.oneway then .idle else .waiting b p c.wants)}

def append (x : State τ) (t : τ) (c : Call) : State τ :=
  write (room x c) t ((room x c).buffers.getLastD 0) c

def limit (x : State τ) (c : Call) : Bool :=
  match c.kind with
  | .handler3 _ => c.oneway && 4 < x.buffers.length
  | _ => false

/-- `_fusion_event_dispatcher_process`, until the call is written. -/
def process (x : State τ) (t : τ) (c : Call) : State τ :=
  if limit x c then {x with thread := update x.thread t (.limited c)}
  else append x t c

/-- `_fusion_event_dispatcher_process_reactions` -/
def processReactions (x : State τ) (t : τ) (reactor channel size : ℕ)
    (h : callSize+size ≤ bufferLength) : State τ :=
  append x t ⟨.reaction reactor channel,true,size,false,h⟩

/-- `_fusion_event_dispatcher_process_reactor_free` -/
def processReactorFree (x : State τ) (t : τ) (reactor : ℕ) : State τ :=
  if x.free reactor then x
  else append {x with free := update x.free reactor true} t
    ⟨.reactorFree reactor,true,0,false,by decide⟩

def fetch (x : State τ) (b : ℕ) : State τ :=
  let buf := x.store b
  match buf.call? buf.readPos with
  | some c => {x with
    store := update x.store b {buf with readPos := after buf.readPos c}
    dispatcher := .handling b buf.readPos c}
  | none => {x with dispatcher := .garbage b buf.readPos}

def Buffer.usedUp (b : Buffer) : Bool := b.canFree && b.readPos = b.writePos

def scan (x : State τ) : List ℕ → State τ
  | [] => {x with buffers := [], dispatcher := .noBuffer false}
  | b::rest =>
    if (x.store b).usedUp then scan {x with remove := x.remove++[b]} rest
    else if (x.store b).writePos ≤ (x.store b).readPos then
      {x with buffers := b::rest, dispatcher := .noMessage false}
    else fetch {x with buffers := b::rest} b

def resume (x : State τ) : State τ :=
  match x.dispatcher, x.buffers with
  | .noBuffer _, [] => {x with dispatcher := .null}
  | .noBuffer _, buffers => scan x buffers
  | .noMessage _, [] => {x with dispatcher := .null}
  | .noMessage _, b::rest =>
    if (x.store b).usedUp then scan {x with remove := x.remove++[b]} rest else fetch x b
  | _, _ => x

/-- The buffer that the dispatcher frees after a call in the buffer `b`. -/
def freeable (x : State τ) (b : ℕ) : Option ℕ :=
  match x.remove with
  | [] => none
  | r::_ =>
    if (x.store r).syncCalls = 0 ∧ (x.store r).pending-(if r = b then 1 else 0) = 0 then some r
    else none

def finish (x : State τ) (b : ℕ) : State τ :=
  let y := {x with
    store := update x.store b {x.store b with pending := (x.store b).pending-1}
    dispatcher := .top}
  match freeable x b with
  | some r => {y with remove := y.remove.tail, freed := y.freed++[r]}
  | none => y

inductive Event (τ : Type*)
  | process (t : τ) (c : Call)
  | retry (t : τ)
  | reactions (t : τ) (reactor channel size : ℕ)
  | reactorFree (t : τ) (reactor : ℕ)
  | wake (t : τ)
  | count (t : τ)
  | read (t : τ)
  | loop
  | spurious
  | handle
  | processed
  | finish

/-- A thread or the dispatcher comes to the end of its next mutex section. -/
def step (x : State τ) : Event τ → Option (State τ)
  | .process t c => if x.thread t = .idle then some (process x t c) else none
  | .retry t =>
    match x.thread t with
    | .limited c => some (process x t c)
    | _ => none
  | .reactions t reactor channel size =>
    if h : callSize+size ≤ bufferLength then
      if x.thread t = .idle then some (processReactions x t reactor channel size h) else none
    else none
  | .reactorFree t reactor =>
    if x.thread t = .idle then some (processReactorFree x t reactor) else none
  | .wake t =>
    match x.thread t with
    | .waiting b p wants => some {x with
        thread := update x.thread t (if p ∈ (x.store b).processed then .counting b p wants
          else .waiting b p wants)}
    | _ => none
  | .count t =>
    match x.thread t with
    | .counting b p wants => some {x with
        store := update x.store b {x.store b with syncCalls := (x.store b).syncCalls-1}
        thread := update x.thread t (if wants then .reading b p else .idle)}
    | _ => none
  | .read t =>
    match x.thread t with
    | .reading _ _ => some {x with thread := update x.thread t .idle}
    | _ => none
  | .loop =>
    match x.dispatcher with
    | .top => some (scan x x.buffers)
    | .noBuffer true | .noMessage true => some (resume x)
    | _ => none
  | .spurious =>
    match x.dispatcher with
    | .noBuffer false | .noMessage false => some (resume x)
    | _ => none
  | .handle =>
    match x.dispatcher with
    | .handling b p c => some {x with
        dispatcher := .handled b p c
        handled := x.handled++[⟨b,p,c⟩]}
    | _ => none
  | .processed =>
    match x.dispatcher with
    | .handled b p c => some {x with
        store := if c.oneway then x.store else
          update x.store b {x.store b with processed := p::(x.store b).processed}
        dispatcher := .processed b}
    | _ => none
  | .finish =>
    match x.dispatcher with
    | .processed b => some (finish x b)
    | _ => none

end Step

def init (x : State τ) : Prop :=
  x = ⟨fun _ => {},[],[],[],0,fun _ => false,.top,fun _ => .idle,[],[]⟩

def Reads (t : Thread) (b : ℕ) : Prop := ∃ p, t = .reading b p

def Kept (x : State τ) : Event τ → Prop
  | .spurious => False
  | .finish => ∀ b r, x.dispatcher = .processed b → freeable x b = some r →
      ∀ t, ¬ Reads (x.thread t) r
  | _ => True

theorem le_align (n : ℕ) : n ≤ align n := by
  unfold align
  omega

theorem Call.payload_le (c : Call) : c.payload ≤ c.length := by
  unfold Call.payload
  split_ifs
  · exact le_rfl
  · exact Nat.zero_le _

theorem lt_after (p : ℕ) (c : Call) : p < after p c := by
  have := le_align (p+callSize+c.payload)
  unfold after callSize at *
  omega

def Laid : ℕ → List (ℕ × Call) → ℕ → Prop
  | p, [], q => p = q
  | p, r::rest, q => r.1 = p ∧ p+callSize+r.2.payload ≤ bufferLength ∧ Laid (after p r.2) rest q

variable (x : State τ) {p q : ℕ} {l l' : List (ℕ × Call)} {c : Call} {b : Buffer}

theorem Laid.append (h : Laid p l q)
    (hfit : q+callSize+c.payload ≤ bufferLength) : Laid p (l++[(q,c)]) (after q c) := by
  induction l generalizing p with
  | nil =>
    obtain rfl : p = q := h
    exact ⟨rfl,hfit,rfl⟩
  | cons r rest ih => exact ⟨h.1,h.2.1,ih h.2.2⟩

theorem Laid.le (h : Laid p l q) : p ≤ q := by
  induction l generalizing p with
  | nil => exact le_of_eq h
  | cons r rest ih => exact (lt_after p r.2).le.trans (ih h.2.2)

theorem Laid.mem (h : Laid p l q) {r : ℕ × Call} (hr : r ∈ l) :
    p ≤ r.1 ∧ after r.1 r.2 ≤ q ∧ r.1+callSize+r.2.payload ≤ bufferLength := by
  induction l generalizing p with
  | nil => cases hr
  | cons s rest ih =>
    obtain ⟨hs,hfit,hrest⟩ := h
    rcases List.mem_cons.mp hr with rfl | hr
    · rw [hs]
      exact ⟨le_rfl,hrest.le,hfit⟩
    · obtain ⟨hp,hq⟩ := ih hrest hr
      exact ⟨(lt_after p s.2).le.trans hp,hq⟩

theorem Laid.split (h : Laid p l q) {u : ℕ} (h' : Laid q l' u) : Laid p (l++l') u := by
  induction l generalizing p with
  | nil =>
    obtain rfl : p = q := h
    exact h'
  | cons r rest ih => exact ⟨h.1,h.2.1,ih h.2.2⟩

def Buffer.todo (b : Buffer) : List (ℕ × Call) := b.records.filter fun r => b.readPos ≤ r.1

def Buffer.Good (b : Buffer) : Prop :=
  ∃ l, b.records = l++b.todo ∧ Laid 0 l b.readPos ∧ Laid b.readPos b.todo b.writePos

theorem Buffer.todo_eq (h : b.records = l++l')
    (hl : Laid 0 l b.readPos) (hl' : Laid b.readPos l' b.writePos) : b.todo = l' := by
  unfold Buffer.todo
  rw [h,List.filter_append,List.filter_eq_nil_iff.mpr,List.filter_eq_self.mpr,List.nil_append]
  · intro r hr
    simpa using (hl'.mem hr).1
  · intro r hr
    have := (hl.mem hr).2.1
    have := lt_after r.1 r.2
    simp only [decide_eq_true_eq]
    omega

theorem Buffer.good_of (h : b.records = l++l')
    (hl : Laid 0 l b.readPos) (hl' : Laid b.readPos l' b.writePos) : b.Good := by
  have := Buffer.todo_eq h hl hl'
  exact ⟨l,by rw [this,h],hl,by rwa [this]⟩

theorem Buffer.Good.laid (h : b.Good) : Laid 0 b.records b.writePos := by
  obtain ⟨l,hl,hdone,htodo⟩ := h
  rw [hl]
  exact hdone.split htodo

theorem Buffer.Good.push (h : b.Good)
    (hfit : b.writePos+callSize+c.payload ≤ bufferLength) :
    (b.push c).Good ∧ (b.push c).todo = b.todo++[(b.writePos,c)] := by
  obtain ⟨l,hl,hdone,htodo⟩ := h
  have hrec : (b.push c).records = l++(b.todo++[(b.writePos,c)]) := by
    rw [← List.append_assoc,← hl]
    rfl
  have hlaid : Laid (b.push c).readPos (b.todo++[(b.writePos,c)]) (b.push c).writePos :=
    htodo.append hfit
  exact ⟨Buffer.good_of hrec hdone hlaid,Buffer.todo_eq hrec hdone hlaid⟩

theorem Buffer.Good.todo_nil (h : b.Good) : b.todo = [] ↔ b.writePos ≤ b.readPos := by
  obtain ⟨l,_,_,htodo⟩ := h
  constructor
  · intro hnil
    rw [hnil] at htodo
    exact ge_of_eq htodo
  · intro hle
    cases hb : b.todo with
    | nil => rfl
    | cons r rest =>
      rw [hb] at htodo
      have := htodo.2.2.le
      have := lt_after b.readPos r.2
      omega

theorem Buffer.Good.call? (h : b.Good) : b.call? b.readPos = b.todo.head?.map Prod.snd := by
  obtain ⟨l,hl,hdone,htodo⟩ := h
  have hnone : l.find? (fun r => r.1 = b.readPos) = none := by
    rw [List.find?_eq_none]
    intro r hr
    have := (hdone.mem hr).2.1
    have := lt_after r.1 r.2
    simp only [decide_eq_true_eq]
    omega
  unfold Buffer.call?
  rw [hl,List.find?_append,hnone,Option.none_or]
  cases hb : b.todo with
  | nil => rfl
  | cons r rest =>
    rw [hb] at htodo
    rw [List.find?_cons_of_pos (by simpa using htodo.1)]
    rfl

def current : Dispatcher → List Message
  | .handling b p c => [⟨b,p,c⟩]
  | _ => []

def todo (x : State τ) : List Message :=
  x.buffers.flatMap fun b => (x.store b).todo.map fun r => ⟨b,r.1,r.2⟩

def Dispatcher.Uses : Dispatcher → ℕ → Prop
  | .handling b' _ _, b | .handled b' _ _, b | .processed b', b => b' = b
  | _, _ => False

structure Chain (x : State τ) : Prop where
  order : x.freed++x.remove++x.buffers = List.range x.next
  good : ∀ b, (x.store b).Good
  full : ∀ l b, x.buffers = l++[b] → ∀ b' ∈ l, (x.store b').canFree
  queue : x.queued = x.handled++current x.dispatcher++todo x
  placed : ∀ m ∈ x.queued, m.buffer < x.next ∧ (m.offset,m.call) ∈ (x.store m.buffer).records
  once : x.queued.Nodup
  busy : ∀ b, x.dispatcher.Uses b → b ∈ x.buffers

theorem Chain.nodup {x : State τ} (h : Chain x) : (x.freed++x.remove++x.buffers).Nodup := by
  rw [h.order]
  exact List.nodup_range

theorem Chain.lt {x : State τ} (h : Chain x) {b : ℕ} (hb : b ∈ x.buffers) : b < x.next := by
  have : b ∈ List.range x.next := by
    rw [← h.order]
    exact List.mem_append_right _ hb
  exact List.mem_range.mp this

theorem Chain.not_freed {x : State τ} (h : Chain x) {b : ℕ} (hb : b ∈ x.buffers) : b ∉ x.freed := by
  intro hf
  exact (List.nodup_append.mp h.nodup).2.2 b (List.mem_append_left _ hf) b hb rfl

theorem todo_congr {x y : State τ} (hbuf : y.buffers = x.buffers)
    (hstore : ∀ b ∈ x.buffers, (y.store b).todo = (x.store b).todo) : todo y = todo x := by
  unfold todo
  rw [hbuf]
  exact List.flatMap_congr fun b hb => by rw [hstore b hb]

def Buffer.text (b : Buffer) : ℕ × ℕ × Bool × List (ℕ × Call) :=
  (b.readPos,b.writePos,b.canFree,b.records)

theorem Buffer.todo_of_text {b c : Buffer} (h : b.text = c.text) : b.todo = c.todo := by
  simp only [Buffer.text,Prod.mk.injEq] at h
  unfold Buffer.todo
  rw [h.1,h.2.2.2]

theorem Buffer.Good.of_text {b c : Buffer} (hc : c.Good) (h : b.text = c.text) : b.Good := by
  obtain ⟨l,hl,hdone,htodo⟩ := hc
  have ht := Buffer.todo_of_text h
  simp only [Buffer.text,Prod.mk.injEq] at h
  exact ⟨l,by rw [h.2.2.2,ht,hl],by rwa [h.1],by rwa [h.1,h.2.1,ht]⟩

/-- A step that neither writes nor takes a call, and looks for none. -/
theorem Chain.congr {x y : State τ} (h : Chain x)
    (hstore : ∀ b, (y.store b).text = (x.store b).text) (hbuf : y.buffers = x.buffers)
    (hremove : y.freed++y.remove = x.freed++x.remove) (hnext : y.next = x.next)
    (hqueued : y.queued = x.queued)
    (hhandled : y.handled++current y.dispatcher = x.handled++current x.dispatcher)
    (huses : ∀ b, y.dispatcher.Uses b → x.dispatcher.Uses b) : Chain y where
  order := by rw [hremove,hbuf,hnext,h.order]
  good b := (h.good b).of_text (hstore b)
  full l b hl b' hb' := by
    have ht := hstore b'
    simp only [Buffer.text,Prod.mk.injEq] at ht
    rw [ht.2.2.1]
    exact h.full l b (hbuf ▸ hl) b' hb'
  queue := by
    rw [hqueued,hhandled,todo_congr hbuf fun b _ => Buffer.todo_of_text (hstore b),h.queue]
  placed m hm := by
    have ht := hstore m.buffer
    simp only [Buffer.text,Prod.mk.injEq] at ht
    rw [hnext,ht.2.2.2]
    exact h.placed m (hqueued ▸ hm)
  once := by rw [hqueued]; exact h.once
  busy b hb := by rw [hbuf]; exact h.busy b (huses b hb)

theorem Chain.alloc {x : State τ} (h : Chain x) (hfull : ∀ b ∈ x.buffers, (x.store b).canFree) :
    Chain (alloc x) := by
  have hne : ∀ b ∈ x.buffers, b ≠ x.next := fun b hb => (h.lt hb).ne
  have hold : ∀ b, b ≠ x.next → (FusionDispatcher.alloc x).store b = x.store b :=
    fun b hb => update_of_ne hb _ _
  have hnew : (FusionDispatcher.alloc x).store x.next = {} := update_self _ _ _
  constructor
  · change x.freed++x.remove++(x.buffers++[x.next]) = List.range (x.next+1)
    rw [← List.append_assoc,h.order,List.range_succ]
  · intro b
    rcases eq_or_ne b x.next with rfl | hb
    · rw [hnew]
      exact ⟨[],rfl,rfl,rfl⟩
    · rw [hold b hb]
      exact h.good b
  · intro l b hl b' hb'
    obtain ⟨rfl,_⟩ := List.append_inj' (show x.buffers++[x.next] = l++[b] from hl) rfl
    rw [hold b' (hne b' hb')]
    exact hfull b' hb'
  · have htodo : todo (FusionDispatcher.alloc x) = todo x := by
      change List.flatMap _ (x.buffers++[x.next]) = _
      rw [List.flatMap_append,List.flatMap_singleton,hnew]
      unfold todo
      rw [List.flatMap_congr fun b hb => by rw [hold b (hne b hb)]]
      exact List.append_nil _
    rw [htodo]
    exact h.queue
  · intro m hm
    obtain ⟨hlt,hrec⟩ := h.placed m hm
    refine ⟨Nat.lt_succ_of_lt hlt,?_⟩
    rwa [hold _ hlt.ne]
  · exact h.once
  · intro b hb
    exact List.mem_append_left _ (h.busy b hb)

theorem Chain.allowFree {x : State τ} (h : Chain x) (b : ℕ) : Chain (allowFree x b) := by
  have hsame : ∀ b', ((FusionDispatcher.allowFree x b).store b').records = (x.store b').records ∧
      ((FusionDispatcher.allowFree x b).store b').todo = (x.store b').todo ∧
      ((x.store b').canFree → ((FusionDispatcher.allowFree x b).store b').canFree) ∧
      ((FusionDispatcher.allowFree x b).store b').Good := by
    intro b'
    change (update x.store b _ b').records = _ ∧ (update x.store b _ b').todo = _ ∧
      (_ → (update x.store b _ b').canFree) ∧ (update x.store b _ b').Good
    rcases eq_or_ne b' b with rfl | hb
    · rw [update_self]
      exact ⟨rfl,rfl,fun _ => rfl,h.good b'⟩
    · rw [update_of_ne hb]
      exact ⟨rfl,rfl,id,h.good b'⟩
  constructor
  · exact h.order
  · exact fun b' => (hsame b').2.2.2
  · exact fun l a hl b' hb' => (hsame b').2.2.1 (h.full l a hl b' hb')
  · have htodo : todo (FusionDispatcher.allowFree x b) = todo x :=
      todo_congr rfl fun b' _ => (hsame b').2.1
    rw [htodo]
    exact h.queue
  · intro m hm
    rw [(hsame m.buffer).1]
    exact h.placed m hm
  · exact h.once
  · exact h.busy

theorem current_signal (d : Dispatcher) : current (signal d) = current d := by
  cases d <;> rfl

theorem uses_signal {d : Dispatcher} {b : ℕ} : (signal d).Uses b ↔ d.Uses b := by
  cases d <;> rfl

theorem Chain.write [DecidableEq τ] {x : State τ} {l : List ℕ} {b : ℕ} (h : Chain x)
    (t : τ) (hlast : x.buffers = l++[b])
    (hfit : (x.store b).writePos+callSize+c.payload ≤ bufferLength) : Chain (write x t b c) := by
  have hold : ∀ b', b' ≠ b → (FusionDispatcher.write x t b c).store b' = x.store b' :=
    fun b' hb => update_of_ne hb _ _
  have hself : (FusionDispatcher.write x t b c).store b = (x.store b).push c :=
    update_self _ _ _
  obtain ⟨hgood,htodo⟩ := (h.good b).push hfit
  have hnot : b ∉ l := by
    have := h.nodup
    rw [hlast,← List.append_assoc] at this
    exact fun hb => (List.nodup_append.mp this).2.2 b (List.mem_append_right _ hb) b
      List.mem_cons_self rfl
  have hnew : (⟨b,(x.store b).writePos,c⟩ : Message) ∉ x.queued := by
    intro hm
    have := ((h.good b).laid.mem (h.placed _ hm).2).2.1
    have := lt_after (x.store b).writePos c
    dsimp only at *
    omega
  constructor
  · exact h.order
  · intro b'
    rcases eq_or_ne b' b with rfl | hb
    · rw [hself]
      exact hgood
    · rw [hold b' hb]
      exact h.good b'
  · intro l' a hl b' hb'
    obtain ⟨rfl,_⟩ := List.append_inj' (hlast.symm.trans hl) rfl
    rw [hold b' fun hb => hnot (hb ▸ hb')]
    exact h.full l b hlast b' hb'
  · have hmap : todo (FusionDispatcher.write x t b c) = todo x++[⟨b,(x.store b).writePos,c⟩] := by
      have hprev : l.flatMap (fun b' => ((FusionDispatcher.write x t b c).store b').todo.map
          fun r => (⟨b',r.1,r.2⟩ : Message)) = l.flatMap fun b' => (x.store b').todo.map
          fun r => (⟨b',r.1,r.2⟩ : Message) :=
        List.flatMap_congr fun b' hb' => by rw [hold b' fun hb => hnot (hb ▸ hb')]
      unfold todo
      rw [show (FusionDispatcher.write x t b c).buffers = x.buffers from rfl,hlast,
        List.flatMap_append,List.flatMap_append,hprev,List.flatMap_singleton,
        List.flatMap_singleton,hself,htodo,List.map_append,List.append_assoc]
      rfl
    rw [hmap]
    change x.queued++_ = x.handled++current (signal x.dispatcher)++_
    rw [current_signal,← List.append_assoc,← h.queue]
  · intro m hm
    rcases List.mem_append.mp hm with hm | hm
    · obtain ⟨hlt,hmem⟩ := h.placed m hm
      refine ⟨hlt,?_⟩
      rcases eq_or_ne m.buffer b with hb | hb
      · rw [hb] at hmem ⊢
        rw [hself]
        exact List.mem_append_left _ hmem
      · rwa [hold _ hb]
    · obtain rfl := List.mem_singleton.mp hm
      refine ⟨h.lt (by rw [hlast]; simp),?_⟩
      dsimp only
      rw [hself]
      exact List.mem_append_right _ List.mem_cons_self
  · change (x.queued++[_]).Nodup
    rw [List.nodup_append]
    refine ⟨h.once,List.nodup_singleton _,?_⟩
    rintro m hm m' hm' rfl
    obtain rfl := List.mem_singleton.mp hm'
    exact hnew hm
  · intro b' hb'
    exact h.busy b' (uses_signal.mp hb')

/-- A call is written to the last buffer, or to a new one if there was none or no room. -/
theorem room_cases (c : Call) : ∃ l b, (room x c).buffers = l++[b] ∧
    ((room x c).store b).writePos+callSize+c.length ≤ bufferLength ∧
    (room x c = x ∨ x.buffers = [] ∧ room x c = alloc x ∨
      ∃ l' b', x.buffers = l'++[b'] ∧ room x c = alloc (allowFree x b')) := by
  have hfresh : ∀ y : State τ, ((alloc y).store y.next).writePos+callSize+c.length ≤
      bufferLength := by
    intro y
    rw [show (alloc y).store y.next = {} from update_self _ _ _,Nat.zero_add]
    exact c.fits
  rcases List.eq_nil_or_concat x.buffers with hnil | ⟨l,b,hb⟩
  · have hroom : room x c = alloc x := by
      have hlast : (alloc x).buffers.getLastD 0 = x.next := by
        change (x.buffers++[x.next]).getLastD 0 = _
        rw [hnil]
        rfl
      unfold room
      rw [if_pos hnil]
      dsimp only
      rw [hlast,if_neg (Nat.not_lt.mpr (hfresh x))]
    rw [hroom]
    exact ⟨[],x.next,by change x.buffers++_ = _; rw [hnil],hfresh x,.inr (.inl ⟨hnil,rfl⟩)⟩
  · have hb' : x.buffers = l++[b] := by rw [hb,List.concat_eq_append]
    have hne : x.buffers ≠ [] := by simp [hb']
    have hlast : x.buffers.getLastD 0 = b := by simp [hb']
    unfold room
    rw [if_neg hne]
    dsimp only
    rw [hlast]
    split_ifs with hfull
    · refine ⟨x.buffers,x.next,rfl,hfresh (allowFree x b),.inr (.inr ⟨l,b,hb',rfl⟩)⟩
    · exact ⟨l,b,hb',Nat.not_lt.mp hfull,.inl rfl⟩

theorem Chain.room {x : State τ} (h : Chain x) (c : Call) : Chain (room x c) := by
  obtain ⟨_,_,_,_,hx | ⟨hnil,hx⟩ | ⟨l,b,hb,hx⟩⟩ := room_cases x c
  · rw [hx]
    exact h
  · rw [hx]
    exact h.alloc fun b hb => by rw [hnil] at hb; cases hb
  · rw [hx]
    refine (h.allowFree b).alloc fun b' hb' => ?_
    change (update x.store b _ b').canFree
    rcases eq_or_ne b' b with rfl | hne
    · rw [update_self]
    · rw [update_of_ne hne]
      rw [show (FusionDispatcher.allowFree x b).buffers = x.buffers from rfl,hb] at hb'
      have hl : b' ∈ l := by simpa [hne] using hb'
      exact h.full l b hb b' hl

theorem append_eq [DecidableEq τ] (t : τ) (c : Call) {l : List ℕ} {b : ℕ}
    (hb : (room x c).buffers = l++[b]) : append x t c = write (room x c) t b c := by
  unfold append
  rw [hb]
  simp

theorem Chain.append [DecidableEq τ] {x : State τ} (h : Chain x) (t : τ) (c : Call) :
    Chain (append x t c) := by
  obtain ⟨l,b,hb,hfit,_⟩ := room_cases x c
  rw [append_eq x t c hb]
  have := c.payload_le
  exact (h.room c).write t hb (by omega)

/-- Taking the first message of the chain. -/
theorem Chain.fetch {x : State τ} {b : ℕ} {rest : List ℕ} (h : Chain x)
    (hcur : current x.dispatcher = []) (hbuf : x.buffers = b::rest)
    (htodo : (x.store b).todo ≠ []) :
    Chain (fetch x b) ∧ ∃ p c, (FusionDispatcher.fetch x b).dispatcher = .handling b p c := by
  obtain ⟨r,l',hl'⟩ := List.exists_cons_of_ne_nil htodo
  have hcall : (x.store b).call? (x.store b).readPos = some r.2 := by
    rw [(h.good b).call?,hl']
    rfl
  obtain ⟨l0,hl0,hdone,htodo'⟩ := h.good b
  rw [hl'] at hl0 htodo'
  obtain ⟨hr,hfit,hrest⟩ := htodo'
  have hfetch : FusionDispatcher.fetch x b = {x with
      store := update x.store b {x.store b with
        readPos := after (x.store b).readPos r.2}
      dispatcher := .handling b (x.store b).readPos r.2} := by
    unfold FusionDispatcher.fetch
    dsimp only
    rw [hcall]
  rw [hfetch]
  refine ⟨?_,_,_,rfl⟩
  have hnew : Laid 0 (l0++[r]) (after (x.store b).readPos r.2) := by
    have := hdone.append (c := r.2) hfit
    rwa [← hr,Prod.mk.eta,hr] at this
  have hrec : (x.store b).records = (l0++[r])++l' := by rw [hl0,List.append_assoc]; rfl
  have hnot : b ∉ rest := by
    have := h.nodup
    rw [hbuf] at this
    exact (List.nodup_cons.mp (List.nodup_append.mp this).2.1).1
  constructor
  · exact h.order
  · intro b'
    dsimp only
    rcases eq_or_ne b' b with rfl | hb
    · rw [update_self]
      exact Buffer.good_of hrec hnew hrest
    · rw [update_of_ne hb]
      exact h.good b'
  · intro l a hl b' hb'
    dsimp only
    rcases eq_or_ne b' b with rfl | hb
    · rw [update_self]
      exact h.full l a hl b' hb'
    · rw [update_of_ne hb]
      exact h.full l a hl b' hb'
  · have hqueue := h.queue
    have hprev : rest.flatMap (fun b' => (update x.store b {x.store b with
        readPos := after (x.store b).readPos r.2} b').todo.map
        fun r => (⟨b',r.1,r.2⟩ : Message)) = rest.flatMap fun b' => (x.store b').todo.map
        fun r => (⟨b',r.1,r.2⟩ : Message) :=
      List.flatMap_congr fun b' hb' => by
        have hne : b' ≠ b := fun hb => hnot (hb ▸ hb')
        rw [update_of_ne hne]
    have htodo : Buffer.todo {x.store b with readPos := after (x.store b).readPos r.2} = l' :=
      Buffer.todo_eq hrec hnew hrest
    unfold todo at hqueue ⊢
    dsimp only
    rw [hbuf,List.flatMap_cons] at hqueue ⊢
    rw [hprev,update_self,htodo,hqueue,hcur,hl',List.map_cons,← hr]
    simp [current]
  · intro m hm
    obtain ⟨hlt,hmem⟩ := h.placed m hm
    refine ⟨hlt,?_⟩
    dsimp only
    rcases eq_or_ne m.buffer b with hb | hb
    · rw [hb,update_self]
      rwa [hb] at hmem
    · rwa [update_of_ne hb]
  · exact h.once
  · rintro b' rfl
    rw [hbuf]
    exact List.mem_cons_self

def Awake (x : State τ) : Prop :=
  match x.dispatcher with
  | .noBuffer woken => woken = false ↔ x.buffers = []
  | .noMessage woken => ∃ b rest, x.buffers = b::rest ∧
      if woken then (x.store b).todo ≠ [] ∨ (x.store b).canFree = true
      else rest = [] ∧ (x.store b).todo = [] ∧ (x.store b).canFree = false
  | .garbage _ _ | .null => False
  | _ => True

theorem Buffer.Good.usedUp (h : b.Good) : b.usedUp = true ↔ b.canFree = true ∧ b.todo = [] := by
  obtain ⟨l,hl,hdone,htodo⟩ := id h
  have := htodo.le
  rw [h.todo_nil,Buffer.usedUp]
  simp only [Bool.and_eq_true,decide_eq_true_eq]
  exact and_congr_right fun _ => by omega

/-- The dispatcher passes a buffer by that is used up. -/
theorem Chain.pass {x : State τ} {b : ℕ} {rest : List ℕ} (h : Chain x)
    (hbuf : x.buffers = b::rest) (hup : (x.store b).usedUp) (huses : ∀ b, ¬ x.dispatcher.Uses b) :
    Chain {x with remove := x.remove++[b], buffers := rest} where
  order := by
    rw [← h.order,hbuf]
    simp
  good := h.good
  full l a hl b' hb' := h.full (b::l) a (hbuf.trans (congrArg (b::·) hl)) b'
    (List.mem_cons_of_mem _ hb')
  queue := by
    have hqueue := h.queue
    have hnil := (((h.good b).usedUp).mp hup).2
    unfold todo at hqueue ⊢
    rwa [hbuf,List.flatMap_cons,hnil] at hqueue
  placed := h.placed
  once := h.once
  busy b' hb' := absurd hb' (huses b')

theorem Chain.idle {x : State τ} {d : Dispatcher} (h : Chain x) (hcur : current x.dispatcher = [])
    (hd : current d = []) (huses : ∀ b, ¬ d.Uses b) : Chain {x with dispatcher := d} :=
  h.congr (fun _ => rfl) rfl rfl rfl rfl (by rw [hcur,hd]) fun b hb => absurd hb (huses b)

/-- Going through the chain the dispatcher takes the first message, or falls asleep. -/
theorem Chain.scan {x : State τ} {l : List ℕ} (h : Chain {x with buffers := l})
    (hcur : current x.dispatcher = []) (huses : ∀ b, ¬ x.dispatcher.Uses b) :
    Chain (scan x l) ∧ Awake (FusionDispatcher.scan x l) := by
  induction l generalizing x with
  | nil => exact ⟨h.idle hcur rfl fun _ => id,iff_of_true rfl rfl⟩
  | cons b rest ih =>
    unfold FusionDispatcher.scan
    split_ifs with hup hle
    · exact ih (h.pass rfl hup huses) hcur huses
    · have hnil : (x.store b).todo = [] := (h.good b).todo_nil.mpr hle
      refine ⟨h.idle hcur rfl fun _ => id,b,rest,rfl,?_⟩
      have hfree : (x.store b).canFree = false := by
        by_contra hf
        exact hup (((h.good b).usedUp).mpr ⟨by simpa using hf,hnil⟩)
      refine ⟨?_,hnil,hfree⟩
      -- only the last buffer of the chain has no permission to be freed
      rcases List.eq_nil_or_concat rest with rfl | ⟨l,a,ha⟩
      · rfl
      · have := h.full (b::l) a (by rw [ha]; simp) b List.mem_cons_self
        rw [hfree] at this
        cases this
    · have htodo : (x.store b).todo ≠ [] := fun hnil => hle ((h.good b).todo_nil.mp hnil)
      have hbuf : ({x with buffers := b::rest} : State τ).buffers = b::rest := rfl
      obtain ⟨hchain,p,c,hd⟩ := h.fetch hcur hbuf htodo
      refine ⟨hchain,?_⟩
      unfold Awake
      rw [hd]
      trivial

theorem Chain.resume {x : State τ} (h : Chain x) (hawake : Awake x)
    (hwoken : x.dispatcher = .noBuffer true ∨ x.dispatcher = .noMessage true) :
    Chain (resume x) ∧ Awake (FusionDispatcher.resume x) := by
  have hcur : current x.dispatcher = [] := by rcases hwoken with hd | hd <;> rw [hd] <;> rfl
  have huses : ∀ b, ¬ x.dispatcher.Uses b := by
    rcases hwoken with hd | hd <;> rw [hd] <;> exact fun _ => id
  rcases hwoken with hd | hd
  · have hne : x.buffers ≠ [] := by
      unfold Awake at hawake
      rw [hd] at hawake
      exact fun hnil => absurd (hawake.mpr hnil) (by decide)
    obtain ⟨b,rest,hbuf⟩ := List.exists_cons_of_ne_nil hne
    have hres : FusionDispatcher.resume x = FusionDispatcher.scan x x.buffers := by
      unfold FusionDispatcher.resume
      rw [hd,hbuf]
    rw [hres]
    exact Chain.scan h hcur huses
  · unfold Awake at hawake
    rw [hd] at hawake
    obtain ⟨b,rest,hbuf,hor⟩ := hawake
    have hres : FusionDispatcher.resume x = if (x.store b).usedUp then
        FusionDispatcher.scan {x with remove := x.remove++[b]} rest
        else FusionDispatcher.fetch x b := by
      unfold FusionDispatcher.resume
      rw [hd,hbuf]
    rw [hres]
    split_ifs with hup
    · exact Chain.scan (h.pass hbuf hup huses) hcur huses
    · have htodo : (x.store b).todo ≠ [] := by
        intro hnil
        rcases hor with hne | hfree
        · exact hne hnil
        · exact hup (((h.good b).usedUp).mpr ⟨hfree,hnil⟩)
      obtain ⟨hchain,p,c,hd'⟩ := h.fetch hcur hbuf htodo
      refine ⟨hchain,?_⟩
      unfold Awake
      rw [hd']
      trivial

/-- A call that is written wakes the dispatcher up. -/
theorem Awake.append [DecidableEq τ] {x : State τ} (hawake : Awake x) (h : Chain x) (t : τ)
    (c : Call) : Awake (append x t c) := by
  obtain ⟨l,b,hb,hfit,hroom⟩ := room_cases x c
  have hfit' : ((room x c).store b).writePos+callSize+c.payload ≤ bufferLength := by
    have := c.payload_le
    omega
  obtain ⟨_,htodo⟩ := ((h.room c).good b).push hfit'
  have hdisp : (room x c).dispatcher = x.dispatcher := by
    rcases hroom with hx | ⟨_,hx⟩ | ⟨_,_,_,hx⟩ <;> rw [hx] <;> rfl
  have hold : ∀ b', b' ≠ b → (write (room x c) t b c).store b' =
      (room x c).store b' := fun b' hne => update_of_ne hne _ _
  have hself : (write (room x c) t b c).store b = ((room x c).store b).push c := update_self _ _ _
  rw [append_eq x t c hb]
  unfold Awake at *
  rw [show (write (room x c) t b c).dispatcher = signal (room x c).dispatcher
    from rfl,hdisp,show (write (room x c) t b c).buffers = (room x c).buffers
    from rfl]
  cases hd : x.dispatcher with
  | noBuffer woken => simp [signal,hb]
  | noMessage woken =>
    rw [hd] at hawake
    obtain ⟨b',rest,hbuf,hor⟩ := hawake
    have hready : ∀ b', ((room x c).store b').todo ≠ [] ∨
        ((room x c).store b').canFree = true ∨ b' = b →
        ((write (room x c) t b c).store b').todo ≠ [] ∨
        ((write (room x c) t b c).store b').canFree = true := by
      intro b' hor
      rcases eq_or_ne b' b with rfl | hne
      · rw [hself,htodo]
        exact .inl (by simp)
      · rw [hold b' hne]
        exact hor.imp id fun hor => hor.resolve_right hne
    have hsingle : woken = false → ∀ l' b'', x.buffers = l'++[b''] → b' = b'' := by
      rintro rfl l' b'' hl
      obtain ⟨rfl,_⟩ := hor
      rw [hbuf] at hl
      exact (List.append_inj' (show []++[b'] = l'++[b''] from hl) rfl).2 |> List.singleton_inj.mp
    rcases hroom with hx | ⟨hnil,hx⟩ | ⟨l',b1,hl',hx⟩
    · refine ⟨b',rest,by rw [hx,hbuf],hready b' ?_⟩
      rw [hx]
      cases hw : woken with
      | false => exact .inr (.inr (hsingle hw l b (by rw [← hb,hx])))
      | true =>
        rw [hw] at hor
        exact hor.imp id .inl
    · rw [hbuf] at hnil
      cases hnil
    · refine ⟨b',rest++[x.next],?_,hready b' ?_⟩
      · rw [hx]
        exact congrArg (·++[x.next]) hbuf
      · have hne : b' ≠ x.next := (h.lt (by rw [hbuf]; exact List.mem_cons_self)).ne
        have hstore : (room x c).store b' = (allowFree x b1).store b' := by
          rw [hx]
          exact update_of_ne hne _ _
        rw [hstore,show (allowFree x b1).store b' = update x.store b1 _ b' from rfl]
        rcases eq_or_ne b' b1 with rfl | hne1
        · rw [update_self]
          exact .inr (.inl rfl)
        · rw [update_of_ne hne1]
          cases hw : woken with
          | false => exact absurd (hsingle hw l' b1 hl') hne1
          | true =>
            rw [hw] at hor
            exact hor.imp id .inl
  | garbage b p =>
    rw [hd] at hawake
    exact hawake
  | null =>
    rw [hd] at hawake
    exact hawake
  | _ => trivial

/-- What a thread adds to the `sync_calls` of a buffer. -/
def Thread.holds : Thread → ℕ → ℕ
  | .waiting b' _ _, b | .counting b' _ _, b => if b' = b then 1 else 0
  | _, _ => 0

def Thread.Uses : Thread → ℕ → Prop
  | .waiting b' _ _, b | .counting b' _ _, b | .reading b' _, b => b' = b
  | _, _ => False

def Thread.Answered : Thread → ℕ → ℕ → Prop
  | .counting b' p' _, b, p | .reading b' p', b, p => b' = b ∧ p' = p
  | _, _, _ => False

theorem Thread.holds_eq_zero {t : Thread} {b : ℕ} (h : ¬ t.Uses b) : t.holds b = 0 := by
  cases t with
  | waiting _ _ _ => exact if_neg h
  | counting _ _ _ => exact if_neg h
  | _ => rfl

structure Untouched (x y : State τ) : Prop where
  thread : y.thread = x.thread
  next : y.next = x.next
  freed : y.freed = x.freed
  handled : y.handled = x.handled
  sync : ∀ b, (y.store b).syncCalls = (x.store b).syncCalls
  processed : ∀ b, (y.store b).processed = (x.store b).processed
  dispatcher : ∀ b p c, y.dispatcher ≠ .handled b p c

theorem fetch_untouched (b : ℕ) : Untouched x (fetch x b) := by
  unfold fetch
  dsimp only
  split
  · refine ⟨rfl,rfl,rfl,rfl,fun b' => ?_,fun b' => ?_,fun _ _ _ => Dispatcher.noConfusion⟩ <;>
      dsimp only <;> rcases eq_or_ne b' b with rfl | hb
    · rw [update_self]
    · rw [update_of_ne hb]
    · rw [update_self]
    · rw [update_of_ne hb]
  · exact ⟨rfl,rfl,rfl,rfl,fun _ => rfl,fun _ => rfl,fun _ _ _ => Dispatcher.noConfusion⟩

theorem scan_untouched (l : List ℕ) : Untouched x (scan x l) := by
  induction l generalizing x with
  | nil => exact ⟨rfl,rfl,rfl,rfl,fun _ => rfl,fun _ => rfl,fun _ _ _ => Dispatcher.noConfusion⟩
  | cons b rest ih =>
    unfold scan
    split_ifs
    · obtain ⟨h1,h2,h3,h4,h5,h6,h7⟩ := ih {x with remove := x.remove++[b]}
      exact ⟨h1,h2,h3,h4,h5,h6,h7⟩
    · exact ⟨rfl,rfl,rfl,rfl,fun _ => rfl,fun _ => rfl,fun _ _ _ => Dispatcher.noConfusion⟩
    · obtain ⟨h1,h2,h3,h4,h5,h6,h7⟩ := fetch_untouched {x with buffers := b::rest} b
      exact ⟨h1,h2,h3,h4,h5,h6,h7⟩

theorem resume_untouched {x : State τ}
    (hd : x.dispatcher = .noBuffer true ∨ x.dispatcher = .noMessage true) :
    Untouched x (resume x) := by
  unfold resume
  split
  · exact ⟨rfl,rfl,rfl,rfl,fun _ => rfl,fun _ => rfl,fun _ _ _ => Dispatcher.noConfusion⟩
  · exact scan_untouched x _
  · exact ⟨rfl,rfl,rfl,rfl,fun _ => rfl,fun _ => rfl,fun _ _ _ => Dispatcher.noConfusion⟩
  · next b rest _ _ =>
    split_ifs
    · obtain ⟨h1,h2,h3,h4,h5,h6,h7⟩ := scan_untouched {x with remove := x.remove++[b]} rest
      exact ⟨h1,h2,h3,h4,h5,h6,h7⟩
    · exact fetch_untouched x b
  · refine ⟨rfl,rfl,rfl,rfl,fun _ => rfl,fun _ => rfl,fun b p c h => ?_⟩
    rw [h] at hd
    rcases hd with hd | hd <;> cases hd

theorem freeable_eq_some {x : State τ} {b r : ℕ} (h : freeable x b = some r) :
    ∃ rest, x.remove = r::rest ∧ (x.store r).syncCalls = 0 := by
  unfold freeable at h
  split at h
  · cases h
  · next r' rest hr =>
    obtain ⟨⟨hsync,_⟩,he⟩ := Option.ite_none_right_eq_some.mp h
    cases he
    exact ⟨rest,hr,hsync⟩

section Sync
variable [Fintype τ]

structure Sync (x : State τ) : Prop where
  count : ∀ b, (x.store b).syncCalls = ∑ t, (x.thread t).holds b
  live : ∀ t b, (x.thread t).Uses b → b < x.next ∧ b ∉ x.freed
  answered : ∀ t b p, (x.thread t).Answered b p → ∃ m ∈ x.handled, m.buffer = b ∧ m.offset = p
  processed : ∀ b, ∀ p ∈ (x.store b).processed, ∃ m ∈ x.handled, m.buffer = b ∧ m.offset = p
  marked : ∀ b p c, x.dispatcher = .handled b p c → ⟨b,p,c⟩ ∈ x.handled

/-- A step that changes no thread and no count. -/
theorem Sync.congr {x y : State τ} (h : Sync x) (hthread : y.thread = x.thread)
    (hsync : ∀ b, (y.store b).syncCalls = (x.store b).syncCalls) (hnext : x.next ≤ y.next)
    (hfreed : ∀ b ∈ y.freed, b ∉ x.freed → ∀ t, ¬ (x.thread t).Uses b)
    (hhandled : ∀ m ∈ x.handled, m ∈ y.handled)
    (hproc : ∀ b, ∀ p ∈ (y.store b).processed, p ∈ (x.store b).processed ∨
      ∃ m ∈ y.handled, m.buffer = b ∧ m.offset = p)
    (hmarked : ∀ b p c, y.dispatcher = .handled b p c → ⟨b,p,c⟩ ∈ y.handled) : Sync y where
  count b := by rw [hsync,hthread,h.count]
  live t b hu := by
    rw [hthread] at hu
    obtain ⟨hlt,hf⟩ := h.live t b hu
    exact ⟨hlt.trans_le hnext,fun hb => hfreed b hb hf t hu⟩
  answered t b p ha := by
    rw [hthread] at ha
    obtain ⟨m,hm,hb⟩ := h.answered t b p ha
    exact ⟨m,hhandled m hm,hb⟩
  processed b p hp := by
    rcases hproc b p hp with hp | hm
    · obtain ⟨m,hm,hb⟩ := h.processed b p hp
      exact ⟨m,hhandled m hm,hb⟩
    · exact hm
  marked := hmarked

/-- A step of one thread. -/
theorem Sync.thread [DecidableEq τ] {x y : State τ} (h : Sync x) {t : τ} {v : Thread}
    (hthread : y.thread = update x.thread t v)
    (hsync : ∀ b, (y.store b).syncCalls+(x.thread t).holds b = (x.store b).syncCalls+v.holds b)
    (hproc : ∀ b, (y.store b).processed = (x.store b).processed)
    (hnext : x.next = y.next) (hfreed : y.freed = x.freed) (hhandled : y.handled = x.handled)
    (hmarked : ∀ b p c, y.dispatcher = .handled b p c → x.dispatcher = .handled b p c)
    (huses : ∀ b, v.Uses b → b < x.next ∧ b ∉ x.freed)
    (hans : ∀ b p, v.Answered b p → ∃ m ∈ x.handled, m.buffer = b ∧ m.offset = p) : Sync y where
  count b := by
    have hcount := h.count b
    have hb := hsync b
    have herase : ∑ t' ∈ Finset.univ.erase t, (y.thread t').holds b =
        ∑ t' ∈ Finset.univ.erase t, (x.thread t').holds b := by
      refine Finset.sum_congr rfl fun t' ht => ?_
      rw [hthread,update_of_ne (Finset.ne_of_mem_erase ht)]
    rw [← Finset.add_sum_erase _ _ (Finset.mem_univ t)] at hcount ⊢
    rw [herase,hthread,update_self]
    omega
  live t' b hu := by
    rw [← hnext,hfreed]
    rcases eq_or_ne t' t with rfl | ht
    · rw [hthread,update_self] at hu
      exact huses b hu
    · rw [hthread,update_of_ne ht] at hu
      exact h.live t' b hu
  answered t' b p ha := by
    rw [hhandled]
    rcases eq_or_ne t' t with rfl | ht
    · rw [hthread,update_self] at ha
      exact hans b p ha
    · rw [hthread,update_of_ne ht] at ha
      exact h.answered t' b p ha
  processed b p hp := by
    rw [hhandled]
    exact h.processed b p (hproc b ▸ hp)
  marked b p c hd := by
    rw [hhandled]
    exact h.marked b p c (hmarked b p c hd)

theorem Sync.alloc {x : State τ} (h : Sync x) : Sync (alloc x) := by
  have hzero : (x.store x.next).syncCalls = 0 := by
    rw [h.count]
    refine Finset.sum_eq_zero fun t _ => Thread.holds_eq_zero fun hu => ?_
    exact absurd (h.live t _ hu).1 (lt_irrefl _)
  refine h.congr rfl (fun b => ?_) (Nat.le_succ _) (fun b hb hn => absurd hb hn) (fun _ => id)
    (fun b p hp => ?_) h.marked
  · change (update x.store x.next {} b).syncCalls = _
    rcases eq_or_ne b x.next with rfl | hb
    · rw [update_self,hzero]
    · rw [update_of_ne hb]
  · change p ∈ (update x.store x.next {} b).processed at hp
    rcases eq_or_ne b x.next with rfl | hb
    · rw [update_self] at hp
      cases hp
    · rw [update_of_ne hb] at hp
      exact .inl hp

theorem Sync.allowFree {x : State τ} (h : Sync x) (b : ℕ) : Sync (allowFree x b) := by
  refine h.congr rfl (fun b' => ?_) le_rfl (fun b hb hn => absurd hb hn) (fun _ => id)
    (fun b' p hp => .inl ?_) h.marked
  · change (update x.store b _ b').syncCalls = _
    rcases eq_or_ne b' b with rfl | hb
    · rw [update_self]
    · rw [update_of_ne hb]
  · change p ∈ (update x.store b _ b').processed at hp
    rcases eq_or_ne b' b with rfl | hb
    · rwa [update_self] at hp
    · rwa [update_of_ne hb] at hp

theorem Sync.room {x : State τ} (h : Sync x) (c : Call) : Sync (room x c) := by
  obtain ⟨_,_,_,_,hx | ⟨_,hx⟩ | ⟨_,b,_,hx⟩⟩ := room_cases x c <;> rw [hx]
  · exact h
  · exact h.alloc
  · exact (h.allowFree b).alloc

theorem Sync.write [DecidableEq τ] {x : State τ} {b : ℕ} {t : τ} {c : Call} (h : Sync x)
    (hchain : Chain x) (hb : b ∈ x.buffers) (ht : (x.thread t).holds = fun _ => 0) :
    Sync (write x t b c) := by
  refine h.thread rfl (fun b' => ?_) (fun b' => ?_) rfl rfl rfl (fun b' p c hd => ?_)
    (fun b' hu => ?_) (fun b' p ha => ?_)
  · change (update x.store b ((x.store b).push c) b').syncCalls+_ = _
    rw [ht]
    rcases eq_or_ne b' b with rfl | hne
    · rw [update_self]
      cases hc : c.oneway <;> simp [Buffer.push,Thread.holds,hc]
    · rw [update_of_ne hne]
      cases hc : c.oneway <;> simp [Thread.holds,hne.symm]
  · change (update x.store b ((x.store b).push c) b').processed = _
    rcases eq_or_ne b' b with rfl | hne
    · rw [update_self]
      rfl
    · rw [update_of_ne hne]
  · change signal x.dispatcher = _ at hd
    cases hx : x.dispatcher <;> rw [hx] at hd <;> first | exact hd | cases hd
  · cases hc : c.oneway with
    | true =>
      rw [hc] at hu
      exact hu.elim
    | false =>
      rw [hc] at hu
      obtain rfl : b = b' := hu
      exact ⟨hchain.lt hb,hchain.not_freed hb⟩
  · cases hc : c.oneway <;> rw [hc] at ha <;> exact ha.elim

theorem Sync.untouched {x y : State τ} (h : Sync x) (hxy : Untouched x y) : Sync y := by
  refine h.congr hxy.thread hxy.sync hxy.next.ge (fun b hb hn => ?_) (fun m hm => ?_)
    (fun b p hp => .inl ?_) fun b p c hd => absurd hd (hxy.dispatcher b p c)
  · rw [hxy.freed] at hb
    exact absurd hb hn
  · rwa [hxy.handled]
  · rwa [← hxy.processed]

structure Inv (x : State τ) : Prop where
  chain : Chain x
  awake : Awake x
  sync : Sync x

theorem Inv.init {x : State τ} (h : init x) : Inv x := by
  subst h
  constructor
  · refine ⟨rfl,fun b => ⟨[],rfl,rfl,rfl⟩,fun l b hl => ?_,rfl,fun m hm => (by cases hm),
      List.nodup_nil,fun b => False.elim⟩
    simp at hl
  · trivial
  · exact ⟨fun b => (Finset.sum_eq_zero fun _ _ => rfl).symm,fun t b => False.elim,
      fun t b p => False.elim,fun b p hp => (by cases hp),fun b p c hd => (by cases hd)⟩

theorem Inv.append [DecidableEq τ] {x : State τ} (h : Inv x) (t : τ) (c : Call)
    (ht : (x.thread t).holds = fun _ => 0) : Inv (append x t c) := by
  refine ⟨h.chain.append t c,h.awake.append h.chain t c,?_⟩
  obtain ⟨l,b,hb,_,hroom⟩ := room_cases x c
  rw [append_eq x t c hb]
  have hthread : (room x c).thread = x.thread := by
    rcases hroom with hx | ⟨_,hx⟩ | ⟨_,_,_,hx⟩ <;> rw [hx] <;> rfl
  exact (h.sync.room c).write (h.chain.room c) (by rw [hb]; simp) (by rw [hthread,ht])

theorem Inv.thread [DecidableEq τ] {x : State τ} (h : Inv x) {t : τ} {v : Thread}
    (hholds : v.holds = (x.thread t).holds)
    (huses : ∀ b, v.Uses b → b < x.next ∧ b ∉ x.freed)
    (hans : ∀ b p, v.Answered b p → ∃ m ∈ x.handled, m.buffer = b ∧ m.offset = p) :
    Inv {x with thread := update x.thread t v} where
  chain := h.chain.congr (fun _ => rfl) rfl rfl rfl rfl rfl fun _ => id
  awake := h.awake
  sync := h.sync.thread rfl (fun b => by rw [hholds]) (fun _ => rfl) rfl rfl rfl
    (fun _ _ _ => id) huses hans

theorem Inv.process [DecidableEq τ] {x : State τ} (h : Inv x) (t : τ) (c : Call)
    (ht : (x.thread t).holds = fun _ => 0) : Inv (process x t c) := by
  unfold FusionDispatcher.process
  split_ifs
  · exact h.thread (by rw [ht]; rfl) (fun _ => False.elim) fun _ _ => False.elim
  · exact h.append t c ht

theorem Inv.count [DecidableEq τ] {x : State τ} (h : Inv x) {t : τ} {b p : ℕ} {wants : Bool}
    (ht : x.thread t = .counting b p wants) : Inv {x with
      store := update x.store b {x.store b with syncCalls := (x.store b).syncCalls-1}
      thread := update x.thread t (if wants then .reading b p else .idle)} := by
  have hsame : ∀ b', (update x.store b {x.store b with
      syncCalls := (x.store b).syncCalls-1} b').text = (x.store b').text := by
    intro b'
    rcases eq_or_ne b' b with rfl | hb
    · rw [update_self]
      rfl
    · rw [update_of_ne hb]
  have hone : 1 ≤ (x.store b).syncCalls := by
    rw [h.sync.count]
    have := Finset.single_le_sum (f := fun t => (x.thread t).holds b) (fun _ _ => Nat.zero_le _)
      (Finset.mem_univ t)
    rwa [ht,Thread.holds,if_pos rfl] at this
  refine ⟨h.chain.congr hsame rfl rfl rfl rfl rfl fun _ => id,?_,h.sync.thread rfl (fun b' => ?_)
    (fun b' => ?_) rfl rfl rfl (fun _ _ _ => id) (fun b' hu => ?_) (fun b' p' ha => ?_)⟩
  · have hawake := h.awake
    unfold Awake at hawake ⊢
    cases hd : x.dispatcher with
    | noMessage woken =>
      rw [hd] at hawake
      obtain ⟨b',rest,hbuf,hor⟩ := hawake
      refine ⟨b',rest,hbuf,?_⟩
      have ht := hsame b'
      rw [Buffer.todo_of_text ht]
      simp only [Buffer.text,Prod.mk.injEq] at ht
      rwa [ht.2.2.1]
    | _ =>
      rw [hd] at hawake
      exact hawake
  · dsimp only
    rw [ht]
    rcases eq_or_ne b' b with rfl | hb
    · rw [update_self]
      cases wants <;> simp [Thread.holds] <;> omega
    · rw [update_of_ne hb]
      cases wants <;> simp [Thread.holds,hb.symm]
  · dsimp only
    rcases eq_or_ne b' b with rfl | hb
    · rw [update_self]
    · rw [update_of_ne hb]
  · cases wants with
    | true =>
      obtain rfl : b = b' := hu
      exact h.sync.live t b (by rw [ht]; rfl)
    | false => exact hu.elim
  · cases wants with
    | true =>
      obtain ⟨rfl,rfl⟩ : b = b' ∧ p = p' := ha
      exact h.sync.answered t b p (by rw [ht]; exact ⟨rfl,rfl⟩)
    | false => exact ha.elim

theorem Inv.loop {x : State τ} (h : Inv x) (hd : x.dispatcher = .top) : Inv (scan x x.buffers) := by
  have hcur : current x.dispatcher = [] := by rw [hd]; rfl
  have huses : ∀ b, ¬ x.dispatcher.Uses b := by rw [hd]; exact fun _ => id
  obtain ⟨hchain,hawake⟩ := Chain.scan (l := x.buffers) h.chain hcur huses
  exact ⟨hchain,hawake,h.sync.untouched (scan_untouched x _)⟩

theorem Inv.resume {x : State τ} (h : Inv x)
    (hd : x.dispatcher = .noBuffer true ∨ x.dispatcher = .noMessage true) : Inv (resume x) := by
  obtain ⟨hchain,hawake⟩ := h.chain.resume h.awake hd
  exact ⟨hchain,hawake,h.sync.untouched (resume_untouched hd)⟩

theorem Inv.handle {x : State τ} {b p : ℕ} {c : Call} (h : Inv x)
    (hd : x.dispatcher = .handling b p c) : Inv {x with
      dispatcher := .handled b p c
      handled := x.handled++[⟨b,p,c⟩]} where
  chain := by
    refine h.chain.congr (fun _ => rfl) rfl rfl rfl rfl ?_ fun b' hb => ?_
    · rw [hd]
      exact List.append_nil _
    · rw [hd]
      exact hb
  awake := trivial
  sync := by
    refine h.sync.congr rfl (fun _ => rfl) le_rfl (fun b hb hn => absurd hb hn)
      (fun m hm => List.mem_append_left _ hm) (fun b p hp => .inl hp) fun b' p' c' hd' => ?_
    cases hd'
    exact List.mem_append_right _ List.mem_cons_self

theorem Inv.processed {x : State τ} {b p : ℕ} {c : Call} (h : Inv x)
    (hd : x.dispatcher = .handled b p c) : Inv {x with
      store := if c.oneway then x.store else
        update x.store b {x.store b with processed := p::(x.store b).processed}
      dispatcher := .processed b} := by
  have hsame : ∀ b', (if c.oneway then x.store else update x.store b {x.store b with
      processed := p::(x.store b).processed}) b' = x.store b' ∨ b' = b ∧
      (if c.oneway then x.store else update x.store b {x.store b with
        processed := p::(x.store b).processed}) b' =
          {x.store b with processed := p::(x.store b).processed} := by
    intro b'
    split_ifs
    · exact .inl rfl
    · rcases eq_or_ne b' b with rfl | hb
      · exact .inr ⟨rfl,update_self _ _ _⟩
      · exact .inl (update_of_ne hb _ _)
  constructor
  · refine h.chain.congr (fun b' => ?_) rfl rfl rfl rfl ?_ fun b' hb => ?_
    · rcases hsame b' with hb | ⟨rfl,hb⟩ <;> dsimp only <;> rw [hb]
      rfl
    · rw [hd]
      rfl
    · rw [hd]
      exact hb
  · trivial
  · refine h.sync.congr rfl (fun b' => ?_) le_rfl (fun b hb hn => absurd hb hn) (fun _ => id)
      (fun b' p' hp => ?_) fun _ _ _ => Dispatcher.noConfusion
    · rcases hsame b' with hb | ⟨rfl,hb⟩ <;> dsimp only <;> rw [hb]
    · dsimp only at hp
      rcases hsame b' with hb | ⟨rfl,hb⟩ <;> rw [hb] at hp
      · exact .inl hp
      · rcases List.mem_cons.mp hp with rfl | hp
        · exact .inr ⟨_,h.sync.marked _ _ _ hd,rfl,rfl⟩
        · exact .inl hp

theorem Inv.finish {x : State τ} {b : ℕ} (h : Inv x) (hd : x.dispatcher = .processed b)
    (hkept : ∀ r, freeable x b = some r → ∀ t, ¬ Reads (x.thread t) r) : Inv (finish x b) := by
  have hstore : ∀ b', (update x.store b {x.store b with
      pending := (x.store b).pending-1} b').text = (x.store b').text ∧
      (update x.store b {x.store b with
        pending := (x.store b).pending-1} b').syncCalls = (x.store b').syncCalls ∧
      (update x.store b {x.store b with
        pending := (x.store b).pending-1} b').processed = (x.store b').processed := by
    intro b'
    rcases eq_or_ne b' b with rfl | hb
    · rw [update_self]
      exact ⟨rfl,rfl,rfl⟩
    · rw [update_of_ne hb]
      exact ⟨rfl,rfl,rfl⟩
  have hcur : current x.dispatcher = [] := by rw [hd]; rfl
  unfold FusionDispatcher.finish
  cases hf : freeable x b with
  | none =>
    refine ⟨h.chain.congr (fun b' => (hstore b').1) rfl rfl rfl rfl (by rw [hcur]; rfl)
      fun _ => False.elim,trivial,?_⟩
    exact h.sync.congr rfl (fun b' => (hstore b').2.1) le_rfl (fun b hb hn => absurd hb hn)
      (fun _ => id) (fun b' p hp => .inl ((hstore b').2.2 ▸ hp))
      fun _ _ _ => Dispatcher.noConfusion
  | some r =>
    obtain ⟨rest,hr,hsync⟩ := freeable_eq_some hf
    refine ⟨h.chain.congr (fun b' => (hstore b').1) rfl ?_ rfl rfl (by rw [hcur]; rfl)
      fun _ => False.elim,trivial,?_⟩
    · simp [hr]
    · refine h.sync.congr rfl (fun b' => (hstore b').2.1) le_rfl (fun b' hb hn t hu => ?_)
        (fun _ => id) (fun b' p hp => .inl ((hstore b').2.2 ▸ hp))
        fun _ _ _ => Dispatcher.noConfusion
      obtain rfl : b' = r := by
        rcases List.mem_append.mp hb with hb | hb
        · exact absurd hb hn
        · exact List.mem_singleton.mp hb
      -- nobody is counted on the buffer, and nobody is left to read there
      rw [h.sync.count] at hsync
      have hzero := (Finset.sum_eq_zero_iff.mp hsync) t (Finset.mem_univ t)
      cases ht : x.thread t with
      | waiting b'' _ _ =>
        rw [ht] at hu hzero
        obtain rfl : b'' = b' := hu
        simp [Thread.holds] at hzero
      | counting b'' _ _ =>
        rw [ht] at hu hzero
        obtain rfl : b'' = b' := hu
        simp [Thread.holds] at hzero
      | reading b'' p =>
        rw [ht] at hu
        obtain rfl : b'' = b' := hu
        exact hkept _ hf t ⟨p,ht⟩
      | idle =>
        rw [ht] at hu
        exact hu
      | limited c =>
        rw [ht] at hu
        exact hu

theorem Inv.step [DecidableEq τ] {x x' : State τ} {e : Event τ} (h : Inv x) (hkept : Kept x e)
    (hs : step x e = some x') : Inv x' := by
  cases e with
  | process t c =>
    obtain ⟨ht,hx⟩ := Option.ite_none_right_eq_some.mp hs
    exact Option.some.inj hx ▸ h.process t c (by rw [ht]; rfl)
  | retry t =>
    simp only [FusionDispatcher.step] at hs
    split at hs
    · next c ht => exact Option.some.inj hs ▸ h.process t c (by rw [ht]; rfl)
    · cases hs
  | reactions t reactor channel size =>
    obtain ⟨hfits,hx⟩ := Option.dite_none_right_eq_some.mp hs
    obtain ⟨ht,hx⟩ := Option.ite_none_right_eq_some.mp hx
    exact Option.some.inj hx ▸ h.append t _ (by rw [ht]; rfl)
  | reactorFree t reactor =>
    obtain ⟨ht,hx⟩ := Option.ite_none_right_eq_some.mp hs
    obtain rfl := Option.some.inj hx
    unfold processReactorFree
    split_ifs
    · exact h
    · have hfree : Inv {x with free := update x.free reactor true} :=
        ⟨h.chain.congr (fun _ => rfl) rfl rfl rfl rfl rfl fun _ => id,h.awake,
          h.sync.congr rfl (fun _ => rfl) le_rfl (fun b hb hn => absurd hb hn) (fun _ => id)
            (fun b p hp => .inl hp) h.sync.marked⟩
      exact hfree.append t _ (by rw [show (x.thread t) = _ from ht]; rfl)
  | wake t =>
    simp only [FusionDispatcher.step] at hs
    split at hs
    · next b p wants ht =>
      obtain rfl := Option.some.inj hs
      have hlive := h.sync.live t b (by rw [ht]; rfl)
      split_ifs with hp
      · refine h.thread (by rw [ht]; rfl) (fun b' hu => ?_) fun b' p' ha => ?_
        · obtain rfl : b = b' := hu
          exact hlive
        · obtain ⟨rfl,rfl⟩ : b = b' ∧ p = p' := ha
          exact h.sync.processed b p hp
      · refine h.thread (by rw [ht]) (fun b' hu => ?_) fun _ _ => False.elim
        obtain rfl : b = b' := hu
        exact hlive
    · cases hs
  | count t =>
    simp only [FusionDispatcher.step] at hs
    split at hs
    · next b p wants ht => exact Option.some.inj hs ▸ h.count ht
    · cases hs
  | read t =>
    simp only [FusionDispatcher.step] at hs
    split at hs
    · next b p ht =>
      exact Option.some.inj hs ▸ h.thread (by rw [ht]; rfl) (fun _ => False.elim)
        fun _ _ => False.elim
    · cases hs
  | loop =>
    simp only [FusionDispatcher.step] at hs
    split at hs
    · next hd => exact Option.some.inj hs ▸ h.loop hd
    · next hd => exact Option.some.inj hs ▸ h.resume (.inl hd)
    · next hd => exact Option.some.inj hs ▸ h.resume (.inr hd)
    · cases hs
  | spurious => exact hkept.elim
  | handle =>
    simp only [FusionDispatcher.step] at hs
    split at hs
    · next b p c hd => exact Option.some.inj hs ▸ h.handle hd
    · cases hs
  | processed =>
    simp only [FusionDispatcher.step] at hs
    split at hs
    · next b p c hd => exact Option.some.inj hs ▸ h.processed hd
    · cases hs
  | finish =>
    simp only [FusionDispatcher.step] at hs
    split at hs
    · next b hd => exact Option.some.inj hs ▸ h.finish hd fun r hr => hkept b r hd hr
    · cases hs

/-- Messages are handled once and in order, where they were written, and buffers are freed
after everyone is done with them. -/
structure Good (x : State τ) : Prop where
  order : x.handled++current x.dispatcher <+: x.queued
  once : x.queued.Nodup
  written : ∀ m ∈ x.queued, (m.offset,m.call) ∈ (x.store m.buffer).records
  laid : ∀ b, Laid 0 (x.store b).records (x.store b).writePos
  found : ∀ b p, x.dispatcher ≠ .garbage b p ∧ x.dispatcher ≠ .null
  asleep : x.dispatcher = .noBuffer false ∨ x.dispatcher = .noMessage false → x.handled = x.queued
  answered : ∀ t b p, (x.thread t).Answered b p → ∃ m ∈ x.handled, m.buffer = b ∧ m.offset = p
  freed : ∀ b ∈ x.freed, (∀ m ∈ x.queued, m.buffer = b → m ∈ x.handled) ∧
    ¬ x.dispatcher.Uses b ∧ ∀ t, ¬ (x.thread t).Uses b

theorem current_uses {d : Dispatcher} {m : Message} (h : m ∈ current d) : d.Uses m.buffer := by
  cases d with
  | handling b p c =>
    obtain rfl := List.mem_singleton.mp h
    rfl
  | _ => cases h

theorem Inv.good {x : State τ} (h : Inv x) : Good x where
  order := ⟨todo x,h.chain.queue.symm⟩
  once := h.chain.once
  written m hm := (h.chain.placed m hm).2
  laid b := (h.chain.good b).laid
  found b p := by
    have hawake := h.awake
    unfold Awake at hawake
    constructor <;> intro hd <;> rw [hd] at hawake <;> exact hawake
  asleep hd := by
    have hawake := h.awake
    have hqueue := h.chain.queue
    unfold Awake at hawake
    unfold todo at hqueue
    rcases hd with hd | hd <;> rw [hd] at hawake hqueue
    · rw [hawake.mp rfl] at hqueue
      simpa [current] using hqueue.symm
    · obtain ⟨b,rest,hbuf,rfl,hnil,_⟩ := hawake
      rw [hbuf,List.flatMap_singleton,hnil] at hqueue
      simpa [current] using hqueue.symm
  answered := h.sync.answered
  freed b hb := by
    have hnot : b ∉ x.buffers := fun hm => h.chain.not_freed hm hb
    refine ⟨fun m hm hmb => ?_,fun hu => hnot (h.chain.busy b hu),fun t hu =>
      (h.sync.live t b hu).2 hb⟩
    rw [h.chain.queue] at hm
    rcases List.mem_append.mp hm with hm | hm
    · rcases List.mem_append.mp hm with hm | hm
      · exact hm
      · exact absurd (h.chain.busy _ (current_uses hm)) (hmb ▸ hnot)
    · unfold todo at hm
      obtain ⟨b',hb',hm⟩ := List.mem_flatMap.mp hm
      obtain ⟨r,_,rfl⟩ := List.mem_map.mp hm
      obtain rfl : b' = b := hmb
      exact absurd hb' hnot

theorem Inv.astray {x : State τ} (h : Inv x)
    (hd : x.dispatcher = .noBuffer false ∨ x.dispatcher = .noMessage false) :
    ∃ b p, (FusionDispatcher.resume x).dispatcher = .garbage b p ∨
      (FusionDispatcher.resume x).dispatcher = .null := by
  have hawake := h.awake
  unfold Awake at hawake
  unfold FusionDispatcher.resume
  rcases hd with hd | hd <;> rw [hd] at hawake
  · rw [hd,hawake.mp rfl]
    exact ⟨0,0,.inr rfl⟩
  · obtain ⟨b,rest,hbuf,rfl,hnil,hfree⟩ := hawake
    have hup : ¬ (x.store b).usedUp = true := by
      rw [(h.chain.good b).usedUp,hfree]
      exact fun h => Bool.false_ne_true h.1
    rw [hd,hbuf]
    refine ⟨b,(x.store b).readPos,.inl ?_⟩
    dsimp only
    rw [if_neg hup,FusionDispatcher.fetch]
    rw [(h.chain.good b).call?,hnil]
    rfl

/-- In every run messages are handled once and in order, and no buffer is freed in use, as
long as the dispatcher never wakes up without a signal and frees nothing between the last
sections of a synchronous call. Any step that breaks this goes wrong. -/
theorem dispatcher_exact [DecidableEq τ] : (∀ x : State τ, Reaches step Kept init x → Good x) ∧
    ∀ (x x' : State τ) (e : Event τ), Reaches step Kept init x → ¬ Kept x e →
      step x e = some x' → ¬ Good x' := by
  have hinv : ∀ x : State τ, Reaches step Kept init x → Inv x :=
    fun x h => h.invariant Inv (fun _ => Inv.init) fun _ _ _ hi hk hs => hi.step hk hs
  refine ⟨fun x h => (hinv x h).good,fun x x' e h hk hs hgood => ?_⟩
  cases e with
  | spurious =>
    simp only [step] at hs
    have hres : ∀ hd : x.dispatcher = .noBuffer false ∨ x.dispatcher = .noMessage false,
        x' ≠ resume x := by
      rintro hd rfl
      obtain ⟨b,p,hbad | hbad⟩ := (hinv x h).astray hd
      · exact (hgood.found b p).1 hbad
      · exact (hgood.found b p).2 hbad
    split at hs
    · next hd => exact hres (.inl hd) (Option.some.inj hs).symm
    · next hd => exact hres (.inr hd) (Option.some.inj hs).symm
    · cases hs
  | finish =>
    simp only [Kept,not_forall,not_not] at hk
    obtain ⟨b,r,hd,hr,t,p,ht⟩ := hk
    simp only [step,hd,Option.some.injEq] at hs
    subst hs
    unfold finish at hgood
    rw [hr] at hgood
    exact (hgood.freed r (List.mem_append_right _ List.mem_cons_self)).2.2 t
      (by dsimp only; rw [ht]; rfl)
  | _ => exact hk trivial

end Sync

def start : State (Fin 2) :=
  ⟨fun _ => {},[],[],[],0,fun _ => false,.top,fun _ => .idle,[],[]⟩

/-- While a caller is about to read its result, a message comes that needs a buffer of its
own, and the dispatcher frees the buffer with the result. And without any message it wakes
up for nothing. -/
theorem freed_or_astray :
    (∃ x, exec step start [Event.process 0 ⟨.handler3 0,false,0,true,by decide⟩,.loop,.handle,
      .processed,.wake 0,.count 0,.reactions 1 0 0 65456,.finish,.loop,.handle,.processed,
      .finish] = some x ∧ ¬ Good x) ∧
    ∃ x, exec step start [Event.loop,.spurious] = some x ∧ ¬ Good x := by
  refine ⟨⟨_,rfl,fun h => ?_⟩,_,rfl,fun h => (h.found 0 0).2 rfl⟩
  exact (h.freed 0 (by decide)).2.2 0 rfl

end DirectFB.FusionDispatcher
