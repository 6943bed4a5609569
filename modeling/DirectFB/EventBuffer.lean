import DirectFB.Reaches
import DirectFB.Types

/-! An `IDirectFBEventBuffer`: the queue of events, the statistics about it, and the thread that
feeds the pipe. -/
namespace DirectFB.EventBuffer
open Transition

/-- The types of input events that are counted. -/
inductive DFBInputEventType
  | keyPress | keyRelease | buttonPress | buttonRelease | axisMotion
  deriving DecidableEq

/-- The types of window events that are counted. -/
inductive DFBWindowEventType
  | position | size | close | destroyed | gotFocus | lostFocus | keyDown | keyUp | buttonDown
  | buttonUp | motion | enter | leave | wheel | positionSize
  deriving DecidableEq

/-- The types of video provider events that are counted. -/
inductive DFBVideoProviderEventType
  | started | stopped | speedChange | streamChange | fatalError | finished | surfaceChange
  | frameDecoded | frameDisplayed | dataExhausted | videoAction | dataLow | dataHigh
  | bufferTimeLow | bufferTimeHigh
  deriving DecidableEq

/-- An event. A type on the right is a value without a counter, and the `rest` is what is
copied only. -/
inductive DFBEvent (δ : Type)
  | input (type : DFBInputEventType ⊕ ℕ) (repeated : Bool) (rest : δ)
  | window (type : DFBWindowEventType ⊕ ℕ) (repeated : Bool) (rest : δ)
  | user (rest : δ)
  | universal (size : ℕ) (rest : δ)
  | videoprovider (type : DFBVideoProviderEventType ⊕ ℕ) (rest : δ)
  | surface (rest : δ)
  | unknown (clazz : ℕ)
  deriving DecidableEq

/-- The fields of `DFBEventBufferStats`. -/
inductive Counter
  | numEvents | input | window | user | universal | videoprovider
  | inputType (type : DFBInputEventType)
  | windowType (type : DFBWindowEventType)
  | videoproviderType (type : DFBVideoProviderEventType)
  deriving DecidableEq

def typeCounter {τ : Type} (counter : τ → Counter) : τ ⊕ ℕ → List Counter
  | .inl type => [counter type]
  | .inr _ => []

/-- The counters that `CollectEventStatistics` adds to. There is none for the class of surface
events. -/
def counters {δ : Type} : DFBEvent δ → List Counter
  | .input type _ _ => .numEvents::.input::typeCounter .inputType type
  | .window type _ _ => .numEvents::.window::typeCounter .windowType type
  | .user _ => [.numEvents,.user]
  | .universal _ _ => [.numEvents,.universal]
  | .videoprovider type _ => .numEvents::.videoprovider::typeCounter .videoproviderType type
  | .surface _ => [.numEvents]
  | .unknown _ => [.numEvents]

/-- `CollectEventStatistics`, on counters of 32 bits. -/
def collectEventStatistics {δ : Type} (stats : Counter → ℕ) (e : DFBEvent δ) (incdec : ℤ) :
    Counter → ℕ := fun c =>
  if c ∈ counters e then (((stats c : ℤ)+incdec) % 2^32).toNat else stats c

/-- Size of a `DFBUniversalEvent`. -/
def sizeofUniversal : ℕ := 8

/-- What is fixed: the size of a `DFBEvent`, and the option `discard_repeat_events`. -/
structure Config where
  sizeofEvent : ℕ
  discardRepeatEvents : Bool

/-- The private data of `IDirectFBEventBuffer`, and the item that the thread is writing. -/
structure Data (δ : Type) where
  events : List (DFBEvent δ)
  pipe : Bool
  stats : Counter → ℕ
  statsEnabled : Bool
  feeding : Option (DFBEvent δ)

/-- The calls, the reactions to devices, windows and surfaces, and the steps of the thread.
Where an event is posted it is also said whether the filter takes it. -/
inductive Action (δ : Type)
  | postEvent (e : DFBEvent δ) (filtered : Bool)
  | inputReact (type : DFBInputEventType ⊕ ℕ) (repeated : Bool) (rest : δ) (filtered : Bool)
  | windowReact (type : DFBWindowEventType ⊕ ℕ) (repeated : Bool) (rest : δ) (filtered : Bool)
  | surfaceReact (rest : δ) (filtered : Bool)
  | attachSurface (flips : ℕ) (flipping : Bool) (rest : δ) (filtered : Bool)
  | getEvent
  | peekEvent
  | reset
  | enableStatistics (enable : Bool)
  | getStatistics
  | createFileDescriptor (ret : DirectResult)
  | feedTake
  | feedWrite

structure Answer (δ : Type) where
  ret : DirectResult
  event : Option (DFBEvent δ) := none
  stats : Option (Counter → ℕ) := none

section Calls
variable {δ : Type}

/-- The classes and sizes that `PostEvent` takes. -/
def postable (c : Config) : DFBEvent δ → Bool
  | .universal size _ => sizeofUniversal ≤ size && size ≤ c.sizeofEvent
  | .unknown _ => false
  | _ => true

/-- The event that is given to `AddItem`, and whether the filter takes it. -/
def Action.item (c : Config) : Action δ → Option (DFBEvent δ × Bool)
  | .postEvent e filtered => if postable c e then some (e,filtered) else none
  | .inputReact type repeated rest filtered =>
    if c.discardRepeatEvents && repeated then none
    else some (.input type repeated rest,filtered)
  | .windowReact type repeated rest filtered =>
    if c.discardRepeatEvents && repeated then none
    else some (.window type repeated rest,filtered)
  | .surfaceReact rest filtered => some (.surface rest,filtered)
  | .attachSurface flips flipping rest filtered =>
    if 0 < flips || !flipping then some (.surface rest,filtered) else none
  | _ => none

/-- `IDirectFBEventBuffer_AddItem` -/
def addItem (s : Data δ) (e : DFBEvent δ) (filtered : Bool) : Data δ :=
  if filtered then s
  else
    {s with
      stats := if s.statsEnabled then collectEventStatistics s.stats e 1 else s.stats
      events := s.events++[e]}

def takeItem (s : Data δ) (e : DFBEvent δ) (rest : List (DFBEvent δ)) : Data δ :=
  {s with
    stats := if s.statsEnabled then collectEventStatistics s.stats e (-1) else s.stats
    events := rest}

/-- `IDirectFBEventBuffer_GetEvent` -/
def getEvent (s : Data δ) : Data δ × Answer δ :=
  if s.pipe then (s,{ret := .unsupported})
  else
    match s.events with
    | [] => (s,{ret := .bufferEmpty})
    | e::rest => (takeItem s e rest,{ret := .ok, event := some e})

/-- `IDirectFBEventBuffer_PeekEvent` -/
def peekEvent (s : Data δ) : Answer δ :=
  if s.pipe then {ret := .unsupported}
  else
    match s.events with
    | [] => {ret := .bufferEmpty}
    | e::_ => {ret := .ok, event := some e}

/-- `IDirectFBEventBuffer_Reset` -/
def reset (s : Data δ) : Data δ × Answer δ :=
  if s.pipe then (s,{ret := .unsupported}) else ({s with events := []},{ret := .ok})

/-- `IDirectFBEventBuffer_EnableStatistics` -/
def enableStatistics (s : Data δ) (enable : Bool) : Data δ :=
  if s.statsEnabled = enable then s
  else if enable then
    {s with
      stats := s.events.foldl (fun stats e => collectEventStatistics stats e 1) s.stats
      statsEnabled := true}
  else {s with stats := fun _ => 0, statsEnabled := false}

/-- `IDirectFBEventBuffer_CreateFileDescriptor`, with what the socket pair answers. -/
def createFileDescriptor (s : Data δ) (ret : DirectResult) : Data δ × Answer δ :=
  if s.pipe then (s,{ret := .busy})
  else if ret = .ok then ({s with pipe := true},{ret := .ok})
  else (s,{ret := ret})

def feedTake (s : Data δ) : Option (Data δ) :=
  if s.pipe = true ∧ s.feeding = none then
    match s.events with
    | [] => none
    | .universal size rest::es => some (takeItem s (.universal size rest) es)
    | e::es => some {takeItem s e es with feeding := some e}
  else none

def feedWrite (s : Data δ) : Option (Data δ) :=
  if s.feeding.isSome then some {s with feeding := none} else none

def post (c : Config) (s : Data δ) (a : Action δ) : Data δ :=
  match a.item c with
  | some (e,filtered) => addItem s e filtered
  | none => s

def perform (c : Config) (s : Data δ) (a : Action δ) : Option (Data δ × Answer δ) :=
  match a with
  | .getEvent => some (getEvent s)
  | .peekEvent => some (s,peekEvent s)
  | .reset => some (reset s)
  | .enableStatistics enable => some (enableStatistics s enable,{ret := .ok})
  | .getStatistics =>
    some (s,if s.statsEnabled then {ret := .ok, stats := some s.stats} else {ret := .unsupported})
  | .createFileDescriptor ret => some (createFileDescriptor s ret)
  | .feedTake => (feedTake s).map fun t => (t,{ret := .ok})
  | .feedWrite => (feedWrite s).map fun t => (t,{ret := .ok})
  | .postEvent e filtered =>
    some (post c s (.postEvent e filtered),{ret := if postable c e then .ok else .invArg})
  | a => some (post c s a,{ret := .ok})

end Calls

/-- What became of an event: it was returned by `GetEvent`, discarded by `Reset`, written to the
pipe, or was not supported in pipe mode. -/
inductive Fate
  | got | discarded | written | unsupported
  deriving DecidableEq

/-- The event buffer, the events that were accepted, and what became of those not queued. -/
structure State (δ : Type) where
  data : Data δ
  accepted : List (DFBEvent δ)
  gone : List (DFBEvent δ × Fate)

section Runs
variable {δ : Type}

def Action.accepted (c : Config) (a : Action δ) : List (DFBEvent δ) :=
  match a.item c with
  | some (e,false) => [e]
  | _ => []

/-- The events that an action does away with. -/
def Action.gone (s : Data δ) (answer : Answer δ) : Action δ → List (DFBEvent δ × Fate)
  | .getEvent => answer.event.toList.map fun e => (e,.got)
  | .reset => if answer.ret = .ok then s.events.map fun e => (e,.discarded) else []
  | .feedTake =>
    match s.events with
    | .universal size rest::_ => [(.universal size rest,.unsupported)]
    | _ => []
  | .feedWrite => s.feeding.toList.map fun e => (e,.written)
  | _ => []

def step (c : Config) (x : State δ) (a : Action δ) : Option (State δ) :=
  (perform c x.data a).map fun r => ⟨r.1,x.accepted++a.accepted c,x.gone++a.gone x.data r.2⟩

def init (x : State δ) : Prop := x = ⟨⟨[],false,fun _ => 0,false,none⟩,[],[]⟩

/-- What a counter is for. -/
def Counter.counts : Counter → DFBEvent δ → Bool
  | .numEvents, _ => true
  | .input, .input _ _ _ => true
  | .window, .window _ _ _ => true
  | .user, .user _ => true
  | .universal, .universal _ _ => true
  | .videoprovider, .videoprovider _ _ => true
  | .inputType t, .input type _ _ => type = .inl t
  | .windowType t, .window type _ _ => type = .inl t
  | .videoproviderType t, .videoprovider type _ => type = .inl t
  | _, _ => false

def Kept (c : Config) (x : State δ) (a : Action δ) : Prop :=
  (a = .reset → x.data.pipe = true ∨ x.data.statsEnabled = false ∨ x.data.events = []) ∧
    (a.accepted c ≠ [] → x.data.events.length+1 < 2^32)

theorem mem_counters (c : Counter) (e : DFBEvent δ) : c ∈ counters e ↔ c.counts e = true := by
  cases e with
  | input type repeated rest =>
    cases type <;> cases c <;> simp [counters,typeCounter,Counter.counts,eq_comm]
  | window type repeated rest =>
    cases type <;> cases c <;> simp [counters,typeCounter,Counter.counts,eq_comm]
  | videoprovider type rest =>
    cases type <;> cases c <;> simp [counters,typeCounter,Counter.counts,eq_comm]
  | user rest => cases c <;> simp [counters,Counter.counts]
  | universal size rest => cases c <;> simp [counters,Counter.counts]
  | surface rest => cases c <;> simp [counters,Counter.counts]
  | unknown clazz => cases c <;> simp [counters,Counter.counts]

theorem collect_add {stats : Counter → ℕ} {e : DFBEvent δ} {c : Counter} (h : stats c+1 < 2^32) :
    collectEventStatistics stats e 1 c = stats c+if c.counts e then 1 else 0 := by
  unfold collectEventStatistics
  by_cases hc : c.counts e = true
  · rw [if_pos ((mem_counters c e).mpr hc),if_pos hc]
    omega
  · rw [if_neg (mt (mem_counters c e).mp hc),if_neg hc,Nat.add_zero]

theorem collect_sub {stats : Counter → ℕ} {e : DFBEvent δ} {c : Counter} {n : ℕ}
    (h : stats c = n+if c.counts e then 1 else 0) (hn : n+1 < 2^32) :
    collectEventStatistics stats e (-1) c = n := by
  unfold collectEventStatistics
  by_cases hc : c.counts e = true
  · rw [if_pos hc] at h
    rw [if_pos ((mem_counters c e).mpr hc),h]
    omega
  · rw [if_neg hc] at h
    rw [if_neg (mt (mem_counters c e).mp hc),h,Nat.add_zero]

theorem collect_all {c : Counter} (es : List (DFBEvent δ)) (stats : Counter → ℕ)
    (h : stats c+es.length < 2^32) :
    es.foldl (fun stats e => collectEventStatistics stats e 1) stats c =
      stats c+es.countP c.counts := by
  induction es generalizing stats with
  | nil => rfl
  | cons e es ih =>
    rw [List.length_cons] at h
    have hadd : collectEventStatistics stats e 1 c = stats c+if c.counts e then 1 else 0 :=
      collect_add (by omega)
    have hle : (if c.counts e then 1 else 0) ≤ 1 := by split_ifs <;> omega
    rw [List.foldl_cons,ih _ (by omega),hadd,List.countP_cons]
    omega

structure Counted (s : Data δ) : Prop where
  enabled : s.statsEnabled = true → ∀ c : Counter, s.stats c = s.events.countP c.counts
  disabled : s.statsEnabled = false → ∀ c, s.stats c = 0
  bound : s.events.length < 2^32

/-- An accepted event has gone one way, or is the one that the thread writes, or is queued. -/
structure Fates (x : State δ) : Prop where
  order : x.accepted = x.gone.map Prod.fst++(x.data.feeding.toList++x.data.events)
  unpiped : x.data.pipe = false →
    x.data.feeding = none ∧ ∀ p ∈ x.gone, p.2 = .got ∨ p.2 = .discarded
  unsupported : ∀ e, (e,Fate.unsupported) ∈ x.gone → ∃ size rest, e = .universal size rest
  written : ∀ size rest, (.universal size rest,Fate.written) ∉ x.gone
  feeding : ∀ size rest, x.data.feeding ≠ some (.universal size rest)

section Counted
variable {c : Config} {s : Data δ}

theorem Counted.addItem (h : Counted s) (e : DFBEvent δ) (filtered : Bool)
    (hbound : filtered = false → s.events.length+1 < 2^32) : Counted (addItem s e filtered) := by
  cases filtered with
  | true => exact h
  | false =>
    have hlen : s.events.length+1 < 2^32 := hbound rfl
    refine ⟨fun hon k => ?_,fun hoff k => ?_,?_⟩
    · have hk := h.enabled hon k
      have hle : s.events.countP k.counts ≤ s.events.length := List.countP_le_length
      change (if s.statsEnabled = true then collectEventStatistics s.stats e 1 else s.stats) k =
        (s.events++[e]).countP k.counts
      rw [if_pos (show s.statsEnabled = true from hon),collect_add (by omega),hk,List.countP_append,List.countP_singleton]
    · change (if s.statsEnabled = true then collectEventStatistics s.stats e 1 else s.stats) k = 0
      rw [if_neg (by rw [show s.statsEnabled = false from hoff]; decide)]
      exact h.disabled hoff k
    · change (s.events++[e]).length < 2^32
      rw [List.length_append]
      exact hlen

theorem Counted.takeItem (h : Counted s) {e : DFBEvent δ} {rest : List (DFBEvent δ)}
    (hevents : s.events = e::rest) : Counted (takeItem s e rest) := by
  have hlen := h.bound
  rw [hevents,List.length_cons] at hlen
  refine ⟨fun hon k => ?_,fun hoff k => ?_,(Nat.lt_succ_self _).trans hlen⟩
  · have hk := h.enabled hon k
    rw [hevents,List.countP_cons] at hk
    have hle : rest.countP k.counts ≤ rest.length := List.countP_le_length
    change (if s.statsEnabled = true then collectEventStatistics s.stats e (-1) else s.stats) k =
      rest.countP k.counts
    rw [if_pos (show s.statsEnabled = true from hon)]
    exact collect_sub hk (by omega)
  · change (if s.statsEnabled = true then collectEventStatistics s.stats e (-1) else s.stats) k = 0
    rw [if_neg (by rw [show s.statsEnabled = false from hoff]; decide)]
    exact h.disabled hoff k

theorem Counted.enableStatistics (h : Counted s) (enable : Bool) :
    Counted (enableStatistics s enable) := by
  unfold EventBuffer.enableStatistics
  split_ifs with hsame hon
  · exact h
  · -- those that are queued already
    have hoff : s.statsEnabled = false := by
      rw [hon] at hsame
      exact Bool.eq_false_of_not_eq_true hsame
    refine ⟨fun _ k => ?_,fun hfalse => (by cases hfalse),h.bound⟩
    have hzero := h.disabled hoff k
    have hbound := h.bound
    change s.events.foldl _ s.stats k = s.events.countP k.counts
    rw [collect_all _ _ (by omega),hzero,Nat.zero_add]
  · exact ⟨fun hfalse => (by cases hfalse),fun _ _ => rfl,h.bound⟩

theorem Counted.post (h : Counted s) {a : Action δ}
    (hbound : a.accepted c ≠ [] → s.events.length+1 < 2^32) : Counted (post c s a) := by
  unfold EventBuffer.post
  unfold Action.accepted at hbound
  cases hitem : a.item c with
  | none => exact h
  | some item =>
    rw [hitem] at hbound
    obtain ⟨e,filtered⟩ := item
    refine h.addItem e filtered fun hfilter => hbound ?_
    rw [hfilter]
    exact List.cons_ne_nil _ _

theorem perform_counted {a : Action δ} {r : Data δ × Answer δ} (h : Counted s)
    (hreset : a = .reset → s.pipe = true ∨ s.statsEnabled = false ∨ s.events = [])
    (hbound : a.accepted c ≠ [] → s.events.length+1 < 2^32) (hr : perform c s a = some r) :
    Counted r.1 := by
  cases a with
  | postEvent e filtered =>
    obtain rfl := Option.some.inj hr
    exact h.post hbound
  | inputReact type repeated rest filtered =>
    obtain rfl := Option.some.inj hr
    exact h.post hbound
  | windowReact type repeated rest filtered =>
    obtain rfl := Option.some.inj hr
    exact h.post hbound
  | surfaceReact rest filtered =>
    obtain rfl := Option.some.inj hr
    exact h.post hbound
  | attachSurface flips flipping rest filtered =>
    obtain rfl := Option.some.inj hr
    exact h.post hbound
  | getEvent =>
    obtain rfl := Option.some.inj hr
    unfold getEvent
    split_ifs
    · exact h
    · cases hevents : s.events with
      | nil => exact h
      | cons e rest => exact h.takeItem hevents
  | peekEvent =>
    obtain rfl := Option.some.inj hr
    exact h
  | reset =>
    obtain rfl := Option.some.inj hr
    unfold reset
    split_ifs with hpipe
    · exact h
    · obtain hp | hoff | hempty := hreset rfl
      · exact absurd hp hpipe
      · refine ⟨fun hon => ?_,h.disabled,Nat.two_pow_pos 32⟩
        rw [show s.statsEnabled = true from hon] at hoff
        cases hoff
      · refine ⟨fun hon k => ?_,h.disabled,Nat.two_pow_pos 32⟩
        have hk := h.enabled hon k
        rwa [hempty] at hk
  | enableStatistics enable =>
    obtain rfl := Option.some.inj hr
    exact h.enableStatistics enable
  | getStatistics =>
    obtain rfl := Option.some.inj hr
    exact h
  | createFileDescriptor ret =>
    obtain rfl := Option.some.inj hr
    unfold createFileDescriptor
    split_ifs
    · exact h
    · exact ⟨h.enabled,h.disabled,h.bound⟩
    · exact h
  | feedTake =>
    obtain ⟨t,ht,rfl⟩ := Option.map_eq_some_iff.mp hr
    unfold feedTake at ht
    split_ifs at ht
    split at ht
    · cases ht
    · rename_i size rest es hevents
      obtain rfl := Option.some.inj ht
      exact h.takeItem hevents
    · rename_i e es _ hevents
      obtain rfl := Option.some.inj ht
      have htake := h.takeItem hevents
      exact ⟨htake.enabled,htake.disabled,htake.bound⟩
  | feedWrite =>
    obtain ⟨t,ht,rfl⟩ := Option.map_eq_some_iff.mp hr
    unfold feedWrite at ht
    split_ifs at ht
    obtain rfl := Option.some.inj ht
    exact ⟨h.enabled,h.disabled,h.bound⟩

end Counted

section Fates
variable {c : Config} {x : State δ}

theorem Fates.post (h : Fates x) (a : Action δ) :
    Fates ⟨post c x.data a,x.accepted++a.accepted c,x.gone++[]⟩ := by
  unfold EventBuffer.post Action.accepted
  rw [List.append_nil]
  match a.item c with
  | none =>
    rw [List.append_nil]
    exact h
  | some (e,true) =>
    rw [List.append_nil]
    exact h
  | some (e,false) =>
    refine ⟨?_,h.unpiped,h.unsupported,h.written,h.feeding⟩
    change x.accepted++[e] = x.gone.map Prod.fst++(x.data.feeding.toList++(x.data.events++[e]))
    rw [h.order,List.append_assoc,List.append_assoc]

/-- What is taken without the thread was in no pipe. -/
theorem Fates.take (h : Fates x) {s : Data δ} {l : List (DFBEvent δ)} {f : Fate}
    (hpipe : x.data.pipe = false) (hevents : x.data.events = l++s.events)
    (hf : f = .got ∨ f = .discarded) (hfeeding : s.feeding = x.data.feeding) :
    Fates ⟨s,x.accepted,x.gone++l.map fun e => (e,f)⟩ := by
  have hnone := (h.unpiped hpipe).1
  have hfst : (l.map fun e => (e,f)).map Prod.fst = l := by
    rw [List.map_map]
    exact List.map_id l
  have hfate : ∀ p ∈ x.gone++l.map fun e => (e,f), p.2 = .got ∨ p.2 = .discarded := by
    intro p hp
    obtain hold | hnew := List.mem_append.mp hp
    · exact (h.unpiped hpipe).2 p hold
    · obtain ⟨e,-,rfl⟩ := List.mem_map.mp hnew
      exact hf
  refine ⟨?_,fun _ => ⟨hfeeding.trans hnone,hfate⟩,fun e he => ?_,fun size rest he => ?_,
    fun size rest => ?_⟩
  · change x.accepted = _
    rw [h.order,hfeeding,hnone,hevents,List.map_append,hfst]
    simp
  · obtain hgot | hdiscarded := hfate _ he
    · cases hgot
    · cases hdiscarded
  · obtain hgot | hdiscarded := hfate _ he
    · cases hgot
    · cases hdiscarded
  · rw [show s.feeding = none from hfeeding.trans hnone]
    exact fun h => by cases h

theorem Fates.same (h : Fates x) {s : Data δ} (hevents : s.events = x.data.events)
    (hfeeding : s.feeding = x.data.feeding) (hpipe : s.pipe = false → x.data.pipe = false) :
    Fates ⟨s,x.accepted++[],x.gone++[]⟩ := by
  rw [List.append_nil,List.append_nil]
  refine ⟨?_,fun hp => ?_,h.unsupported,h.written,?_⟩
  · change x.accepted = x.gone.map Prod.fst++(s.feeding.toList++s.events)
    rw [hevents,hfeeding]
    exact h.order
  · change s.feeding = none ∧ _
    rw [hfeeding]
    exact h.unpiped (hpipe hp)
  · change ∀ size rest, s.feeding ≠ _
    rw [hfeeding]
    exact h.feeding

/-- The thread takes the first item, which it has to write then if it is not universal. -/
theorem Fates.feedTake (h : Fates x) {s : Data δ} (hs : feedTake x.data = some s) :
    Fates ⟨s,x.accepted++[],x.gone++Action.feedTake.gone x.data {ret := .ok}⟩ := by
  rw [List.append_nil]
  unfold EventBuffer.feedTake at hs
  split_ifs at hs with hfeed
  obtain ⟨hpipe,hnone⟩ := hfeed
  have horder := h.order
  rw [hnone] at horder
  split at hs
  · cases hs
  · -- a universal event is not supported
    rename_i size rest es hevents
    obtain rfl := Option.some.inj hs
    have hgone : Action.feedTake.gone x.data {ret := .ok} =
        [(DFBEvent.universal size rest,Fate.unsupported)] := by
      unfold Action.gone
      rw [hevents]
    rw [hgone]
    refine ⟨?_,fun hp => ?_,fun e he => ?_,fun size' rest' he => ?_,h.feeding⟩
    · change x.accepted =
        (x.gone++[(DFBEvent.universal size rest,Fate.unsupported)]).map Prod.fst++(x.data.feeding.toList++es)
      rw [hnone,horder,hevents,List.map_append]
      simp
    · rw [show x.data.pipe = false from hp] at hpipe
      cases hpipe
    · obtain hold | hnew := List.mem_append.mp he
      · exact h.unsupported e hold
      · obtain rfl : e = .universal size rest := by simpa using hnew
        exact ⟨size,rest,rfl⟩
    · obtain hold | hnew := List.mem_append.mp he
      · exact h.written size' rest' hold
      · simp at hnew
  · rename_i e es huniversal hevents
    obtain rfl := Option.some.inj hs
    have hgone : Action.feedTake.gone x.data {ret := .ok} = [] := by
      unfold Action.gone
      rw [hevents]
      dsimp only
      split
      · rename_i heq
        cases heq
        exact (huniversal _ _ rfl).elim
      · rfl
    rw [hgone,List.append_nil]
    refine ⟨?_,fun hp => ?_,h.unsupported,h.written,fun size rest heq => ?_⟩
    · change x.accepted = x.gone.map Prod.fst++([e]++es)
      rw [horder,hevents]
      rfl
    · rw [show x.data.pipe = false from hp] at hpipe
      cases hpipe
    · obtain rfl := Option.some.inj heq
      exact (huniversal _ _ rfl).elim

theorem Fates.feedWrite (h : Fates x) {s : Data δ} (hs : feedWrite x.data = some s) :
    Fates ⟨s,x.accepted++[],x.gone++Action.feedWrite.gone x.data {ret := .ok}⟩ := by
  rw [List.append_nil]
  unfold EventBuffer.feedWrite at hs
  split_ifs at hs with hfeed
  obtain rfl := Option.some.inj hs
  obtain ⟨e,he⟩ := Option.isSome_iff_exists.mp hfeed
  have hgone : Action.feedWrite.gone x.data {ret := .ok} = [(e,Fate.written)] := by
    unfold Action.gone
    rw [he]
    rfl
  rw [hgone]
  refine ⟨?_,fun hp => ?_,fun e' he' => ?_,fun size rest hmem => ?_,fun size rest heq => ?_⟩
  · change x.accepted = (x.gone++[(e,Fate.written)]).map Prod.fst++([]++x.data.events)
    rw [h.order,he,List.map_append]
    simp
  · rw [(h.unpiped hp).1] at he
    cases he
  · obtain hold | hnew := List.mem_append.mp he'
    · exact h.unsupported e' hold
    · simp at hnew
  · obtain hold | hnew := List.mem_append.mp hmem
    · exact h.written size rest hold
    · obtain rfl : e = .universal size rest := by simpa [eq_comm] using hnew
      exact h.feeding size rest he
  · cases heq

theorem step_fates {a : Action δ} {y : State δ} (h : Fates x) (hs : step c x a = some y) :
    Fates y := by
  obtain ⟨r,hr,rfl⟩ := Option.map_eq_some_iff.mp hs
  cases a with
  | postEvent e filtered =>
    obtain rfl := Option.some.inj hr
    exact h.post (.postEvent e filtered)
  | inputReact type repeated rest filtered =>
    obtain rfl := Option.some.inj hr
    exact h.post (.inputReact type repeated rest filtered)
  | windowReact type repeated rest filtered =>
    obtain rfl := Option.some.inj hr
    exact h.post (.windowReact type repeated rest filtered)
  | surfaceReact rest filtered =>
    obtain rfl := Option.some.inj hr
    exact h.post (.surfaceReact rest filtered)
  | attachSurface flips flipping rest filtered =>
    obtain rfl := Option.some.inj hr
    exact h.post (.attachSurface flips flipping rest filtered)
  | getEvent =>
    obtain rfl := Option.some.inj hr
    change Fates ⟨(getEvent x.data).1,x.accepted++[],
      x.gone++(getEvent x.data).2.event.toList.map fun e => (e,.got)⟩
    unfold getEvent
    split_ifs with hpipe
    · exact h.same rfl rfl id
    · cases hevents : x.data.events with
      | nil => exact h.same rfl rfl id
      | cons e rest =>
        rw [List.append_nil]
        exact h.take (l := [e]) (Bool.eq_false_of_not_eq_true hpipe) hevents (.inl rfl) rfl
  | peekEvent =>
    obtain rfl := Option.some.inj hr
    exact h.same rfl rfl id
  | reset =>
    obtain rfl := Option.some.inj hr
    change Fates ⟨(reset x.data).1,x.accepted++[],
      x.gone++if (reset x.data).2.ret = .ok then x.data.events.map fun e => (e,.discarded) else []⟩
    unfold reset
    split_ifs with hpipe hret hret
    · cases hret
    · exact h.same rfl rfl id
    · rw [List.append_nil]
      exact h.take (Bool.eq_false_of_not_eq_true hpipe) (List.append_nil _).symm (.inr rfl) rfl
    · exact absurd rfl hret
  | enableStatistics enable =>
    obtain rfl := Option.some.inj hr
    change Fates ⟨enableStatistics x.data enable,x.accepted++[],x.gone++[]⟩
    unfold enableStatistics
    split_ifs
    · exact h.same rfl rfl id
    · exact h.same rfl rfl id
    · exact h.same rfl rfl id
  | getStatistics =>
    obtain rfl := Option.some.inj hr
    exact h.same rfl rfl id
  | createFileDescriptor ret =>
    obtain rfl := Option.some.inj hr
    change Fates ⟨(createFileDescriptor x.data ret).1,x.accepted++[],x.gone++[]⟩
    unfold createFileDescriptor
    split_ifs
    · exact h.same rfl rfl id
    · exact h.same rfl rfl fun hp => (by cases hp)
    · exact h.same rfl rfl id
  | feedTake =>
    obtain ⟨s,hfeed,rfl⟩ := Option.map_eq_some_iff.mp hr
    exact h.feedTake hfeed
  | feedWrite =>
    obtain ⟨s,hfeed,rfl⟩ := Option.map_eq_some_iff.mp hr
    exact h.feedWrite hfeed

end Fates

/-- What takes nothing out of a queue that is read with `GetEvent`. -/
def Action.leaves : Action δ → Prop
  | .getEvent | .reset | .createFileDescriptor _ => False
  | _ => True

theorem step_head {c : Config} {x y : State δ} {a : Action δ} {e : DFBEvent δ}
    (h : ∃ es, x.data.pipe = false ∧ x.data.events = e::es) (hleaves : a.leaves)
    (hs : step c x a = some y) : ∃ es, y.data.pipe = false ∧ y.data.events = e::es := by
  obtain ⟨es,hpipe,hevents⟩ := h
  obtain ⟨r,hr,rfl⟩ := Option.map_eq_some_iff.mp hs
  have hpost : ∃ es, (post c x.data a).pipe = false ∧ (post c x.data a).events = e::es := by
    unfold post
    match a.item c with
    | none => exact ⟨es,hpipe,hevents⟩
    | some (_,true) => exact ⟨es,hpipe,hevents⟩
    | some (e',false) => exact ⟨es++[e'],hpipe,by change x.data.events++[e'] = _; rw [hevents]; rfl⟩
  cases a with
  | postEvent | inputReact | windowReact | surfaceReact | attachSurface =>
    obtain rfl := Option.some.inj hr
    exact hpost
  | getEvent | reset | createFileDescriptor => exact hleaves.elim
  | peekEvent | getStatistics =>
    obtain rfl := Option.some.inj hr
    exact ⟨es,hpipe,hevents⟩
  | enableStatistics enable =>
    obtain rfl := Option.some.inj hr
    refine ⟨es,?_,?_⟩
    · change (enableStatistics x.data enable).pipe = false
      unfold enableStatistics
      split_ifs <;> exact hpipe
    · change (enableStatistics x.data enable).events = e::es
      unfold enableStatistics
      split_ifs <;> exact hevents
  | feedTake =>
    obtain ⟨s,hfeed,rfl⟩ := Option.map_eq_some_iff.mp hr
    unfold feedTake at hfeed
    rw [if_neg (by rw [hpipe]; simp)] at hfeed
    cases hfeed
  | feedWrite =>
    obtain ⟨s,hfeed,rfl⟩ := Option.map_eq_some_iff.mp hr
    unfold feedWrite at hfeed
    split_ifs at hfeed
    obtain rfl := Option.some.inj hfeed
    exact ⟨es,hpipe,hevents⟩

theorem peek_next {c : Config} {x y : State δ} {as : List (Action δ)} {e : DFBEvent δ}
    (hpeek : (peekEvent x.data).event = some e) (hleaves : ∀ a ∈ as, a.leaves)
    (hrun : exec (step c) x as = some y) : (getEvent y.data).2.event = some e := by
  have hhead : ∃ es, x.data.pipe = false ∧ x.data.events = e::es := by
    unfold peekEvent at hpeek
    split_ifs at hpeek with hpipe
    · split at hpeek
      · cases hpeek
      · rename_i e' es hevents
        obtain rfl := Option.some.inj hpeek
        exact ⟨es,Bool.eq_false_of_not_eq_true hpipe,hevents⟩
  clear hpeek
  induction as generalizing x with
  | nil =>
    obtain rfl := Option.some.inj hrun
    obtain ⟨es,hpipe,hevents⟩ := hhead
    unfold getEvent
    rw [if_neg (by rw [hpipe]; decide),hevents]
  | cons a as ih =>
    obtain ⟨z,hz,hrest⟩ := Option.bind_eq_some_iff.mp hrun
    exact ih (fun b hb => hleaves b (List.mem_cons_of_mem a hb)) hrest
      (step_head hhead (hleaves a List.mem_cons_self) hz)

/-- In every run the events keep their order, and `PeekEvent` returns what the next `GetEvent`
returns. The counters are those of the queue as long as `Reset` discards nothing that was
counted. -/
theorem event_buffer_queue {c : Config} {x : State δ}
    (h : Reaches (step c) (fun _ _ => True) init x) :
    Fates x ∧
    (∀ e as y, (peekEvent x.data).event = some e → (∀ a ∈ as, a.leaves) →
      exec (step c) x as = some y → (getEvent y.data).2.event = some e) ∧
    (Reaches (step c) (Kept c) init x → x.data.statsEnabled = true →
      ∀ k : Counter, x.data.stats k = x.data.events.countP k.counts) := by
  refine ⟨?_,fun e as y => peek_next,fun hkept => ?_⟩
  · refine h.invariant Fates (fun s hs => ?_) fun s a t hf _ hs => step_fates hf hs
    obtain rfl := hs
    exact ⟨rfl,fun _ => ⟨rfl,fun p hp => (by cases hp)⟩,fun e he => (by cases he),
      fun size rest he => (by cases he),fun size rest he => (by cases he)⟩
  · refine (hkept.invariant (fun s => Counted s.data) (fun s hs => ?_)
      fun s a t hc hk hs => ?_).enabled
    · obtain rfl := hs
      exact ⟨fun hon => (by cases hon),fun _ _ => rfl,Nat.two_pow_pos 32⟩
    · obtain ⟨r,hr,rfl⟩ := Option.map_eq_some_iff.mp hs
      exact perform_counted hc hk.1 hk.2 hr

end Runs

/-- An event for the user and one from a device are queued, and then they are counted. -/
theorem two_counted : ∃ x : State ℕ, Reaches (step ⟨64,true⟩) (Kept ⟨64,true⟩) init x ∧
    x.data.events = [.user 7,.input (.inl .keyPress) false 8] ∧
    (∀ k : Counter, x.data.stats k = x.data.events.countP k.counts) ∧
    ∀ y, exec (step ⟨64,true⟩) x [.peekEvent] = some y →
      (getEvent y.data).2.event = some (.user 7) := by
  have hstart : init (⟨⟨[],false,fun _ => 0,false,none⟩,[],[]⟩ : State ℕ) := rfl
  have hinit : Reaches (step ⟨64,true⟩) (Kept ⟨64,true⟩) init _ := .init hstart
  have hinit' : Reaches (step ⟨64,true⟩) (fun _ _ => True) init _ := .init hstart
  have hposted := hinit.step (.postEvent (.user 7) false) ⟨fun h => (by cases h),fun _ => (by decide)⟩ rfl
  have hreacted := hposted.step (.inputReact (.inl .keyPress) false 8 false)
    ⟨fun h => (by cases h),fun _ => (by decide)⟩ rfl
  have hkept := hreacted.step (.enableStatistics true)
    ⟨fun h => (by cases h),fun h => absurd rfl h⟩ rfl
  have hany := ((hinit'.step (.postEvent (.user 7) false) trivial rfl).step
    (.inputReact (.inl .keyPress) false 8 false) trivial rfl).step (.enableStatistics true) trivial rfl
  obtain ⟨-,hpeek,hstats⟩ := event_buffer_queue hany
  exact ⟨_,hkept,rfl,hstats hkept rfl,fun y => hpeek _ [.peekEvent] y rfl (by simp [Action.leaves])⟩

/-- `Reset` leaves the counters: the event that was discarded is counted for good. -/
theorem counted_after_reset : ∃ x : State ℕ,
    Reaches (step ⟨64,true⟩) (fun _ _ => True) init x ∧ x.data.statsEnabled = true ∧
      x.data.events = [] ∧ x.data.stats .numEvents = 1 ∧ x.data.stats .user = 1 := by
  have hstart : init (⟨⟨[],false,fun _ => 0,false,none⟩,[],[]⟩ : State ℕ) := rfl
  exact ⟨_,(((Reaches.init hstart).step (.enableStatistics true) trivial rfl).step
    (.postEvent (.user 7) false) trivial rfl).step .reset trivial rfl,rfl,rfl,by decide,by decide⟩

end DirectFB.EventBuffer
