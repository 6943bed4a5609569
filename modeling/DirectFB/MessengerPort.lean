import DirectFB.Reaches

/-! An event of a messenger: its dispatches are counted for the ports with listeners, each port is
notified, and remembers only its next dispatch. -/
namespace DirectFB.MessengerPort
open Function (update update_idem update_of_ne update_self)
open Transition

/-- The dispatches of an event, oldest first, with the counts of those that are live and whether
they have data; which ones and whose data were freed; and the number of the next. A `fault` is an
access to a dispatch or a node that is not live. -/
structure Heap where
  dispatches : List ℕ
  count : ℕ → Option ℕ
  data : ℕ → Bool
  freed : List ℕ
  freedData : List ℕ
  next : ℕ
  fault : Bool

/-- `EventNode`, with a number. -/
structure EventNode where
  id : ℕ
  count : ℕ
  listeners : List ℕ
  nextDispatch : Option ℕ

structure Reaction where
  node : ℕ
  notification : ℕ
  dispatch : ℕ

/-- `CoreMessengerPort`, with its node for the event, the notifications that are on the way, and
the reaction to one. The dispatches that are `owed` are those the port was notified of since it was
purged last, and has not processed. -/
structure Port where
  node : Option EventNode
  queue : List ℕ
  reaction : Option Reaction
  lastListener : ℕ
  owed : List ℕ

structure Handled where
  port : ℕ
  notification : ℕ
  dispatch : ℕ
  listeners : List ℕ

/-- `CoreMessengerEvent`, as long as it is `alive`, with the ports that have a node for it. -/
structure State where
  heap : Heap
  ports : ℕ → Port
  nodes : List ℕ
  nextNode : ℕ
  alive : Bool
  log : List Handled
  fault : Bool

namespace Heap

def create (h : Heap) (n : ℕ) (data : Bool) : Heap :=
  {h with
    dispatches := h.dispatches ++ [h.next]
    count := update h.count h.next (some n)
    data := update h.data h.next data
    next := h.next+1}

def drop (h : Heap) (d : ℕ) : Heap :=
  {h with
    dispatches := h.dispatches.erase d
    count := update h.count d none
    freed := d :: h.freed}

def freeData (h : Heap) (d : ℕ) : Heap :=
  {h with freedData := if h.data d then d :: h.freedData else h.freedData}

def putCount (h : Heap) (d n : ℕ) : Heap := {h with count := update h.count d (some n)}

def release (h : Heap) (d : ℕ) : Heap :=
  match h.count d with
  | none => {h with fault := true}
  | some n => if n-1 = 0 then (h.freeData d).drop d else h.putCount d (n-1)

def following (h : Heap) : Option ℕ → List ℕ
  | none => []
  | some d => h.dispatches.dropWhile (· ≠ d)

/-- `link.next` of a dispatch. -/
def successor (h : Heap) (d : ℕ) : Option ℕ := (h.following (some d)).tail.head?

end Heap

namespace State

def fail (x : State) : State := {x with fault := true}

def putPort (x : State) (p : ℕ) (port : Port) : State :=
  {x with ports := update x.ports p port}

def putHeap (x : State) (heap : Heap) : State := {x with heap}

def removeNode (x : State) (p : ℕ) : State :=
  {x with
    nodes := x.nodes.erase p
    alive := x.alive && !(x.nodes.erase p).isEmpty
    ports := update x.ports p {x.ports p with node := none, owed := []}}

/-- `purge_node`, with what the node has as the next dispatch. -/
def purgeNode (x : State) (p : ℕ) (nextDispatch : Option ℕ) : State :=
  (x.putHeap ((x.heap.following nextDispatch).foldl Heap.release x.heap)).removeNode p

def insertNode (x : State) (p : ℕ) : State :=
  {x with
    nodes := x.nodes ++ [p]
    nextNode := x.nextNode+1
    ports := update x.ports p {x.ports p with node := some ⟨x.nextNode,1,[],none⟩}}

def putNode (x : State) (p : ℕ) (node : EventNode) : State :=
  x.putPort p {x.ports p with node := some node}

/-- `fd_messenger_port_add_event` -/
def addEvent (x : State) (p : ℕ) : State :=
  match (x.ports p).node with
  | some node => x.putNode p {node with count := node.count+1}
  | none => x.insertNode p

/-- `fd_messenger_port_remove_event` -/
def removeEvent (x : State) (p : ℕ) : State :=
  match (x.ports p).node with
  | some node =>
    if 1 < node.count then x.putNode p {node with count := node.count-1}
    else x.purgeNode p node.nextDispatch
  | none => x

/-- `fd_messenger_port_add_listener` -/
def addListener (x : State) (p : ℕ) : State :=
  match (x.ports p).node with
  | some node =>
    let id := (x.ports p).lastListener+1
    x.putPort p {x.ports p with
      node := some {node with listeners := node.listeners ++ [id]}, lastListener := id}
  | none => x

/-- `fd_messenger_port_remove_listener` -/
def removeListener (x : State) (p id : ℕ) : State :=
  match (x.ports p).node with
  | some node => x.putNode p {node with listeners := node.listeners.erase id}
  | none => x

def listening (x : State) (p : ℕ) : Bool := (x.ports p).node.any (!·.listeners.isEmpty)

def Port.notified (port : Port) (d : ℕ) : Port :=
  {port with
    node := port.node.map fun node => {node with nextDispatch := node.nextDispatch <|> some d}
    queue := port.queue ++ [d]
    owed := port.owed ++ [d]}

def notify (d : ℕ) (x : State) (p : ℕ) : State :=
  if x.listening p then x.putPort p (Port.notified (x.ports p) d) else x

/-- `fd_messenger_event_dispatch` -/
def dispatch (x : State) (data : Bool) : State :=
  let n := x.nodes.countP x.listening
  let d := x.heap.next
  let y := x.nodes.foldl (notify d) (x.putHeap (x.heap.create n data))
  if n = 0 then y.putHeap (y.heap.drop d) else y

def react (x : State) (p q d : ℕ) (node : EventNode) (queue : List ℕ) : State :=
  {x with
    ports := update x.ports p {x.ports p with
      queue, node := some {node with count := node.count+1}, reaction := some ⟨node.id,q,d⟩}
    log := ⟨p,q,d,node.listeners⟩ :: x.log}

/-- The first section of `fd_messenger_port_reaction`. -/
def start (x : State) (p q : ℕ) (queue : List ℕ) : State :=
  match (x.ports p).node with
  | none => x.putPort p {x.ports p with queue}
  | some node =>
    -- the dispatch is not what the notification says, but what the node has
    match node.nextDispatch with
    | none => x.fail
    | some d => if (x.heap.count d).isSome then x.react p q d node queue else x.fail

def complete (x : State) (p : ℕ) (r : Reaction) (node : EventNode) : State :=
  let nextDispatch := x.heap.successor r.dispatch
  x.putPort p {x.ports p with
    node := some {node with nextDispatch, count := node.count-1}, reaction := none
    owed := (x.ports p).owed.erase r.notification}

/-- The second section of `fd_messenger_port_reaction`. -/
def finish (x : State) (p : ℕ) (r : Reaction) : State :=
  match (x.ports p).node with
  | none => x.fail
  | some node =>
    if node.id = r.node ∧ (x.heap.count r.dispatch).isSome then
      if 1 < node.count then (x.complete p r node).putHeap (x.heap.release r.dispatch)
      else (x.complete p r node).purgeNode p (x.heap.successor r.dispatch)
    else x.fail

/-- `messenger_port_destructor` -/
def destroyPort (x : State) (p : ℕ) : State :=
  let y := match (x.ports p).node with
    | some node => x.purgeNode p node.nextDispatch
    | none => x
  y.putPort p {y.ports p with queue := []}

end State

inductive Call
  | addEvent (p : ℕ)
  | removeEvent (p : ℕ)
  | addListener (p : ℕ)
  | removeListener (p id : ℕ)
  | dispatch (data : Bool)
  | start (p : ℕ)
  | finish (p : ℕ)
  | destroyPort (p : ℕ)

/-- One section under the lock, where the event is alive for a new node or dispatch, and a port
reacts to one notification after the other. -/
def step (x : State) : Call → Option State
  | .addEvent p => if x.alive then some (x.addEvent p) else none
  | .removeEvent p => some (x.removeEvent p)
  | .addListener p => some (x.addListener p)
  | .removeListener p id => some (x.removeListener p id)
  | .dispatch data => if x.alive then some (x.dispatch data) else none
  | .start p =>
    match (x.ports p).reaction, (x.ports p).queue with
    | none, q :: queue => some (x.start p q queue)
    | _, _ => none
  | .finish p => (x.ports p).reaction.map (x.finish p)
  | .destroyPort p => some (x.destroyPort p)

def init : State where
  heap := ⟨[],fun _ => none,fun _ => false,[],[],0,false⟩
  ports := fun _ => ⟨none,[],none,0,[]⟩
  nodes := []
  nextNode := 0
  alive := true
  log := []
  fault := false

/-- The live dispatches are those that are needed, and counted by that; the others were freed once,
and so were their data. -/
structure HeapOk (need : ℕ → ℕ) (h : Heap) : Prop where
  nodup : h.dispatches.Nodup
  mem : ∀ d, d ∈ h.dispatches ↔ 0 < need d
  count : ∀ d, h.count d = if 0 < need d then some (need d) else none
  lt : ∀ d, 0 < need d → d < h.next
  freedNodup : h.freed.Nodup
  freed : ∀ d, d ∈ h.freed ↔ d < h.next ∧ need d = 0
  dataNodup : h.freedData.Nodup
  freedData : ∀ d, d ∈ h.freedData ↔ d ∈ h.freed ∧ h.data d = true
  fault : h.fault = false

section Heaps
variable {need : ℕ → ℕ} {h : Heap}

theorem HeapOk.not_freed (hok : HeapOk need h) {d : ℕ} (hd : 0 < need d) : d ∉ h.freed :=
  fun hmem => Nat.ne_of_gt hd ((hok.freed d).mp hmem).2

/-- What was freed, when one more is. -/
theorem HeapOk.freeing (hok : HeapOk need h) {d : ℕ} (hd : 0 < need d) (hone : need d-1 = 0) :
    HeapOk (update need d (need d-1)) ((h.freeData d).drop d) := by
  have hself : update need d (need d-1) d = 0 := (update_self ..).trans hone
  have hother : ∀ d', d' ≠ d → update need d (need d-1) d' = need d' :=
    fun d' hne => update_of_ne hne ..
  have hnot := hok.not_freed hd
  have hnotData : d ∉ h.freedData := fun hmem => hnot ((hok.freedData d).mp hmem).1
  have hfreed : ∀ d', d' ∈ d :: h.freed ↔ d' = d ∨ d' ∈ h.freed := fun d' => List.mem_cons
  refine ⟨hok.nodup.erase d,fun d' => ?_,fun d' => ?_,fun d' hd' => ?_,
    List.nodup_cons.mpr ⟨hnot,hok.freedNodup⟩,fun d' => ?_,?_,fun d' => ?_,hok.fault⟩
  · refine hok.nodup.mem_erase_iff.trans ?_
    by_cases hne : d' = d
    · subst hne
      rw [hself]
      exact ⟨fun hand => absurd rfl hand.1,fun hpos => absurd hpos (Nat.lt_irrefl 0)⟩
    · rw [hother d' hne,hok.mem]
      exact ⟨And.right,fun hpos => ⟨hne,hpos⟩⟩
  · change update h.count d none d' = _
    by_cases hne : d' = d
    · subst hne
      rw [update_self,hself,if_neg (Nat.lt_irrefl 0)]
    · rw [update_of_ne hne,hother d' hne]
      exact hok.count d'
  · by_cases hne : d' = d
    · subst hne
      exact hok.lt d' hd
    · exact hok.lt d' (by rwa [hother d' hne] at hd')
  · refine (hfreed d').trans ?_
    by_cases hne : d' = d
    · subst hne
      rw [hself]
      exact ⟨fun _ => ⟨hok.lt d' hd,rfl⟩,fun _ => .inl rfl⟩
    · rw [hother d' hne]
      exact (or_iff_right hne).trans (hok.freed d')
  · change (if h.data d then d :: h.freedData else h.freedData).Nodup
    split_ifs
    · exact List.nodup_cons.mpr ⟨hnotData,hok.dataNodup⟩
    · exact hok.dataNodup
  · change d' ∈ (if h.data d then d :: h.freedData else h.freedData) ↔
      d' ∈ d :: h.freed ∧ h.data d' = true
    rw [hfreed]
    by_cases hne : d' = d
    · subst hne
      split_ifs with hdata
      · exact ⟨fun _ => ⟨.inl rfl,hdata⟩,fun _ => List.mem_cons_self⟩
      · exact ⟨fun hmem => absurd hmem hnotData,fun hand => absurd hand.2 hdata⟩
    · have hmem : (d' ∈ if h.data d then d :: h.freedData else h.freedData) ↔ d' ∈ h.freedData := by
        split_ifs
        · exact List.mem_cons.trans (or_iff_right hne)
        · rfl
      rw [hmem,hok.freedData,or_iff_right hne]

/-- One that needs a dispatch is done with it. -/
theorem HeapOk.release (hok : HeapOk need h) {d : ℕ} (hd : 0 < need d) :
    HeapOk (update need d (need d-1)) (h.release d) := by
  have hself : update need d (need d-1) d = need d-1 := update_self ..
  have hother : ∀ d', d' ≠ d → update need d (need d-1) d' = need d' :=
    fun d' hne => update_of_ne hne ..
  have hcount : h.count d = some (need d) := (hok.count d).trans (if_pos hd)
  unfold Heap.release
  rw [hcount]
  dsimp only
  by_cases hone : need d-1 = 0
  · rw [if_pos hone]
    exact hok.freeing hd hone
  rw [if_neg hone]
  have hpos : 0 < need d-1 := Nat.pos_of_ne_zero hone
  have hiff : ∀ d', 0 < update need d (need d-1) d' ↔ 0 < need d' := by
    intro d'
    by_cases hne : d' = d
    · subst hne
      rw [hself]
      exact ⟨fun _ => hd,fun _ => hpos⟩
    · rw [hother d' hne]
  refine {hok with
    mem := fun d' => (hok.mem d').trans (hiff d').symm
    count := fun d' => ?_
    lt := fun d' hd' => hok.lt d' ((hiff d').mp hd')
    freed := fun d' => ?_}
  · change update h.count d (some (need d-1)) d' = _
    by_cases hne : d' = d
    · subst hne
      rw [update_self,hself,if_pos hpos]
    · rw [update_of_ne hne,hother d' hne]
      exact hok.count d'
  · refine (hok.freed d').trans (and_congr_right fun _ => ?_)
    by_cases hne : d' = d
    · subst hne
      rw [hself]
      omega
    · rw [hother d' hne]

/-- All that a port needs is released. -/
theorem HeapOk.releases {l : List ℕ} (hok : HeapOk need h) (hnodup : l.Nodup)
    (hl : ∀ d ∈ l, 0 < need d) :
    HeapOk (fun d => if d ∈ l then need d-1 else need d) (l.foldl Heap.release h) := by
  induction l generalizing need h with
  | nil =>
    have hsame : (fun d => if d ∈ ([] : List ℕ) then need d-1 else need d) = need :=
      funext fun d => if_neg List.not_mem_nil
    rw [hsame]
    exact hok
  | cons d l ih =>
    obtain ⟨hnot,htail⟩ := List.nodup_cons.mp hnodup
    have hother : ∀ d' ∈ l, update need d (need d-1) d' = need d' := by
      rintro d' hd'
      refine update_of_ne ?_ ..
      rintro rfl
      exact hnot hd'
    have hrest := ih (hok.release (hl d List.mem_cons_self)) htail fun d' hd' => by
      rw [hother d' hd']
      exact hl d' (List.mem_cons_of_mem _ hd')
    have hsame : (fun d' => if d' ∈ d :: l then need d'-1 else need d') = fun d' =>
        if d' ∈ l then update need d (need d-1) d'-1
        else update need d (need d-1) d' := by
      funext d'
      by_cases hmem : d' ∈ l
      · rw [if_pos hmem,if_pos (List.mem_cons_of_mem _ hmem),hother d' hmem]
      · rw [if_neg hmem]
        by_cases hne : d' = d
        · subst hne
          rw [if_pos List.mem_cons_self,update_self]
        · rw [update_of_ne hne,if_neg fun h => (List.mem_cons.mp h).elim hne hmem]
    rw [hsame]
    exact hrest

theorem release_next (h : Heap) (d : ℕ) : (h.release d).next = h.next := by
  unfold Heap.release
  cases h.count d with
  | none => rfl
  | some n =>
    dsimp only
    split_ifs <;> rfl

theorem releases_next (h : Heap) (l : List ℕ) : (l.foldl Heap.release h).next = h.next := by
  induction l generalizing h with
  | nil => rfl
  | cons d l ih => exact (ih (h.release d)).trans (release_next h d)

/-- There is a dispatch more, which some need. -/
theorem HeapOk.create (hok : HeapOk need h) {n : ℕ} (hn : 0 < n) (data : Bool) :
    HeapOk (update need h.next n) (h.create n data) := by
  have hself : update need h.next n h.next = n := update_self ..
  have hother : ∀ d, d ≠ h.next → update need h.next n d = need d :=
    fun d hne => update_of_ne hne ..
  have hnone : ¬ 0 < need h.next := fun hpos => Nat.lt_irrefl _ (hok.lt _ hpos)
  refine ⟨?_,fun d => ?_,fun d => ?_,fun d hd => ?_,hok.freedNodup,fun d => ?_,hok.dataNodup,
    fun d => ?_,hok.fault⟩
  · refine hok.nodup.append (List.nodup_singleton _) fun d hd hnew => hnone ?_
    obtain rfl := List.mem_singleton.mp hnew
    exact (hok.mem _).mp hd
  · refine List.mem_append.trans ?_
    rw [List.mem_singleton,hok.mem]
    by_cases hne : d = h.next
    · subst hne
      rw [hself]
      exact ⟨fun _ => hn,fun _ => .inr rfl⟩
    · rw [hother d hne,or_iff_left hne]
  · change update h.count h.next (some n) d = _
    by_cases hne : d = h.next
    · subst hne
      rw [update_self,hself,if_pos hn]
    · rw [update_of_ne hne,hother d hne]
      exact hok.count d
  · change d < h.next+1
    by_cases hne : d = h.next
    · omega
    · rw [hother d hne] at hd
      have := hok.lt d hd
      omega
  · refine (hok.freed d).trans ?_
    change d < h.next ∧ need d = 0 ↔ d < h.next+1 ∧ update need h.next n d = 0
    by_cases hne : d = h.next
    · subst hne
      rw [hself]
      omega
    · rw [hother d hne]
      omega
  · refine (hok.freedData d).trans (and_congr_right fun hd => ?_)
    have hlt := ((hok.freed d).mp hd).1
    change h.data d = true ↔ update h.data h.next data d = true
    rw [update_of_ne (Nat.ne_of_lt hlt)]

theorem HeapOk.create_drop (hok : HeapOk need h) :
    HeapOk need ((h.create 0 false).drop h.next) := by
  have hnone : ¬ 0 < need h.next := fun hpos => Nat.lt_irrefl _ (hok.lt _ hpos)
  have hnot : h.next ∉ h.dispatches := fun hmem => hnone ((hok.mem _).mp hmem)
  have hfresh : h.next ∉ h.freed := fun hmem => Nat.lt_irrefl _ ((hok.freed _).mp hmem).1
  have hsame : (h.dispatches ++ [h.next]).erase h.next = h.dispatches := by
    rw [List.erase_append_right _ hnot,List.erase_cons_head,List.append_nil]
  refine ⟨?_,fun d => ?_,fun d => ?_,fun d hd => (hok.lt d hd).trans (Nat.lt_succ_self _),
    List.nodup_cons.mpr ⟨hfresh,hok.freedNodup⟩,fun d => ?_,hok.dataNodup,fun d => ?_,hok.fault⟩
  · change ((h.dispatches ++ [h.next]).erase h.next).Nodup
    rw [hsame]
    exact hok.nodup
  · change d ∈ (h.dispatches ++ [h.next]).erase h.next ↔ _
    rw [hsame]
    exact hok.mem d
  · change update (update h.count h.next (some 0)) h.next none d = _
    rw [update_idem]
    by_cases hne : d = h.next
    · subst hne
      rw [update_self,if_neg hnone]
    · rw [update_of_ne hne]
      exact hok.count d
  · change d ∈ h.next :: h.freed ↔ d < h.next+1 ∧ need d = 0
    rw [List.mem_cons,hok.freed]
    by_cases hne : d = h.next
    · subst hne
      omega
    · omega
  · change d ∈ h.freedData ↔ d ∈ h.next :: h.freed ∧ update h.data h.next false d = true
    rw [List.mem_cons,hok.freedData]
    by_cases hne : d = h.next
    · subst hne
      rw [update_self]
      exact ⟨fun hand => absurd hand.1 hfresh,fun hand => absurd hand.2 Bool.false_ne_true⟩
    · rw [update_of_ne hne,or_iff_right hne]

end Heaps

namespace State

def need (x : State) (d : ℕ) : ℕ := x.nodes.countP fun p => d ∈ (x.ports p).owed

end State

/-- A port without a node needs no dispatch. One with a node has what it needs on the way, after
what it reacts to, and the node has the first of that. -/
structure PortOk (port : Port) : Prop where
  absent : port.node = none → port.owed = [] ∧ port.reaction = none
  next : ∀ node, port.node = some node → node.nextDispatch = port.owed.head?
  owed : port.node.isSome = true →
    (port.reaction.map Reaction.notification).toList ++ port.queue = port.owed
  reaction : ∀ node r, port.node = some node → port.reaction = some r →
    r.node = node.id ∧ r.dispatch = r.notification
  nodup : port.owed.Nodup

/-- What was handled was the dispatch of the notification, and it does not come again. -/
structure LogOk (x : State) (e : Handled) : Prop where
  same : e.dispatch = e.notification
  lt : e.dispatch < x.heap.next
  past : (x.ports e.port).node.isSome = true → e.dispatch ∉ (x.ports e.port).queue

structure Inv (x : State) : Prop where
  heap : HeapOk x.need x.heap
  nodup : x.nodes.Nodup
  nodes : ∀ p, p ∈ x.nodes ↔ (x.ports p).node.isSome = true
  port : ∀ p, PortOk (x.ports p)
  log : ∀ e ∈ x.log, LogOk x e
  once : (x.log.map fun e => (e.port,e.dispatch)).Nodup
  fault : x.fault = false

section Ports
variable {x : State} {p : ℕ} {node : EventNode}

theorem Inv.isSome_of_owed (h : Inv x) {d : ℕ} (hd : d ∈ (x.ports p).owed) :
    (x.ports p).node.isSome = true := by
  cases hnode : (x.ports p).node with
  | some node => rfl
  | none =>
    rw [((h.port p).absent hnode).1] at hd
    cases hd

theorem Inv.need_pos (h : Inv x) {d : ℕ} (hd : d ∈ (x.ports p).owed) : 0 < x.need d :=
  List.countP_pos_iff.mpr ⟨p,(h.nodes p).mpr (h.isSome_of_owed hd),decide_eq_true hd⟩

/-- A port is changed that needs the same dispatches, and has no more of them on the way. -/
theorem Inv.putPort (h : Inv x) (port : Port)
    (hnode : port.node.isSome = (x.ports p).node.isSome) (howed : port.owed = (x.ports p).owed)
    (hqueue : ∀ d ∈ port.queue, d ∈ (x.ports p).queue) (hok : PortOk port) :
    Inv (x.putPort p port) := by
  have hself : (x.putPort p port).ports p = port := update_self ..
  have hother : ∀ p', p' ≠ p → (x.putPort p port).ports p' = x.ports p' :=
    fun p' hne => update_of_ne hne ..
  have hsome : ∀ p', ((x.putPort p port).ports p').node.isSome = (x.ports p').node.isSome := by
    intro p'
    by_cases hne : p' = p
    · subst hne
      rw [hself,hnode]
    · rw [hother p' hne]
  have hneed : (x.putPort p port).need = x.need := by
    funext d
    refine List.countP_congr fun p' _ => ?_
    by_cases hne : p' = p
    · subst hne
      rw [hself,howed]
    · rw [hother p' hne]
  refine ⟨hneed ▸ h.heap,h.nodup,fun p' => ?_,fun p' => ?_,fun e he => ?_,h.once,h.fault⟩
  · rw [hsome]
    exact h.nodes p'
  · by_cases hne : p' = p
    · subst hne
      rwa [hself]
    · rw [hother p' hne]
      exact h.port p'
  · obtain ⟨hsame,hlt,hpast⟩ := h.log e he
    refine ⟨hsame,hlt,fun hnode' hmem => ?_⟩
    rw [hsome] at hnode'
    by_cases hne : e.port = p
    · rw [hne,hself] at hmem
      exact hpast hnode' (hne ▸ hqueue _ hmem)
    · rw [hother e.port hne] at hmem
      exact hpast hnode' hmem

/-- The node of a port is changed, but not its number and its next dispatch. -/
theorem Inv.putNode (h : Inv x) (hnode : (x.ports p).node = some node) (node' : EventNode)
    (hid : node'.id = node.id) (hnext : node'.nextDispatch = node.nextDispatch) (last : ℕ) :
    Inv (x.putPort p {x.ports p with node := some node', lastListener := last}) := by
  have hport := h.port p
  refine h.putPort _ (by rw [hnode]; rfl) rfl (fun _ hd => hd)
    ⟨fun hnone => ?_,fun n hn => ?_,fun _ => ?_,fun n r hn hr => ?_,hport.nodup⟩
  · cases hnone
  · obtain rfl := Option.some.inj hn
    exact hnext.trans (hport.next node hnode)
  · exact hport.owed (by rw [hnode]; rfl)
  · obtain rfl := Option.some.inj hn
    obtain ⟨hr₁,hr₂⟩ := hport.reaction node r hnode hr
    exact ⟨hr₁.trans hid.symm,hr₂⟩

theorem need_split (hp : p ∈ x.nodes) (d : ℕ) :
    x.need d = (x.nodes.erase p).countP (fun p' => d ∈ (x.ports p').owed) +
      if d ∈ (x.ports p).owed then 1 else 0 := by
  have hperm := List.perm_cons_erase hp
  unfold State.need
  rw [hperm.countP_eq,List.countP_cons]
  simp only [decide_eq_true_eq]

/-- A node is purged when its port needs all that follows, and does not react. -/
theorem Inv.purgeNode (h : Inv x) (hnode : (x.ports p).node = some node)
    (hreaction : (x.ports p).reaction = none)
    (hfollow : x.heap.following node.nextDispatch = (x.ports p).owed) :
    Inv (x.purgeNode p node.nextDispatch) := by
  have hp : p ∈ x.nodes := (h.nodes p).mpr (by rw [hnode]; rfl)
  have hports : ∀ p', p' ≠ p → (x.purgeNode p node.nextDispatch).ports p' = x.ports p' :=
    fun p' hne => update_of_ne hne ..
  have hself : (x.purgeNode p node.nextDispatch).ports p =
      {x.ports p with node := none, owed := []} := update_self ..
  have hneed : (x.purgeNode p node.nextDispatch).need =
      fun d => if d ∈ (x.ports p).owed then x.need d-1 else x.need d := by
    funext d
    have hothers : (x.purgeNode p node.nextDispatch).need d =
        (x.nodes.erase p).countP fun p' => d ∈ (x.ports p').owed := by
      refine List.countP_congr fun p' hp' => ?_
      rw [hports p' (h.nodup.mem_erase_iff.mp hp').1]
    rw [hothers,need_split hp d]
    split_ifs <;> rfl
  have hheap : (x.purgeNode p node.nextDispatch).heap =
      (x.ports p).owed.foldl Heap.release x.heap := by
    rw [← hfollow]
    rfl
  refine ⟨?_,h.nodup.erase p,fun p' => ?_,fun p' => ?_,fun e he => ?_,h.once,h.fault⟩
  · rw [hneed,hheap]
    exact h.heap.releases (h.port p).nodup fun d hd => h.need_pos hd
  · refine h.nodup.mem_erase_iff.trans ?_
    by_cases hne : p' = p
    · subst hne
      rw [hself]
      exact ⟨fun hand => absurd rfl hand.1,fun hsome => by cases hsome⟩
    · rw [hports p' hne,h.nodes p']
      exact and_iff_right hne
  · by_cases hne : p' = p
    · subst hne
      rw [hself]
      exact ⟨fun _ => ⟨rfl,hreaction⟩,(fun _ hn => by cases hn),(fun hn => by cases hn),
        (fun _ _ hn => by cases hn),List.nodup_nil⟩
    · rw [hports p' hne]
      exact h.port p'
  · obtain ⟨hsame,hlt,hpast⟩ := h.log e he
    have hnext : (x.purgeNode p node.nextDispatch).heap.next = x.heap.next := by
      rw [hheap]
      exact releases_next _ _
    refine ⟨hsame,by rwa [hnext],fun hsome hmem => ?_⟩
    by_cases hne : e.port = p
    · rw [hne,hself] at hsome
      cases hsome
    · rw [hports e.port hne] at hsome hmem
      exact hpast hsome hmem

/-- A port that has no notification on the way gets a node. -/
theorem Inv.insertNode (h : Inv x) (hnode : (x.ports p).node = none)
    (hqueue : (x.ports p).queue = []) : Inv (x.insertNode p) := by
  obtain ⟨howed,hreaction⟩ := (h.port p).absent hnode
  have hnot : p ∉ x.nodes := fun hp => by
    rw [h.nodes,hnode] at hp
    cases hp
  have hports : ∀ p', p' ≠ p → (x.insertNode p).ports p' = x.ports p' :=
    fun p' hne => update_of_ne hne ..
  have hself : (x.insertNode p).ports p =
      {x.ports p with node := some ⟨x.nextNode,1,[],none⟩} := update_self ..
  have hsame : ∀ p', ((x.insertNode p).ports p').owed = (x.ports p').owed ∧
      ((x.insertNode p).ports p').queue = (x.ports p').queue := by
    intro p'
    by_cases hne : p' = p
    · subst hne
      rw [hself]
      exact ⟨rfl,rfl⟩
    · rw [hports p' hne]
      exact ⟨rfl,rfl⟩
  have hneed : (x.insertNode p).need = x.need := by
    funext d
    have hcongr : (x.insertNode p).need d = (x.nodes ++ [p]).countP fun p' =>
        d ∈ (x.ports p').owed := List.countP_congr fun p' _ => by rw [(hsame p').1]
    have hnone : ¬ (decide (d ∈ (x.ports p).owed)) = true := by
      rw [howed]
      exact fun hd => List.not_mem_nil (of_decide_eq_true hd)
    rw [hcongr,List.countP_append,List.countP_singleton,if_neg hnone]
    rfl
  refine ⟨hneed ▸ h.heap,?_,fun p' => ?_,fun p' => ?_,fun e he => ?_,h.once,h.fault⟩
  · refine h.nodup.append (List.nodup_singleton p) fun p' hp' hnew => hnot ?_
    rwa [← List.mem_singleton.mp hnew]
  · refine List.mem_append.trans ?_
    rw [List.mem_singleton]
    by_cases hne : p' = p
    · subst hne
      rw [hself]
      exact ⟨fun _ => rfl,fun _ => .inr rfl⟩
    · rw [hports p' hne,or_iff_left hne]
      exact h.nodes p'
  · by_cases hne : p' = p
    · subst hne
      rw [hself]
      refine ⟨(fun hn => by cases hn),fun n hn => ?_,fun _ => ?_,fun n r _ hr => ?_,?_⟩
      · obtain rfl := Option.some.inj hn
        change none = (x.ports p').owed.head?
        rw [howed]
        rfl
      · change ((x.ports p').reaction.map _).toList ++ (x.ports p').queue = (x.ports p').owed
        rw [hreaction,hqueue,howed]
        rfl
      · cases hreaction.symm.trans hr
      · exact (h.port p').nodup
    · rw [hports p' hne]
      exact h.port p'
  · obtain ⟨hsame',hlt,hpast⟩ := h.log e he
    refine ⟨hsame',hlt,fun hsome => ?_⟩
    rw [(hsame e.port).2]
    by_cases hne : e.port = p
    · rw [hne,hqueue]
      exact List.not_mem_nil
    · rw [hports e.port hne] at hsome
      exact hpast hsome

/-- A port without a reaction starts one, with the first notification on the way. -/
theorem Inv.react (h : Inv x) (hnode : (x.ports p).node = some node) {q : ℕ} {queue : List ℕ}
    (hqueue : (x.ports p).queue = q :: queue) (hreaction : (x.ports p).reaction = none) :
    node.nextDispatch = some q ∧ (x.heap.count q).isSome = true ∧
      Inv (x.react p q q node queue) := by
  have hport := h.port p
  have hsome : (x.ports p).node.isSome = true := by rw [hnode]; rfl
  have howed : (x.ports p).owed = q :: queue := by
    rw [← hport.owed hsome,hreaction,hqueue]
    rfl
  have hnext : node.nextDispatch = some q := by
    rw [hport.next node hnode,howed]
    rfl
  have hlive : (x.heap.count q).isSome = true := by
    have hpos : 0 < x.need q := h.need_pos (howed ▸ List.mem_cons_self)
    rw [h.heap.count,if_pos hpos]
    rfl
  have hnot : q ∉ queue := (List.nodup_cons.mp (howed ▸ hport.nodup)).1
  have hput := h.putPort {x.ports p with
      queue, node := some {node with count := node.count+1}, reaction := some ⟨node.id,q,q⟩}
    (by rw [hnode]; rfl) rfl (fun d hd => hqueue ▸ List.mem_cons_of_mem _ hd)
    ⟨(fun hn => by cases hn),(fun n hn => by
        obtain rfl := Option.some.inj hn
        exact hport.next node hnode),fun _ => howed.symm,(fun n r hn hr => by
        obtain rfl := Option.some.inj hn
        obtain rfl := Option.some.inj hr
        exact ⟨rfl,rfl⟩),hport.nodup⟩
  refine ⟨hnext,hlive,hput.heap,hput.nodup,hput.nodes,hput.port,fun e he => ?_,?_,hput.fault⟩
  · obtain rfl | he := List.mem_cons.mp he
    · refine ⟨rfl,h.heap.lt q (h.need_pos (howed ▸ List.mem_cons_self)),fun _ => ?_⟩
      change q ∉ (update x.ports p _ p).queue
      rw [update_self]
      exact hnot
    · obtain ⟨hsame,hlt,hpast⟩ := hput.log e he
      exact ⟨hsame,hlt,hpast⟩
  · refine List.nodup_cons.mpr ⟨fun hmem => ?_,h.once⟩
    obtain ⟨e,he,heq⟩ := List.mem_map.mp hmem
    obtain ⟨hp,hd⟩ := Prod.mk.inj heq
    refine (h.log e he).past (hp ▸ hsome) ?_
    rw [hp,hd,hqueue]
    exact List.mem_cons_self

/-- A port is done with what it reacts to, and its node goes on with the next that it needs. -/
theorem Inv.finish (h : Inv x) (hnode : (x.ports p).node = some node) {r : Reaction}
    (hr : (x.ports p).reaction = some r) (hcount : 1 < node.count)
    (hsuccessor : x.heap.successor r.dispatch = (x.ports p).owed.tail.head?) :
    Inv (x.finish p r) := by
  have hport := h.port p
  have hsome : (x.ports p).node.isSome = true := by rw [hnode]; rfl
  have hp : p ∈ x.nodes := (h.nodes p).mpr hsome
  obtain ⟨hid,hd⟩ := hport.reaction node r hnode hr
  have howed : (x.ports p).owed = r.dispatch :: (x.ports p).queue := by
    rw [← hport.owed hsome,hr,hd]
    rfl
  have hpos : 0 < x.need r.dispatch := h.need_pos (howed ▸ List.mem_cons_self)
  have hlive : (x.heap.count r.dispatch).isSome = true := by
    rw [h.heap.count,if_pos hpos]
    rfl
  have hnot : r.dispatch ∉ (x.ports p).queue := (List.nodup_cons.mp (howed ▸ hport.nodup)).1
  have hfinish : x.finish p r = (x.complete p r node).putHeap (x.heap.release r.dispatch) := by
    unfold State.finish
    rw [hnode]
    dsimp only
    rw [if_pos ⟨hid.symm,hlive⟩,if_pos hcount]
  rw [hfinish]
  generalize hy : (x.complete p r node).putHeap (x.heap.release r.dispatch) = y
  have hports : ∀ p', p' ≠ p → y.ports p' = x.ports p' := by
    rw [← hy]
    exact fun p' hne => update_of_ne hne ..
  have hself : y.ports p = {x.ports p with
      node := some {node with
        nextDispatch := x.heap.successor r.dispatch, count := node.count-1}
      reaction := none
      owed := (x.ports p).owed.erase r.notification} := by
    rw [← hy]
    exact update_self ..
  have hrest : (y.ports p).owed = (x.ports p).queue := by
    rw [hself]
    change (x.ports p).owed.erase r.notification = _
    rw [howed,← hd,List.erase_cons_head]
  have hnodes : y.nodes = x.nodes := by rw [← hy]; rfl
  have hneed : y.need = update x.need r.dispatch (x.need r.dispatch-1) := by
    funext d
    have hothers : (y.nodes.erase p).countP (fun p' => d ∈ (y.ports p').owed) =
        (x.nodes.erase p).countP (fun p' => d ∈ (x.ports p').owed) := by
      rw [hnodes]
      refine List.countP_congr fun p' hp' => ?_
      rw [hports p' (h.nodup.mem_erase_iff.mp hp').1]
    have hsplit := need_split (hnodes ▸ hp) d
    rw [hothers,hrest] at hsplit
    by_cases hne : d = r.dispatch
    · subst hne
      rw [update_self,hsplit,need_split hp,if_neg hnot,howed,if_pos List.mem_cons_self]
      rfl
    · have hiff : d ∈ (x.ports p).owed ↔ d ∈ (x.ports p).queue := by
        rw [howed]
        exact List.mem_cons.trans (or_iff_right hne)
      rw [update_of_ne hne,hsplit,need_split hp]
      simp only [hiff]
  have hheap : y.heap = x.heap.release r.dispatch := by rw [← hy]; rfl
  have hsomes : ∀ p', (y.ports p').node.isSome = (x.ports p').node.isSome := by
    intro p'
    by_cases hne : p' = p
    · subst hne
      rw [hself,hsome]
      rfl
    · rw [hports p' hne]
  refine ⟨?_,hnodes ▸ h.nodup,fun p' => ?_,fun p' => ?_,fun e he => ?_,?_,?_⟩
  · rw [hneed,hheap]
    exact h.heap.release hpos
  · rw [hnodes,hsomes]
    exact h.nodes p'
  · by_cases hne : p' = p
    · subst hne
      refine ⟨fun hn => ?_,fun n hn => ?_,fun _ => ?_,fun n r' _ hr' => ?_,?_⟩
      · rw [hself] at hn
        cases hn
      · rw [hrest]
        rw [hself] at hn
        obtain rfl := Option.some.inj hn
        rw [howed] at hsuccessor
        exact hsuccessor
      · rw [hrest,hself]
        rfl
      · rw [hself] at hr'
        cases hr'
      · rw [hrest]
        exact (List.nodup_cons.mp (howed ▸ hport.nodup)).2
    · rw [hports p' hne]
      exact h.port p'
  · have hlog : y.log = x.log := by rw [← hy]; rfl
    obtain ⟨hsame,hlt,hpast⟩ := h.log e (hlog ▸ he)
    refine ⟨hsame,?_,fun hsome' hmem => hpast (hsomes e.port ▸ hsome') ?_⟩
    · rwa [hheap,release_next]
    · by_cases hne : e.port = p
      · rw [hne] at hmem ⊢
        rw [hself] at hmem
        exact hmem
      · rwa [hports e.port hne] at hmem
  · rw [← hy]
    exact h.once
  · rw [← hy]
    exact h.fault

theorem listening_isSome (h : x.listening p = true) : (x.ports p).node.isSome = true := by
  unfold State.listening at h
  cases hnode : (x.ports p).node with
  | some node => rfl
  | none =>
    rw [hnode] at h
    cases h

theorem notify_ports (d : ℕ) (x : State) (p p' : ℕ) : (State.notify d x p).ports p' =
      if p' = p ∧ x.listening p = true then State.Port.notified (x.ports p) d else x.ports p' := by
  unfold State.notify
  by_cases hlistening : x.listening p = true
  · rw [if_pos hlistening]
    by_cases hne : p' = p
    · subst hne
      rw [if_pos ⟨rfl,hlistening⟩]
      exact update_self ..
    · rw [if_neg fun hand => hne hand.1]
      exact update_of_ne hne ..
  · rw [if_neg hlistening,if_neg fun hand => hlistening hand.2]

/-- Going through the nodes, the ports that listen are notified. -/
theorem notifies {l : List ℕ} (hnodup : l.Nodup) (d : ℕ) (x : State) :
    (∀ p, (l.foldl (State.notify d) x).ports p =
      if p ∈ l ∧ x.listening p = true then State.Port.notified (x.ports p) d else x.ports p) ∧
    ∃ ports, l.foldl (State.notify d) x = {x with ports} := by
  induction l generalizing x with
  | nil => exact ⟨fun p => (if_neg fun hand => List.not_mem_nil hand.1).symm,x.ports,rfl⟩
  | cons q l ih =>
    obtain ⟨hnot,htail⟩ := List.nodup_cons.mp hnodup
    obtain ⟨hports,ports,hsame⟩ := ih htail (State.notify d x q)
    have hone : ∃ ports, State.notify d x q = {x with ports} := by
      unfold State.notify
      split_ifs
      · exact ⟨_,rfl⟩
      · exact ⟨x.ports,rfl⟩
    have hother : ∀ p, p ≠ q → (State.notify d x q).ports p = x.ports p := fun p hne => by
      rw [notify_ports,if_neg fun hand => hne hand.1]
    refine ⟨fun p => (hports p).trans ?_,ports,?_⟩
    · by_cases hne : p = q
      · subst hne
        rw [if_neg fun hand => hnot hand.1,notify_ports]
        simp only [true_and,List.mem_cons_self]
      · have hlistening : (State.notify d x q).listening p = x.listening p := by
          unfold State.listening
          rw [hother p hne]
        rw [hlistening,hother p hne]
        simp only [List.mem_cons,hne,false_or]
    · obtain ⟨ports',hone⟩ := hone
      refine hsame.trans ?_
      rw [hone]

theorem PortOk.notified {port : Port} (hok : PortOk port) (hsome : port.node.isSome = true) {d : ℕ}
    (hnew : d ∉ port.owed) : PortOk (State.Port.notified port d) := by
  obtain ⟨node,hnode⟩ := Option.isSome_iff_exists.mp hsome
  have hnode' : (State.Port.notified port d).node =
      some {node with nextDispatch := node.nextDispatch <|> some d} := by
    unfold State.Port.notified
    rw [hnode]
    rfl
  refine ⟨fun hn => ?_,fun n hn => ?_,fun _ => ?_,fun n r hn hr => ?_,?_⟩
  · cases hnode'.symm.trans hn
  · obtain rfl := Option.some.inj (hnode'.symm.trans hn)
    change (node.nextDispatch <|> some d) = (port.owed ++ [d]).head?
    rw [hok.next node hnode]
    cases port.owed <;> rfl
  · change _ ++ (port.queue ++ [d]) = port.owed ++ [d]
    rw [← List.append_assoc]
    exact congrArg (· ++ [d]) (hok.owed hsome)
  · obtain rfl := Option.some.inj (hnode'.symm.trans hn)
    exact hok.reaction node r hnode hr
  · change (port.owed ++ [d]).Nodup
    refine hok.nodup.append (List.nodup_singleton d) fun d' hd' hmem => hnew ?_
    rwa [← List.mem_singleton.mp hmem]

/-- A dispatch is made for the ports that listen, and one of them at least where it has data. -/
theorem Inv.dispatch (h : Inv x) {data : Bool}
    (hdata : data = true → ∃ p ∈ x.nodes, x.listening p = true) : Inv (x.dispatch data) := by
  have hnew : ∀ p, x.heap.next ∉ (x.ports p).owed :=
    fun p hmem => Nat.lt_irrefl _ (h.heap.lt _ (h.need_pos hmem))
  unfold State.dispatch
  dsimp only
  obtain ⟨hports,ports,hsame⟩ := notifies h.nodup x.heap.next
    (x.putHeap (x.heap.create (x.nodes.countP x.listening) data))
  have hports : ∀ p, ports p = if p ∈ x.nodes ∧ x.listening p = true then
      State.Port.notified (x.ports p) x.heap.next else x.ports p := by
    intro p
    rw [hsame] at hports
    exact hports p
  rw [hsame]
  by_cases hnone : x.nodes.countP x.listening = 0
  · rw [if_pos hnone,hnone]
    have hsilent : ∀ p ∈ x.nodes, ¬ x.listening p = true := List.countP_eq_zero.mp hnone
    have hold : ports = x.ports := funext fun p =>
      (hports p).trans (if_neg fun hand => hsilent p hand.1 hand.2)
    have hfalse : data = false := by
      refine Bool.eq_false_of_not_eq_true fun htrue => ?_
      obtain ⟨p,hp,hlistening⟩ := hdata htrue
      exact hsilent p hp hlistening
    rw [hold,hfalse]
    refine ⟨h.heap.create_drop,h.nodup,h.nodes,h.port,fun e he => ?_,h.once,h.fault⟩
    obtain ⟨hsame,hlt,hpast⟩ := h.log e he
    exact ⟨hsame,hlt.trans (Nat.lt_succ_self _),hpast⟩
  · rw [if_neg hnone]
    have hsomes : ∀ p, (ports p).node.isSome = (x.ports p).node.isSome := by
      intro p
      rw [hports p]
      split_ifs
      · exact Option.isSome_map
      · rfl
    have howed : ∀ p ∈ x.nodes, ∀ d, d ∈ (ports p).owed ↔
        d ∈ (x.ports p).owed ∨ x.listening p = true ∧ d = x.heap.next := by
      intro p hp d
      rw [hports p]
      split_ifs with hlistening
      · change d ∈ (x.ports p).owed ++ [x.heap.next] ↔ _
        rw [List.mem_append,List.mem_singleton,and_iff_right hlistening.2]
      · exact ⟨.inl,fun hor => hor.resolve_right fun hand => hlistening ⟨hp,hand.1⟩⟩
    have hneed : State.need {x with ports} =
        update x.need x.heap.next (x.nodes.countP x.listening) := by
      funext d
      by_cases hne : d = x.heap.next
      · subst hne
        rw [update_self]
        refine List.countP_congr fun p hp => ?_
        rw [decide_eq_true_eq,howed p hp,or_iff_right (hnew p),and_iff_left rfl]
      · rw [update_of_ne hne]
        refine List.countP_congr fun p hp => ?_
        rw [decide_eq_true_eq,decide_eq_true_eq,howed p hp,or_iff_left fun hand => hne hand.2]
    refine ⟨?_,h.nodup,fun p => ?_,fun p => ?_,fun e he => ?_,h.once,h.fault⟩
    · have hcreate := h.heap.create (Nat.pos_of_ne_zero hnone) data
      rw [← hneed] at hcreate
      exact hcreate
    · exact (h.nodes p).trans (by rw [← hsomes p])
    · change PortOk (ports p)
      rw [hports p]
      split_ifs with hlistening
      · exact (h.port p).notified (listening_isSome hlistening.2) (hnew p)
      · exact h.port p
    · obtain ⟨hsame',hlt,hpast⟩ := h.log e he
      refine ⟨hsame',hlt.trans (Nat.lt_succ_self _),fun hsome hmem => ?_⟩
      have hsome : (ports e.port).node.isSome = true := hsome
      have hmem : e.dispatch ∈ (ports e.port).queue := hmem
      rw [hsomes] at hsome
      rw [hports] at hmem
      split_ifs at hmem
      · obtain hmem | hmem := List.mem_append.mp hmem
        · exact hpast hsome hmem
        · exact Nat.ne_of_lt hlt (List.mem_singleton.mp hmem)
      · exact hpast hsome hmem

end Ports

def Purged (x : State) (p : ℕ) (node : EventNode) : Prop :=
  (x.ports p).reaction = none ∧ x.heap.following node.nextDispatch = (x.ports p).owed

/-- A port gets a new node when no notification for an earlier one is on the way, is purged when it
does not react and was notified of all that follows its next dispatch, and finishes a dispatch when
it still is registered and was notified of the one that follows, if any. A dispatch with data finds
a port that listens. -/
def Kept (x : State) : Call → Prop
  | .addEvent p => (x.ports p).node = none → (x.ports p).queue = []
  | .removeEvent p => ∀ node, (x.ports p).node = some node → ¬ 1 < node.count → Purged x p node
  | .destroyPort p => ∀ node, (x.ports p).node = some node → Purged x p node
  | .dispatch data => data = true → ∃ p ∈ x.nodes, x.listening p = true
  | .finish p => ∀ node r, (x.ports p).node = some node → (x.ports p).reaction = some r →
    1 < node.count ∧ x.heap.successor r.dispatch = (x.ports p).owed.tail.head?
  | .addListener _ | .removeListener _ _ | .start _ => True

section Calls
variable {x y : State}

theorem Inv.start (h : Inv x) {p q : ℕ} {queue : List ℕ} (hreaction : (x.ports p).reaction = none)
    (hqueue : (x.ports p).queue = q :: queue) : Inv (x.start p q queue) := by
  unfold State.start
  cases hnode : (x.ports p).node with
  | none =>
    have hport := h.port p
    refine h.putPort _ rfl rfl (fun d hd => hqueue ▸ List.mem_cons_of_mem _ hd)
      ⟨hport.absent,hport.next,fun hsome => ?_,hport.reaction,hport.nodup⟩
    change (x.ports p).node.isSome = true at hsome
    rw [hnode] at hsome
    cases hsome
  | some node =>
    obtain ⟨hnext,hlive,hreact⟩ := h.react hnode hqueue hreaction
    dsimp only
    rw [hnext]
    dsimp only
    rw [if_pos hlive]
    exact hreact

theorem Inv.destroyPort (h : Inv x) {p : ℕ}
    (hkept : ∀ node, (x.ports p).node = some node → Purged x p node) : Inv (x.destroyPort p) := by
  have hempty : ∀ y : State, Inv y → (y.ports p).node = none →
      Inv (y.putPort p {y.ports p with queue := []}) := by
    intro y hy hnone
    have hport := hy.port p
    refine hy.putPort _ rfl rfl (fun d hd => by cases hd)
      ⟨hport.absent,hport.next,fun hsome => ?_,hport.reaction,hport.nodup⟩
    change (y.ports p).node.isSome = true at hsome
    rw [hnone] at hsome
    cases hsome
  unfold State.destroyPort
  cases hnode : (x.ports p).node with
  | none => exact hempty x h hnode
  | some node =>
    obtain ⟨hreaction,hfollow⟩ := hkept node hnode
    refine hempty _ (h.purgeNode hnode hreaction hfollow) ?_
    change (update x.ports p {x.ports p with node := none, owed := []} p).node = none
    rw [update_self]

theorem Inv.step (h : Inv x) {e : Call} (hkept : Kept x e) (hs : step x e = some y) : Inv y := by
  cases e with
  | addEvent p =>
    unfold MessengerPort.step at hs
    dsimp only at hs
    split_ifs at hs
    obtain rfl := Option.some.inj hs
    unfold State.addEvent
    cases hnode : (x.ports p).node with
    | some node =>
      exact h.putNode hnode {node with count := node.count+1} rfl rfl (x.ports p).lastListener
    | none => exact h.insertNode hnode (hkept hnode)
  | removeEvent p =>
    obtain rfl := Option.some.inj hs
    unfold State.removeEvent
    cases hnode : (x.ports p).node with
    | some node =>
      dsimp only
      split_ifs with hcount
      · exact h.putNode hnode {node with count := node.count-1} rfl rfl (x.ports p).lastListener
      · obtain ⟨hreaction,hfollow⟩ := hkept node hnode hcount
        exact h.purgeNode hnode hreaction hfollow
    | none => exact h
  | addListener p =>
    obtain rfl := Option.some.inj hs
    unfold State.addListener
    cases hnode : (x.ports p).node with
    | some node =>
      exact h.putNode hnode
        {node with listeners := node.listeners ++ [(x.ports p).lastListener+1]} rfl rfl
        ((x.ports p).lastListener+1)
    | none => exact h
  | removeListener p id =>
    obtain rfl := Option.some.inj hs
    unfold State.removeListener
    cases hnode : (x.ports p).node with
    | some node =>
      exact h.putNode hnode {node with listeners := node.listeners.erase id} rfl rfl
        (x.ports p).lastListener
    | none => exact h
  | dispatch data =>
    unfold MessengerPort.step at hs
    dsimp only at hs
    split_ifs at hs
    obtain rfl := Option.some.inj hs
    exact h.dispatch hkept
  | start p =>
    unfold MessengerPort.step at hs
    dsimp only at hs
    split at hs
    · rename_i q queue hreaction hqueue
      obtain rfl := Option.some.inj hs
      exact h.start hreaction hqueue
    · cases hs
  | finish p =>
    obtain ⟨r,hr,rfl⟩ := Option.map_eq_some_iff.mp hs
    cases hnode : (x.ports p).node with
    | some node =>
      obtain ⟨hcount,hsuccessor⟩ := hkept node r hnode hr
      exact h.finish hnode hr hcount hsuccessor
    | none => cases ((h.port p).absent hnode).2.symm.trans hr
  | destroyPort p =>
    obtain rfl := Option.some.inj hs
    exact h.destroyPort hkept

end Calls

/-- The count of each dispatch is the number of ports that were notified of it and have not
processed it or been purged; a notification is handled with its dispatch, and a port handles a
dispatch once; a dispatch is freed once, with its data, as soon as no port has to process it; and
nothing is accessed that is not live. -/
structure Delivered (x : State) : Prop where
  count : ∀ d ∈ x.heap.dispatches, ∃ l : List ℕ, l.Nodup ∧ (∀ p, p ∈ l ↔ d ∈ (x.ports p).owed) ∧
    x.heap.count d = some l.length
  handled : ∀ e ∈ x.log, e.dispatch = e.notification
  once : (x.log.map fun e => (e.port,e.dispatch)).Nodup
  freed : x.heap.freed.Nodup ∧ ∀ d, d ∈ x.heap.freed ↔ d < x.heap.next ∧ ∀ p, d ∉ (x.ports p).owed
  freedData : x.heap.freedData.Nodup ∧
    ∀ d, d ∈ x.heap.freedData ↔ d ∈ x.heap.freed ∧ x.heap.data d = true
  fault : x.fault = false ∧ x.heap.fault = false

theorem Delivered.owed_of_count {x : State} (h : Delivered x) {d n : ℕ}
    (hd : d ∈ x.heap.dispatches) (hn : x.heap.count d = some (n+1)) : ∃ p, d ∈ (x.ports p).owed := by
  obtain ⟨l,-,hl,hcount⟩ := h.count d hd
  have hlength : l.length = n+1 := Option.some.inj (hcount.symm.trans hn)
  obtain ⟨p,hp⟩ := List.length_pos_iff_exists_mem.mp (Nat.lt_of_lt_of_eq n.succ_pos hlength.symm)
  exact ⟨p,(hl p).mp hp⟩

theorem Inv.delivered {x : State} (h : Inv x) : Delivered x := by
  refine ⟨fun d hd => ?_,fun e he => (h.log e he).same,h.once,⟨h.heap.freedNodup,fun d => ?_⟩,
    ⟨h.heap.dataNodup,h.heap.freedData⟩,h.fault,h.heap.fault⟩
  · refine ⟨x.nodes.filter fun p => d ∈ (x.ports p).owed,h.nodup.filter _,fun p => ?_,?_⟩
    · rw [List.mem_filter,decide_eq_true_eq,h.nodes]
      exact ⟨And.right,fun hp => ⟨h.isSome_of_owed hp,hp⟩⟩
    · rw [← List.countP_eq_length_filter]
      exact (h.heap.count d).trans (if_pos ((h.heap.mem d).mp hd))
  · refine (h.heap.freed d).trans (and_congr_right fun _ => ⟨fun hzero p hp => ?_,fun hnone => ?_⟩)
    · exact Nat.ne_of_gt (h.need_pos hp) hzero
    · exact List.countP_eq_zero.mpr fun p _ hp => hnone p (of_decide_eq_true hp)

/-- In all runs that meet `Kept` each event reaches the ports that listen once and is freed once. -/
theorem delivered_once {x : State} (h : Reaches step Kept (· = init) x) : Delivered x := by
  refine Inv.delivered (h.invariant Inv (fun x hx => ?_) fun x e y hx hkept hs => hx.step hkept hs)
  subst hx
  refine ⟨⟨List.nodup_nil,fun d => ⟨(fun hd => by cases hd),(fun hd => by cases hd)⟩,fun _ => rfl,
      (fun d hd => by cases hd),List.nodup_nil,
      fun d => ⟨(fun hd => by cases hd),fun hd => absurd hd.1 (Nat.not_lt_zero d)⟩,List.nodup_nil,
      fun d => ⟨(fun hd => by cases hd),fun hd => by cases hd.1⟩,rfl⟩,
    List.nodup_nil,fun p => ⟨(fun hp => by cases hp),(fun hp => by cases hp)⟩,fun p => ?_,
    (fun e he => by cases he),List.nodup_nil,rfl⟩
  exact ⟨fun _ => ⟨rfl,rfl⟩,(fun _ hn => by cases hn),(fun hn => by cases hn),
    (fun _ _ hn => by cases hn),List.nodup_nil⟩

/-- Two ports listen when an event is dispatched with data. The one that is done last frees it. -/
theorem dispatched_to_both : ∃ x, Reaches step Kept (· = init) x ∧ Delivered x ∧
    x.heap.dispatches = [] ∧ x.heap.freed = [0] ∧ x.heap.freedData = [0] ∧
    (x.log.map fun e => (e.port,e.dispatch)) = [(1,0),(0,0)] := by
  have h0 : Reaches step Kept (· = init) _ := .init rfl
  have h1 : Reaches step Kept (· = init) _ := .step (.addEvent 0) h0 (fun _ => rfl) rfl
  have h2 : Reaches step Kept (· = init) _ := .step (.addEvent 1) h1 (fun _ => rfl) rfl
  have h3 : Reaches step Kept (· = init) _ := .step (.addListener 0) h2 trivial rfl
  have h4 : Reaches step Kept (· = init) _ := .step (.addListener 1) h3 trivial rfl
  have h5 : Reaches step Kept (· = init) _ :=
    .step (.dispatch true) h4 (fun _ => ⟨0,by decide,rfl⟩) rfl
  have h6 : Reaches step Kept (· = init) _ := .step (.start 0) h5 trivial rfl
  have h7 : Reaches step Kept (· = init) _ := .step (.start 1) h6 trivial rfl
  have h8 : Reaches step Kept (· = init) _ := .step (.finish 0) h7 (fun node r hn hr => by
    obtain rfl := Option.some.inj hn
    obtain rfl := Option.some.inj hr
    exact ⟨by decide,rfl⟩) rfl
  have h9 : Reaches step Kept (· = init) _ := .step (.finish 1) h8 (fun node r hn hr => by
    obtain rfl := Option.some.inj hn
    obtain rfl := Option.some.inj hr
    exact ⟨by decide,rfl⟩) rfl
  exact ⟨_,h9,delivered_once h9,rfl,rfl,rfl,rfl⟩

/-- Without `Kept` a port that did not listen for a dispatch gets it for another one, a port that is
removed while it reacts keeps its dispatch, data without a port that listens stays, and a port that
is added again meets a notification without a dispatch. -/
theorem wrong_dispatch : (∃ x, Reaches step (fun _ _ => True) (· = init) x ∧ ¬ Delivered x ∧
      ∃ e ∈ x.log, e.port = 0 ∧ e.notification = 2 ∧ e.dispatch = 1) ∧
    (∃ x, Reaches step (fun _ _ => True) (· = init) x ∧ ¬ Delivered x ∧
      x.heap.dispatches = [0] ∧ x.heap.count 0 = some 1 ∧ ∀ p, (x.ports p).owed = []) ∧
    (∃ x, Reaches step (fun _ _ => True) (· = init) x ∧ ¬ Delivered x ∧
      x.heap.freed = [0] ∧ x.heap.data 0 = true ∧ x.heap.freedData = []) ∧
    ∃ x, Reaches step (fun _ _ => True) (· = init) x ∧ ¬ Delivered x ∧ x.fault = true := by
  have init_reached : Reaches step (fun _ _ => True) (· = init) init := .init rfl
  refine ⟨?_,?_,?_,?_⟩
  · have h : Reaches step (fun _ _ => True) (· = init) _ := init_reached.exec (fun _ _ => trivial)
      (show exec step init [.addEvent 0,.addEvent 1,.addListener 0,.addListener 1,.dispatch false,
        .removeListener 0 1,.dispatch false,.addListener 0,.dispatch false,.start 0,.finish 0,
        .start 0] = some _ from rfl)
    refine ⟨_,h,fun hdelivered => ?_,_,List.mem_cons_self,rfl,rfl,rfl⟩
    cases hdelivered.handled _ List.mem_cons_self
  · have h : Reaches step (fun _ _ => True) (· = init) _ := init_reached.exec (fun _ _ => trivial)
      (show exec step init [.addEvent 0,.addEvent 1,.addListener 0,.dispatch false,.start 0,
        .removeEvent 0,.finish 0] = some _ from rfl)
    refine ⟨_,h,fun hdelivered => ?_,rfl,rfl,fun p => ?_⟩
    · obtain ⟨p,hp⟩ := hdelivered.owed_of_count List.mem_cons_self rfl
      match p with
      | 0 => cases hp
      | 1 => cases hp
      | p+2 => cases hp
    · match p with
      | 0 => rfl
      | 1 => rfl
      | p+2 => rfl
  · have h : Reaches step (fun _ _ => True) (· = init) _ := init_reached.exec (fun _ _ => trivial)
      (show exec step init [.addEvent 0,.dispatch true] = some _ from rfl)
    refine ⟨_,h,fun hdelivered => ?_,rfl,rfl,rfl⟩
    cases (hdelivered.freedData.2 0).mpr ⟨List.mem_cons_self,rfl⟩
  · have h : Reaches step (fun _ _ => True) (· = init) _ := init_reached.exec (fun _ _ => trivial)
      (show exec step init [.addEvent 0,.addEvent 1,.addListener 0,.dispatch false,.removeEvent 0,
        .addEvent 0,.start 0] = some _ from rfl)
    exact ⟨_,h,fun hdelivered => Bool.noConfusion hdelivered.fault.1,rfl⟩

end DirectFB.MessengerPort
