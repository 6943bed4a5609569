import Mathlib.Data.List.Nodup
import DirectFB.Reaches

/-! Reactors of a multi application world without the kernel module. A reactor counts in
shared memory how many reactions each process attached on a channel; the reactions are
linked to a node that the process keeps for the reactor. -/
namespace DirectFB.FusionReactor
open Function (update update_apply update_eq_self update_idem update_of_ne update_self)
open Transition

/-- A `NodeLink`. Its number is what a reaction knows of it. -/
structure Link (κ : Type*) where
  id : ℕ
  reaction : Option κ
  channel : ℤ

/-- A `ReactorNode` -/
structure Node (ρ κ : Type*) where
  reactorId : ρ
  links : List (Link κ)
  locked : Bool

structure Listener (σ : Type*) where
  fusionId : σ
  channel : ℤ
  refs : ℕ

/-- The shared part of a reactor, with the state of `listeners_lock`. -/
structure Reactor (σ : Type*) where
  listeners : List (Listener σ)
  locked : Bool
  direct : Bool

/-- Reactors, the nodes of each process and `reactor_nodes_lock`, the `node_link` of each
reaction, and the messages on their way. It is kept in mind where reactions are attached,
and which of them were called. -/
structure State (σ ρ κ : Type*) where
  reactor : ρ → Reactor σ
  nodes : σ → List (Node ρ κ)
  nodesLocked : σ → Bool
  nodeLink : κ → Option ℕ
  next : ℕ
  wire : σ → List (ρ × ℤ)
  attached : κ → Option (σ × ρ × ℤ)
  called : List κ

variable {σ ρ κ : Type*} [DecidableEq σ] [DecidableEq ρ]

/-- The loop of `lock_node`: the node, and the others but those that are empty before it. -/
def search (id : ρ) : List (Node ρ κ) → Option (Node ρ κ) × List (Node ρ κ)
  | [] => (none,[])
  | n::rest =>
    if n.reactorId = id then (some n,rest)
    else
      let r := search id rest
      (r.1,if !n.locked && n.links.isEmpty then r.2 else n::r.2)

/-- The nodes after `lock_node`, whether the first of them is the one that was sought, and
whether `reactor_nodes_lock` is still held. -/
structure Locked (ρ κ : Type*) where
  nodes : List (Node ρ κ)
  found : Bool
  held : Bool

/-- `lock_node`. Without memory for a new node it returns with the lock held. -/
def lockNode (nodes : List (Node ρ κ)) (id : ρ) (addIt wlock memory : Bool) : Locked ρ κ :=
  let s := search id nodes
  match s.1 with
  | some n =>
    let links := if wlock then n.links.filter fun l => l.reaction.isSome else n.links
    if links.isEmpty && !addIt then ⟨s.2,false,false⟩
    else ⟨{n with links := links, locked := true}::s.2,true,false⟩
  | none =>
    if addIt then
      if memory then ⟨⟨id,[],true⟩::s.2,true,false⟩ else ⟨s.2,false,true⟩
    else ⟨s.2,false,false⟩

def unlockNode (nodes : List (Node ρ κ)) (id : ρ) : List (Node ρ κ) :=
  nodes.map fun n => if n.reactorId = id then {n with locked := false} else n

def linksOf (nodes : List (Node ρ κ)) (id : ρ) : List (Link κ) :=
  match nodes.find? fun n => n.reactorId = id with
  | some n => n.links
  | none => []

def setLinks (nodes : List (Node ρ κ)) (id : ρ) (f : List (Link κ) → List (Link κ)) :
    List (Node ρ κ) :=
  nodes.map fun n => if n.reactorId = id then {n with links := f n.links} else n

def Listener.is (l : Listener σ) (p : σ) (channel : ℤ) : Bool :=
  l.fusionId = p && l.channel = channel

/-- The loop of `fusion_reactor_attach_channel`, if there is a listener. -/
def addRef (p : σ) (channel : ℤ) : List (Listener σ) → Option (List (Listener σ))
  | [] => none
  | l::rest =>
    if l.is p channel then some ({l with refs := l.refs+1}::rest)
    else (addRef p channel rest).map (l::·)

def dropRef (p : σ) (channel : ℤ) : List (Listener σ) → List (Listener σ)
  | [] => []
  | l::rest =>
    if l.is p channel then
      if l.refs-1 = 0 then rest else {l with refs := l.refs-1}::rest
    else l::dropRef p channel rest

/-- `fusion_skirmish_prevail( &reactor->listeners_lock )` -/
def prevail (x : State σ ρ κ) (id : ρ) : State σ ρ κ :=
  {x with reactor := update x.reactor id {x.reactor id with locked := true}}

def dismiss (x : State σ ρ κ) (id : ρ) : State σ ρ κ :=
  {x with reactor := update x.reactor id {x.reactor id with locked := false}}

def setListeners (x : State σ ρ κ) (id : ρ) (l : List (Listener σ)) : State σ ρ κ :=
  {x with reactor := update x.reactor id {x.reactor id with listeners := l}}

/-- The state of a process after `lock_node`. -/
def afterLock (x : State σ ρ κ) (p : σ) (l : Locked ρ κ) : State σ ρ κ :=
  {x with
    nodes := update x.nodes p l.nodes
    nodesLocked := update x.nodesLocked p l.held}

def unlock (x : State σ ρ κ) (p : σ) (id : ρ) : State σ ρ κ :=
  {x with nodes := update x.nodes p (unlockNode (x.nodes p) id)}

section Step
variable [DecidableEq κ]

def addLink (x : State σ ρ κ) (p : σ) (id : ρ) (channel : ℤ) (r : κ) : State σ ρ κ :=
  {x with
    nodeLink := update x.nodeLink r (some x.next)
    next := x.next+1
    nodes := update x.nodes p (setLinks (x.nodes p) id fun l => ⟨x.next,some r,channel⟩::l)
    attached := update x.attached r (some (p,id,channel))}

structure Memory where
  link : Bool
  node : Bool
  listener : Bool

/-- `fusion_reactor_attach_channel` -/
def attachChannel (x : State σ ρ κ) (p : σ) (id : ρ) (channel : ℤ) (r : κ) (memory : Memory) :
    State σ ρ κ :=
  if !memory.link then x
  else
    let l := lockNode (x.nodes p) id true true memory.node
    let y := afterLock x p l
    if !l.found then y
    else
      let y := prevail y id
      let listeners := (y.reactor id).listeners
      match addRef p channel listeners with
      | some listeners => unlock (addLink (dismiss (setListeners y id listeners) id) p id channel r) p id
      | none =>
        if !memory.listener then unlock (dismiss y id) p id
        else unlock (addLink (dismiss (setListeners y id (listeners++[⟨p,channel,1⟩])) id) p id
          channel r) p id

/-- `fusion_reactor_detach`. The link is freed before its channel is read: `stale` is what
is read. -/
def detach (x : State σ ρ κ) (p : σ) (id : ρ) (r : κ) (stale : ℤ) : Option (State σ ρ κ) :=
  let l := lockNode (x.nodes p) id false true false
  let y := {afterLock x p l with attached := update x.attached r none}
  if !l.found then some y
  else
    match y.nodeLink r with
    | none => some (unlock y p id)
    | some link =>
      if (linksOf (y.nodes p) id).any fun l => l.id = link then
        let y := {y with
          nodeLink := update y.nodeLink r none
          nodes := update y.nodes p
            (setLinks (y.nodes p) id fun l => l.filter fun l => l.id ≠ link)}
        let y := prevail y id
        let y := setListeners y id (dropRef p stale (y.reactor id).listeners)
        some (unlock (dismiss y id) p id)
      else none

/-- A reaction is called. Where it answers `RS_REMOVE`, its count is dropped. -/
def react (p : σ) (id : ρ) (channel : ℤ) (remove : κ → Bool) (x : State σ ρ κ) (l : Link κ) :
    State σ ρ κ :=
  if l.channel ≠ channel then x
  else
    match l.reaction with
    | none => x
    | some r =>
      let y := {x with called := x.called++[r]}
      if remove r then
        let y := prevail {y with attached := update y.attached r none} id
        dismiss (setListeners y id (dropRef p channel (y.reactor id).listeners)) id
      else y

/-- `_fusion_reactor_process_message` -/
def processMessage (x : State σ ρ κ) (p : σ) (id : ρ) (channel : ℤ) (remove : κ → Bool) :
    State σ ρ κ :=
  let l := lockNode (x.nodes p) id false false false
  let y := afterLock x p l
  if !l.found then y
  else unlock ((linksOf (y.nodes p) id).foldl (react p id channel remove) y) p id

/-- The loop of `fusion_reactor_dispatch_channel`. -/
def send (x : State σ ρ κ) (p : σ) (id : ρ) (channel : ℤ) (self : Bool) : State σ ρ κ :=
  let targets := (x.reactor id).listeners.filter fun l =>
    l.channel = channel && (self || l.fusionId ≠ p)
  {x with wire := targets.foldl (fun wire l =>
    update wire l.fusionId (wire l.fusionId++[(id,channel)])) x.wire}

/-- `fusion_reactor_dispatch_channel` -/
def dispatchChannel (x : State σ ρ κ) (p : σ) (id : ρ) (channel : ℤ) (self : Bool)
    (remove : κ → Bool) : State σ ρ κ :=
  let inside := self && (x.reactor id).direct
  let y := if inside then processMessage x p id channel remove else x
  dismiss (send (prevail y id) p id channel (self && !inside)) id

inductive Event (σ ρ κ : Type*)
  | attach (p : σ) (id : ρ) (channel : ℤ) (r : κ) (memory : Memory)
  | detach (p : σ) (id : ρ) (r : κ) (stale : ℤ)
  | dispatch (p : σ) (id : ρ) (channel : ℤ) (self : Bool) (remove : κ → Bool)
  | deliver (p : σ) (remove : κ → Bool)

/-- One call of a process, that returns unless it waits for `reactor_nodes_lock`. A reaction
is not attached twice, and detached from the reactor it was attached to. -/
def step (x : State σ ρ κ) : Event σ ρ κ → Option (State σ ρ κ)
  | .attach p id channel r memory =>
    if x.attached r = none ∧ x.nodesLocked p = false then
      some (attachChannel x p id channel r memory)
    else none
  | .detach p id r stale =>
    if (∀ a ∈ x.attached r, a.1 = p ∧ a.2.1 = id) ∧ x.nodesLocked p = false then
      detach x p id r stale
    else none
  | .dispatch p id channel self remove =>
    if x.nodesLocked p = false then some (dispatchChannel x p id channel self remove) else none
  | .deliver p remove =>
    match x.wire p with
    | [] => none
    | (id,channel)::rest =>
      if x.nodesLocked p = false then
        some (processMessage {x with wire := update x.wire p rest} p id channel remove)
      else none

end Step

def init (x : State σ ρ κ) : Prop :=
  (∀ id, (x.reactor id).listeners = [] ∧ (x.reactor id).locked = false) ∧
  (∀ p, x.nodes p = [] ∧ x.nodesLocked p = false ∧ x.wire p = []) ∧
  (∀ r, x.nodeLink r = none ∧ x.attached r = none) ∧ x.called = []

def links (x : State σ ρ κ) (p : σ) (id : ρ) : List (Link κ) := linksOf (x.nodes p) id

def live (x : State σ ρ κ) (p : σ) (id : ρ) (l : Link κ) : Bool :=
  match l.reaction with
  | some r => x.nodeLink r = some l.id && x.attached r = some (p,id,l.channel)
  | none => false

/-- There is memory for a node, no message comes to a reaction that removed itself, and such
a reaction is detached only where no other is attached. The channel of a freed link is still
read from it. -/
def Kept (x : State σ ρ κ) : Event σ ρ κ → Prop
  | .attach p id _ _ memory => memory.link → memory.node ∨ ∃ n ∈ x.nodes p, n.reactorId = id
  | .detach p id r stale => ∀ l ∈ links x p id, x.nodeLink r = some l.id →
      if live x p id l then stale = l.channel
      else ∀ listener ∈ (x.reactor id).listeners, ¬ listener.is p stale
  | .dispatch p id channel self _ => self ∧ (x.reactor id).direct →
      ∀ l ∈ links x p id, l.channel = channel → live x p id l
  | .deliver p _ => ∀ id channel rest, x.wire p = (id,channel)::rest →
      ∀ l ∈ links x p id, l.channel = channel → live x p id l

section Nodes
variable {nodes : List (Node ρ κ)} {id : ρ}

theorem linksOf_cons (n : Node ρ κ) (nodes : List (Node ρ κ)) (id : ρ) :
    linksOf (n::nodes) id = if n.reactorId = id then n.links else linksOf nodes id := by
  unfold linksOf
  rw [List.find?_cons]
  by_cases h : n.reactorId = id <;> simp [h]

theorem linksOf_eq_nil (h : ∀ n ∈ nodes, n.reactorId ≠ id) : linksOf nodes id = [] := by
  induction nodes with
  | nil => rfl
  | cons n rest ih =>
    rw [linksOf_cons,if_neg (h n List.mem_cons_self)]
    exact ih fun m hm => h m (List.mem_cons_of_mem _ hm)

theorem search_sublist (id : ρ) (nodes : List (Node ρ κ)) : (search id nodes).2.Sublist nodes := by
  induction nodes with
  | nil => exact List.Sublist.refl _
  | cons n rest ih =>
    unfold search
    by_cases h : n.reactorId = id
    · rw [if_pos h]
      exact List.sublist_cons_self _ _
    · rw [if_neg h]
      dsimp only
      split_ifs
      · exact ih.cons _
      · exact ih.cons_cons _

theorem search_some {n : Node ρ κ} (h : (search id nodes).1 = some n) :
    n.reactorId = id ∧ linksOf nodes id = n.links := by
  induction nodes with
  | nil => cases h
  | cons m rest ih =>
    unfold search at h
    rw [linksOf_cons]
    by_cases hm : m.reactorId = id
    · rw [if_pos hm] at h ⊢
      cases h
      exact ⟨hm,rfl⟩
    · rw [if_neg hm] at h ⊢
      exact ih h

theorem search_none (h : (search id nodes).1 = none) : ∀ n ∈ nodes, n.reactorId ≠ id := by
  induction nodes with
  | nil =>
    intro n hn
    cases hn
  | cons m rest ih =>
    unfold search at h
    by_cases hm : m.reactorId = id
    · rw [if_pos hm] at h
      cases h
    · rw [if_neg hm] at h
      intro n hn
      rcases List.mem_cons.mp hn with rfl | hn
      · exact hm
      · exact ih h n hn

theorem search_others (id : ρ) (hnodup : (nodes.map Node.reactorId).Nodup) :
    (∀ n ∈ (search id nodes).2, n.reactorId ≠ id) ∧
    ∀ id', id' ≠ id → linksOf (search id nodes).2 id' = linksOf nodes id' := by
  induction nodes with
  | nil => exact ⟨fun n hn => (by cases hn),fun _ _ => rfl⟩
  | cons m rest ih =>
    rw [List.map_cons,List.nodup_cons] at hnodup
    obtain ⟨hm,hrest⟩ := hnodup
    obtain ⟨hne,hsame⟩ := ih hrest
    have hmem : ∀ n ∈ rest, n.reactorId ≠ m.reactorId := fun n hn he =>
      hm (List.mem_map.mpr ⟨n,hn,he⟩)
    unfold search
    by_cases h : m.reactorId = id
    · rw [if_pos h]
      refine ⟨fun n hn => h ▸ hmem n hn,fun id' hid => ?_⟩
      rw [linksOf_cons,if_neg (h.trans_ne hid.symm)]
    · rw [if_neg h]
      dsimp only
      split_ifs with hempty
      · refine ⟨hne,fun id' hid => ?_⟩
        rw [hsame id' hid,linksOf_cons]
        split_ifs with hm'
        · subst hm'
          rw [linksOf_eq_nil hmem]
          simp only [Bool.and_eq_true,List.isEmpty_iff] at hempty
          exact hempty.2.symm
        · rfl
      · refine ⟨fun n hn => ?_,fun id' hid => ?_⟩
        · rcases List.mem_cons.mp hn with rfl | hn
          · exact h
          · exact hne n hn
        · rw [linksOf_cons,linksOf_cons,hsame id' hid]

/-- Locking a node changes the links of no node. A node is found unless it has no links. -/
theorem lockNode_spec (id : ρ) (hnodup : (nodes.map Node.reactorId).Nodup)
    (hlocked : ∀ n ∈ nodes, n.locked = false)
    (hsome : ∀ l ∈ linksOf nodes id, l.reaction.isSome) (addIt wlock memory : Bool) :
    ((lockNode nodes id addIt wlock memory).nodes.map Node.reactorId).Nodup ∧
    (∀ id', linksOf (lockNode nodes id addIt wlock memory).nodes id' = linksOf nodes id') ∧
    (∀ n ∈ (lockNode nodes id addIt wlock memory).nodes, n.locked = true →
      (lockNode nodes id addIt wlock memory).found = true ∧ n.reactorId = id) ∧
    ((lockNode nodes id addIt wlock memory).found = true →
      (lockNode nodes id addIt wlock memory).held = false ∧
      ∃ n ∈ (lockNode nodes id addIt wlock memory).nodes, n.reactorId = id) ∧
    ((lockNode nodes id addIt wlock memory).found = false → linksOf nodes id = []) ∧
    ((lockNode nodes id addIt wlock memory).held = true →
      addIt = true ∧ memory = false ∧ ∀ n ∈ nodes, n.reactorId ≠ id) := by
  have hsub := search_sublist id nodes
  obtain ⟨hne,hsame⟩ := search_others id hnodup
  have hrest : ((search id nodes).2.map Node.reactorId).Nodup := hnodup.sublist (hsub.map _)
  have hfree : ∀ n ∈ (search id nodes).2, n.locked = false := fun n hn => hlocked n (hsub.subset hn)
  have hnew : ∀ n : Node ρ κ, n.reactorId = id → linksOf nodes id = n.links →
      ((n::(search id nodes).2).map Node.reactorId).Nodup ∧
      ∀ id', linksOf (n::(search id nodes).2) id' = linksOf nodes id' := by
    intro n hn hl
    refine ⟨?_,fun id' => ?_⟩
    · rw [List.map_cons,List.nodup_cons]
      refine ⟨fun hm => ?_,hrest⟩
      obtain ⟨m,hm,he⟩ := List.mem_map.mp hm
      exact hne m hm (he.trans hn)
    · rw [linksOf_cons]
      split_ifs with h
      · rw [← hl,← h,hn]
      · exact hsame id' fun he => h (hn.trans he.symm)
  have hlast : ∀ n : Node ρ κ, n.reactorId = id → ∀ m ∈ n::(search id nodes).2,
      m.locked = true → m.reactorId = id := by
    intro n hn m hm hlm
    rcases List.mem_cons.mp hm with rfl | hm
    · exact hn
    · rw [hfree m hm] at hlm
      cases hlm
  have hdrop : linksOf nodes id = [] → ∀ id', linksOf (search id nodes).2 id' =
      linksOf nodes id' := by
    intro hnil id'
    rcases eq_or_ne id' id with rfl | hid
    · rw [hnil,linksOf_eq_nil hne]
    · exact hsame id' hid
  unfold lockNode
  dsimp only
  cases hs : (search id nodes).1 with
  | some n =>
    obtain ⟨hid,hl⟩ := search_some hs
    have hfilter : (if wlock then n.links.filter fun l => l.reaction.isSome else n.links) =
        n.links := by
      split_ifs
      · exact List.filter_eq_self.mpr fun l hm => hsome l (hl ▸ hm)
      · rfl
    dsimp only
    rw [hfilter]
    split_ifs with hempty
    · simp only [Bool.and_eq_true,List.isEmpty_iff] at hempty
      have hnil : linksOf nodes id = [] := hl.trans hempty.1
      refine ⟨hrest,hdrop hnil,fun m hm hlm => ?_,fun h => (by cases h),fun _ => hnil,
        fun h => (by cases h)⟩
      rw [hfree m hm] at hlm
      cases hlm
    · obtain ⟨hnd,hlinks⟩ := hnew {n with links := n.links, locked := true} hid hl
      exact ⟨hnd,hlinks,
        fun m hm hlm => ⟨rfl,hlast {n with links := n.links, locked := true} hid m hm hlm⟩,
        fun _ => ⟨rfl,_,List.mem_cons_self,hid⟩,fun h => (by cases h),fun h => (by cases h)⟩
  | none =>
    have habsent := search_none hs
    have hnil := linksOf_eq_nil habsent
    dsimp only
    split_ifs with hadd hmem
    · obtain ⟨hnd,hlinks⟩ := hnew ⟨id,[],true⟩ rfl hnil
      exact ⟨hnd,hlinks,fun m hm hlm => ⟨rfl,hlast _ rfl m hm hlm⟩,
        fun _ => ⟨rfl,_,List.mem_cons_self,rfl⟩,fun h => (by cases h),fun h => (by cases h)⟩
    · refine ⟨hrest,hdrop hnil,fun m hm hlm => ?_,fun h => (by cases h),fun _ => hnil,
        fun _ => ⟨hadd,by simpa using hmem,habsent⟩⟩
      rw [hfree m hm] at hlm
      cases hlm
    · refine ⟨hrest,hdrop hnil,fun m hm hlm => ?_,fun h => (by cases h),fun _ => hnil,
        fun h => (by cases h)⟩
      rw [hfree m hm] at hlm
      cases hlm

end Nodes

section Lists

def entry (p : σ) (channel : ℤ) (n : ℕ) : List (Listener σ) :=
  if n = 0 then [] else [⟨p,channel,n⟩]

omit [DecidableEq ρ]

theorem filter_is_cons (l : Listener σ) (rest : List (Listener σ)) (p : σ) (channel : ℤ) :
    (l::rest).filter (·.is p channel) =
      if l.is p channel then l::rest.filter (·.is p channel) else rest.filter (·.is p channel) := by
  rw [List.filter_cons]

omit [DecidableEq σ] in
theorem entry_zero (p : σ) (channel : ℤ) : entry p channel 0 = [] := rfl

omit [DecidableEq σ] in
theorem entry_succ (p : σ) (channel : ℤ) (n : ℕ) : entry p channel (n+1) = [⟨p,channel,n+1⟩] := rfl

theorem is_self (p : σ) (channel : ℤ) (n : ℕ) : Listener.is ⟨p,channel,n⟩ p channel = true := by
  simp [Listener.is]

theorem is_other {l : Listener σ} {p p' : σ} {channel channel' : ℤ} (h : l.is p channel = true)
    (hne : (p',channel') ≠ (p,channel)) : l.is p' channel' = false := by
  simp only [Listener.is,Bool.and_eq_true,decide_eq_true_eq] at h
  obtain ⟨rfl,rfl⟩ := h
  by_contra hl
  simp only [Listener.is,Bool.not_eq_false,Bool.and_eq_true,decide_eq_true_eq] at hl
  exact hne (Prod.ext hl.1.symm hl.2.symm)

theorem filter_dropRef_other {p p' : σ} {channel channel' : ℤ}
    (hne : (p',channel') ≠ (p,channel)) (ls : List (Listener σ)) :
    (dropRef p channel ls).filter (·.is p' channel') = ls.filter (·.is p' channel') := by
  induction ls with
  | nil => rfl
  | cons l rest ih =>
    unfold dropRef
    by_cases h : l.is p channel = true
    · have hl := is_other h hne
      have hl' : Listener.is {l with refs := l.refs-1} p' channel' = false := hl
      rw [if_pos h]
      split_ifs
      · rw [List.filter_cons_of_neg (by simp [hl])]
      · rw [List.filter_cons_of_neg (by simp [hl']),List.filter_cons_of_neg (by simp [hl])]
    · rw [if_neg h,List.filter_cons,List.filter_cons,ih]

theorem filter_dropRef_self {p : σ} {channel : ℤ} {n : ℕ} {ls : List (Listener σ)}
    (h : ls.filter (·.is p channel) = entry p channel (n+1)) :
    (dropRef p channel ls).filter (·.is p channel) = entry p channel n := by
  induction ls with
  | nil => cases h
  | cons l rest ih =>
    unfold dropRef
    by_cases hl : l.is p channel = true
    · rw [filter_is_cons,if_pos hl,entry_succ,List.cons.injEq] at h
      obtain ⟨rfl,hrest⟩ := h
      rw [if_pos hl]
      rw [Nat.add_sub_cancel]
      split_ifs with hn
      · rw [hrest,hn,entry_zero]
      · rw [filter_is_cons,if_pos (is_self p channel n),hrest,entry,if_neg hn]
    · rw [filter_is_cons,if_neg hl] at h
      rw [if_neg hl,filter_is_cons,if_neg hl,ih h]

theorem dropRef_absent {p : σ} {channel : ℤ} {ls : List (Listener σ)}
    (h : ∀ l ∈ ls, ¬ l.is p channel) : dropRef p channel ls = ls := by
  induction ls with
  | nil => rfl
  | cons l rest ih =>
    rw [dropRef,if_neg (h l List.mem_cons_self),ih fun m hm => h m (List.mem_cons_of_mem _ hm)]

theorem filter_addRef {p : σ} {channel : ℤ} {n : ℕ} {ls : List (Listener σ)}
    (h : ls.filter (·.is p channel) = entry p channel n) :
    match addRef p channel ls with
    | some ls' => ls'.filter (·.is p channel) = entry p channel (n+1) ∧
        ∀ p' channel', (p',channel') ≠ (p,channel) →
          ls'.filter (·.is p' channel') = ls.filter (·.is p' channel')
    | none => n = 0 := by
  induction ls with
  | nil =>
    unfold addRef
    by_contra hn
    rw [entry,if_neg hn] at h
    cases h
  | cons l rest ih =>
    unfold addRef
    by_cases hl : l.is p channel = true
    · rw [if_pos hl]
      rw [filter_is_cons,if_pos hl] at h
      have hn : n ≠ 0 := by
        rintro rfl
        cases h
      rw [entry,if_neg hn,List.cons.injEq] at h
      obtain ⟨rfl,hrest⟩ := h
      refine ⟨?_,fun p' channel' hne => ?_⟩
      · rw [filter_is_cons,if_pos (is_self p channel (n+1)),hrest,entry_succ]
      · have hother := is_other hl hne
        have hother' := is_other (is_self p channel (n+1)) hne
        rw [List.filter_cons_of_neg (by simp [hother']),List.filter_cons_of_neg (by simp [hother])]
    · rw [if_neg hl]
      rw [filter_is_cons,if_neg hl] at h
      have hr := ih h
      cases ha : addRef p channel rest with
      | none =>
        rw [ha] at hr
        exact hr
      | some ls' =>
        rw [ha] at hr
        refine ⟨?_,fun p' channel' hne => ?_⟩
        · rw [filter_is_cons,if_neg hl]
          exact hr.1
        · rw [List.filter_cons,List.filter_cons,hr.2 p' channel' hne]

theorem filter_append_new {p : σ} {channel : ℤ} {ls : List (Listener σ)}
    (h : ls.filter (·.is p channel) = []) (p' : σ) (channel' : ℤ) :
    (ls++[(⟨p,channel,1⟩ : Listener σ)]).filter (·.is p' channel') =
      if (p',channel') = (p,channel) then entry p channel 1 else ls.filter (·.is p' channel') := by
  rw [List.filter_append]
  split_ifs with he
  · obtain ⟨rfl,rfl⟩ := Prod.mk.inj he
    rw [h,List.nil_append,filter_is_cons,if_pos (is_self p' channel' 1)]
    rfl
  · have hother := is_other (is_self p channel 1) he
    rw [List.filter_cons_of_neg (by simp [hother]),List.filter_nil,List.append_nil]

/-- With its identifiers, a list of links loses one link. -/
theorem countP_remove {ls : List (Link κ)} (hnodup : (ls.map Link.id).Nodup) {l : Link κ}
    (hl : l ∈ ls) (q : Link κ → Bool) :
    ls.countP q = (ls.filter fun m => m.id ≠ l.id).countP q + if q l then 1 else 0 := by
  induction ls with
  | nil => cases hl
  | cons m rest ih =>
    rw [List.map_cons,List.nodup_cons] at hnodup
    obtain ⟨hm,hrest⟩ := hnodup
    rcases List.mem_cons.mp hl with rfl | hmem
    · have hkeep : rest.filter (fun m => m.id ≠ l.id) = rest :=
        List.filter_eq_self.mpr fun a ha => by
          have : a.id ≠ l.id := fun he => hm (List.mem_map.mpr ⟨a,ha,he⟩)
          simpa using this
      rw [List.filter_cons_of_neg (by simp),hkeep,List.countP_cons]
    · have hne : m.id ≠ l.id := fun he => hm (List.mem_map.mpr ⟨l,hmem,he.symm⟩)
      rw [List.filter_cons_of_pos (by simpa using hne),List.countP_cons,List.countP_cons,
        ih hrest hmem]
      omega

theorem dropRef_counted {ls : List (Listener σ)} {n m : σ → ℤ → ℕ} {p : σ} {channel : ℤ}
    (h : ∀ p' channel', ls.filter (·.is p' channel') = entry p' channel' (n p' channel'))
    (hdrop : n p channel = m p channel+1)
    (hother : ∀ p' channel', (p',channel') ≠ (p,channel) → n p' channel' = m p' channel')
    (p' : σ) (channel' : ℤ) :
    (dropRef p channel ls).filter (·.is p' channel') = entry p' channel' (m p' channel') := by
  by_cases he : (p',channel') = (p,channel)
  · obtain ⟨rfl,rfl⟩ := Prod.mk.inj he
    exact filter_dropRef_self (hdrop ▸ h p' channel')
  · rw [filter_dropRef_other he,h,hother p' channel' he]

end Lists

section Links
variable {nodes : List (Node ρ κ)} {id : ρ}

theorem linksOf_setLinks {f : List (Link κ) → List (Link κ)}
    (h : f [] = [] ∨ ∃ n ∈ nodes, n.reactorId = id) (id' : ρ) :
    linksOf (setLinks nodes id f) id' =
      if id' = id then f (linksOf nodes id) else linksOf nodes id' := by
  induction nodes with
  | nil =>
    rcases h with h | ⟨n,hn,_⟩
    · split_ifs
      · exact h.symm
      · rfl
    · cases hn
  | cons n rest ih =>
    have hmap : setLinks (n::rest) id f =
        (if n.reactorId = id then {n with links := f n.links} else n)::setLinks rest id f := rfl
    rw [hmap,linksOf_cons,linksOf_cons,linksOf_cons]
    by_cases hn : n.reactorId = id
    · rw [if_pos hn,if_pos hn]
      dsimp only
      rw [hn]
      by_cases hid : id' = id
      · rw [if_pos hid.symm,if_pos hid]
      · rw [if_neg (Ne.symm hid),if_neg hid,if_neg (Ne.symm hid)]
        by_cases hrest : ∃ m ∈ rest, m.reactorId = id
        · rw [ih (.inr hrest),if_neg hid]
        · have hkeep : setLinks rest id f = rest := by
            unfold setLinks
            refine (List.map_congr_left fun m hm => ?_).trans (List.map_id rest)
            exact if_neg fun he => hrest ⟨m,hm,he⟩
          rw [hkeep]
    · rw [if_neg hn,if_neg hn]
      have hrest : f [] = [] ∨ ∃ m ∈ rest, m.reactorId = id := by
        refine h.imp_right fun ⟨m,hm,he⟩ => ⟨m,?_,he⟩
        rcases List.mem_cons.mp hm with rfl | hm
        · exact absurd he hn
        · exact hm
      rw [ih hrest]
      by_cases hid : id' = id
      · rw [hid,if_pos rfl,if_neg hn,if_pos rfl]
      · rw [if_neg hid,if_neg hid]

theorem linksOf_unlockNode (id' : ρ) : linksOf (unlockNode nodes id) id' = linksOf nodes id' := by
  induction nodes with
  | nil => rfl
  | cons n rest ih =>
    have hmap : unlockNode (n::rest) id =
        (if n.reactorId = id then {n with locked := false} else n)::unlockNode rest id := rfl
    rw [hmap,linksOf_cons,linksOf_cons,ih]
    by_cases hn : n.reactorId = id <;> simp [hn]

theorem map_setLinks (f : List (Link κ) → List (Link κ)) :
    (setLinks nodes id f).map Node.reactorId = nodes.map Node.reactorId := by
  unfold setLinks
  rw [List.map_map]
  refine List.map_congr_left fun n _ => ?_
  simp only [Function.comp]
  split_ifs <;> rfl

theorem map_unlockNode : (unlockNode nodes id).map Node.reactorId = nodes.map Node.reactorId := by
  unfold unlockNode
  rw [List.map_map]
  refine List.map_congr_left fun n _ => ?_
  simp only [Function.comp]
  split_ifs <;> rfl

theorem unlockNode_locked (h : ∀ n ∈ nodes, n.locked = true → n.reactorId = id) :
    ∀ n ∈ unlockNode nodes id, n.locked = false := by
  intro n hn
  obtain ⟨m,hm,rfl⟩ := List.mem_map.mp hn
  split_ifs with hid
  · rfl
  · by_contra hl
    exact hid (h m hm (by simpa using hl))

theorem setLinks_locked {f : List (Link κ) → List (Link κ)}
    (h : ∀ n ∈ nodes, n.locked = true → n.reactorId = id) :
    ∀ n ∈ setLinks nodes id f, n.locked = true → n.reactorId = id := by
  intro n hn hl
  obtain ⟨m,hm,rfl⟩ := List.mem_map.mp hn
  split_ifs at hl ⊢ with hid
  · exact hid
  · exact h m hm hl

end Links

def count (x : State σ ρ κ) (p : σ) (id : ρ) (channel : ℤ) : ℕ :=
  (links x p id).countP fun l => l.channel = channel && live x p id l

/-- Each reaction that is attached has its link, and no link is that of another. -/
structure Linked (x : State σ ρ κ) : Prop where
  nodup : ∀ p, ((x.nodes p).map Node.reactorId).Nodup
  reaction : ∀ p id, ∀ l ∈ links x p id, l.reaction.isSome
  ids : ∀ p id, ((links x p id).map Link.id).Nodup
  fresh : ∀ p id, ∀ l ∈ links x p id, l.id < x.next
  bound : ∀ r n, x.nodeLink r = some n → n < x.next
  own : ∀ p id, ∀ l ∈ links x p id, ∀ r, x.nodeLink r = some l.id → l.reaction = some r
  attached : ∀ r p id channel, x.attached r = some (p,id,channel) →
    ∃ l ∈ links x p id, l.reaction = some r ∧ l.channel = channel ∧ x.nodeLink r = some l.id

def Counted (x : State σ ρ κ) : Prop := ∀ p id channel,
  (x.reactor id).listeners.filter (·.is p channel) = entry p channel (count x p id channel)

structure Idle (x : State σ ρ κ) : Prop where
  node : ∀ p, ∀ n ∈ x.nodes p, n.locked = false
  mutex : ∀ p, x.nodesLocked p = false
  listeners : ∀ id, (x.reactor id).locked = false

structure Holding (x : State σ ρ κ) (p : σ) (id : ρ) : Prop where
  node : ∀ q, ∀ n ∈ x.nodes q, n.locked = true → q = p ∧ n.reactorId = id
  mutex : ∀ q, x.nodesLocked q = false
  listeners : ∀ id, (x.reactor id).locked = false

section Locks
variable {x : State σ ρ κ} {p : σ} {id : ρ}

omit [DecidableEq σ] in
/-- What counts is the links and where they belong. -/
theorem Linked.congr {y : State σ ρ κ} (h : Linked x)
    (hnodup : ∀ p, ((y.nodes p).map Node.reactorId).Nodup)
    (hlinks : ∀ p id, links y p id = links x p id) (hlink : y.nodeLink = x.nodeLink)
    (hnext : y.next = x.next) (hattached : y.attached = x.attached) : Linked y := by
  refine ⟨hnodup,fun p id => ?_,fun p id => ?_,fun p id => ?_,?_,fun p id => ?_,
    fun r p id channel ha => ?_⟩
  · rw [hlinks]
    exact h.reaction p id
  · rw [hlinks]
    exact h.ids p id
  · rw [hlinks,hnext]
    exact h.fresh p id
  · rw [hlink,hnext]
    exact h.bound
  · rw [hlinks,hlink]
    exact h.own p id
  · rw [hlinks,hlink]
    exact h.attached r p id channel (hattached ▸ ha)

theorem count_congr {y : State σ ρ κ} (hlinks : ∀ p id, links y p id = links x p id)
    (hlink : y.nodeLink = x.nodeLink) (hattached : y.attached = x.attached) :
    count y = count x := by
  funext p id channel
  unfold count live
  rw [hlinks,hlink,hattached]

theorem links_update (nodes : List (Node ρ κ)) (q : σ) (id' : ρ) :
    links {x with nodes := update x.nodes p nodes} q id' =
      if q = p then linksOf nodes id' else links x q id' := by
  unfold links
  dsimp only
  rw [update_apply]
  split_ifs <;> rfl

theorem links_unlock (q : σ) (id' : ρ) : links (unlock x p id) q id' = links x q id' := by
  unfold unlock
  rw [links_update]
  split_ifs with hq
  · rw [linksOf_unlockNode,hq]
    rfl
  · rfl

theorem Linked.unlock (h : Linked x) (p : σ) (id : ρ) : Linked (unlock x p id) := by
  refine h.congr (fun q => ?_) links_unlock rfl rfl rfl
  unfold FusionReactor.unlock
  dsimp only
  rw [update_apply]
  split_ifs with hq
  · rw [map_unlockNode]
    exact h.nodup p
  · exact h.nodup q

theorem Holding.unlock (h : Holding x p id) : Idle (unlock x p id) := by
  refine ⟨fun q n hn => ?_,h.mutex,h.listeners⟩
  unfold FusionReactor.unlock at hn
  dsimp only at hn
  rw [update_apply] at hn
  split_ifs at hn with hq
  · exact unlockNode_locked (fun m hm hl => (h.node p m hm hl).2) n hn
  · by_contra hl
    exact hq (h.node q n hn (by simpa using hl)).1

section AfterLock
variable (h : Linked x) (hidle : Idle x) (p : σ) (id : ρ) (addIt wlock memory : Bool)
include h hidle

theorem links_afterLock (q : σ) (id' : ρ) :
    links (afterLock x p (lockNode (x.nodes p) id addIt wlock memory)) q id' = links x q id' := by
  have hspec := lockNode_spec id (h.nodup p) (hidle.node p) (h.reaction p id) addIt wlock memory
  unfold afterLock links
  dsimp only
  rw [update_apply]
  split_ifs with hq
  · rw [hspec.2.1,hq]
  · rfl

theorem Linked.afterLock : Linked (afterLock x p (lockNode (x.nodes p) id addIt wlock memory)) := by
  have hspec := lockNode_spec id (h.nodup p) (hidle.node p) (h.reaction p id) addIt wlock memory
  refine h.congr (fun q => ?_) (links_afterLock h hidle p id addIt wlock memory) rfl rfl rfl
  unfold FusionReactor.afterLock
  dsimp only
  rw [update_apply]
  split_ifs with hq
  · exact hspec.1
  · exact h.nodup q

/-- Where there is memory for the node, the mutex is released, and of the nodes only the
one that was found is locked. -/
theorem afterLock_locks
    (hmemory : addIt → memory = true ∨ ∃ n ∈ x.nodes p, n.reactorId = id) :
    let l := lockNode (x.nodes p) id addIt wlock memory
    (l.found = false → Idle (afterLock x p l) ∧ links x p id = []) ∧
    (l.found = true → Holding (afterLock x p l) p id ∧ ∃ n ∈ l.nodes, n.reactorId = id) := by
  obtain ⟨-,-,hlocked,hfound,hempty,hheld⟩ := lockNode_spec id (h.nodup p) (hidle.node p)
    (h.reaction p id) addIt wlock memory
  dsimp only
  have hfree : (lockNode (x.nodes p) id addIt wlock memory).held = false := by
    by_contra hh
    obtain ⟨hadd,hm,habsent⟩ := hheld (by simpa using hh)
    rcases hmemory hadd with hm' | ⟨n,hn,he⟩
    · rw [hm] at hm'
      cases hm'
    · exact habsent n hn he
  have hmutex : ∀ q, (afterLock x p (lockNode (x.nodes p) id addIt wlock memory)).nodesLocked q =
      false := fun q => by
    unfold afterLock
    dsimp only
    rw [update_apply]
    split_ifs
    · exact hfree
    · exact hidle.mutex q
  have hnode : ∀ q, ∀ n ∈ (afterLock x p (lockNode (x.nodes p) id addIt wlock memory)).nodes q,
      n.locked = true → (lockNode (x.nodes p) id addIt wlock memory).found = true ∧
        q = p ∧ n.reactorId = id := by
    intro q n hn hl
    unfold afterLock at hn
    dsimp only at hn
    rw [update_apply] at hn
    split_ifs at hn with hq
    · obtain ⟨hf,hid⟩ := hlocked n hn hl
      exact ⟨hf,hq,hid⟩
    · rw [hidle.node q n hn] at hl
      cases hl
  refine ⟨fun hf => ⟨⟨fun q n hn => ?_,hmutex,hidle.listeners⟩,hempty hf⟩,fun hf =>
    ⟨⟨fun q n hn hl => (hnode q n hn hl).2,hmutex,hidle.listeners⟩,(hfound hf).2⟩⟩
  by_contra hl
  rw [(hnode q n hn (by simpa using hl)).1] at hf
  cases hf

end AfterLock

section Listeners
omit [DecidableEq σ]

theorem listeners_exclusive (hfree : (x.reactor id).locked = false) (ls : List (Listener σ)) :
    dismiss (setListeners (prevail x id) id ls) id = setListeners x id ls := by
  unfold dismiss setListeners prevail
  dsimp only
  simp only [update_self,update_idem]
  rw [hfree]

theorem prevail_listeners (id' : ρ) :
    ((prevail x id).reactor id').listeners = (x.reactor id').listeners := by
  unfold prevail
  dsimp only
  rw [update_apply]
  split_ifs with h
  · rw [h]
  · rfl

theorem dismiss_prevail (hfree : (x.reactor id).locked = false) : dismiss (prevail x id) id = x := by
  unfold dismiss prevail
  dsimp only
  simp only [update_self,update_idem]
  rw [← hfree,update_eq_self]

theorem setListeners_listeners (ls : List (Listener σ)) (id' : ρ) :
    ((setListeners x id ls).reactor id').listeners =
      if id' = id then ls else (x.reactor id').listeners := by
  unfold setListeners
  dsimp only
  rw [update_apply]
  split_ifs <;> rfl

theorem setListeners_locked (ls : List (Listener σ)) (h : ∀ id, (x.reactor id).locked = false)
    (id' : ρ) : ((setListeners x id ls).reactor id').locked = false := by
  unfold setListeners
  dsimp only
  rw [update_apply]
  split_ifs
  · exact h id
  · exact h id'

end Listeners

end Locks

section Changes
variable {x : State σ ρ κ} {p : σ} {id : ρ}

theorem Holding.setLinks {f : List (Link κ) → List (Link κ)} (h : Holding x p id) :
    Holding {x with nodes := update x.nodes p (setLinks (x.nodes p) id f)} p id := by
  refine ⟨fun q n hn hl => ?_,h.mutex,h.listeners⟩
  dsimp only at hn
  rw [update_apply] at hn
  split_ifs at hn with hq
  · exact ⟨hq,setLinks_locked (fun m hm hl => (h.node p m hm hl).2) n hn hl⟩
  · exact h.node q n hn hl

theorem nodup_setLinks {f : List (Link κ) → List (Link κ)} (h : Linked x) (q : σ) :
    ((update x.nodes p (setLinks (x.nodes p) id f) q).map Node.reactorId).Nodup := by
  rw [update_apply]
  split_ifs
  · rw [map_setLinks]
    exact h.nodup p
  · exact h.nodup q

theorem live_iff {q : σ} {id' : ρ} {l : Link κ} : live x q id' l = true ↔
    ∃ r, l.reaction = some r ∧ x.nodeLink r = some l.id ∧
      x.attached r = some (q,id',l.channel) := by
  unfold live
  cases l.reaction with
  | none => simp
  | some r => simp

/-- Two links of one reaction that are both live are one. -/
theorem Linked.live_unique (h : Linked x) {q : σ} {id' : ρ} {l m : Link κ}
    (hl : l ∈ links x p id) (hm : m ∈ links x q id') (hlive : live x p id l = true)
    (hlive' : live x q id' m = true) (he : l.reaction = m.reaction) :
    q = p ∧ id' = id ∧ m = l := by
  obtain ⟨r,hr,hlink,ha⟩ := live_iff.mp hlive
  obtain ⟨r',hr',hlink',ha'⟩ := live_iff.mp hlive'
  obtain rfl : r = r' := by
    rw [hr,hr'] at he
    exact Option.some.inj he
  rw [ha] at ha'
  simp only [Option.some.injEq,Prod.mk.injEq] at ha'
  obtain ⟨rfl,rfl,-⟩ := ha'
  rw [hlink] at hlink'
  exact ⟨rfl,rfl,(List.inj_on_of_nodup_map (h.ids p id) hl hm (Option.some.inj hlink')).symm⟩

variable [DecidableEq κ]

theorem links_addLink (channel : ℤ) (r : κ) (hnode : ∃ n ∈ x.nodes p, n.reactorId = id) (q : σ)
    (id' : ρ) : links (addLink x p id channel r) q id' =
      if q = p ∧ id' = id then ⟨x.next,some r,channel⟩::links x p id else links x q id' := by
  unfold addLink links
  dsimp only
  rw [update_apply]
  by_cases hq : q = p
  · rw [if_pos hq,linksOf_setLinks (.inr hnode),hq]
    by_cases hid : id' = id
    · rw [if_pos hid,if_pos ⟨rfl,hid⟩]
    · rw [if_neg hid,if_neg fun h => hid h.2]
  · rw [if_neg hq,if_neg fun h => hq h.1]

theorem live_addLink (h : Linked x) {channel : ℤ} {r : κ} (hr : x.attached r = none) {q : σ}
    {id' : ρ} {l : Link κ} (hl : l ∈ links x q id') :
    live (addLink x p id channel r) q id' l = live x q id' l := by
  rw [Bool.eq_iff_iff,live_iff,live_iff]
  refine exists_congr fun r' => and_congr_right fun _ => ?_
  unfold addLink
  dsimp only
  rw [update_apply,update_apply]
  split_ifs with he
  · subst he
    have hlt := h.fresh q id' l hl
    simp only [Option.some.injEq,hr,reduceCtorEq,and_false,iff_false,not_and]
    omega
  · rfl

theorem count_addLink (h : Linked x) {channel : ℤ} {r : κ} (hr : x.attached r = none)
    (hnode : ∃ n ∈ x.nodes p, n.reactorId = id) (q : σ) (id' : ρ) (channel' : ℤ) :
    count (addLink x p id channel r) q id' channel' =
      count x q id' channel' + if (q = p ∧ id' = id) ∧ channel = channel' then 1 else 0 := by
  have hold : ∀ q id', (links x q id').countP (fun l =>
      l.channel = channel' && live (addLink x p id channel r) q id' l) = count x q id' channel' :=
    fun q id' => List.countP_congr fun l hl => by rw [live_addLink h hr hl]
  unfold count
  rw [links_addLink channel r hnode]
  by_cases hq : q = p ∧ id' = id
  · obtain ⟨rfl,rfl⟩ := hq
    have hnew : live (addLink x q id' channel r) q id' ⟨x.next,some r,channel⟩ = true :=
      live_iff.mpr ⟨r,rfl,update_self _ _ _,update_self _ _ _⟩
    rw [if_pos ⟨rfl,rfl⟩,List.countP_cons,hold q id',hnew]
    simp [count]
  · rw [if_neg hq,hold,if_neg fun h => hq h.1]
    rfl

/-- The reaction has its link. -/
theorem Linked.addLink (h : Linked x) (channel : ℤ) (r : κ)
    (hnode : ∃ n ∈ x.nodes p, n.reactorId = id) : Linked (addLink x p id channel r) := by
  have hlinks := links_addLink channel r hnode
  have hnew : (⟨x.next,some r,channel⟩ : Link κ) ∈
      links (FusionReactor.addLink x p id channel r) p id := by
    rw [hlinks,if_pos ⟨rfl,rfl⟩]
    exact List.mem_cons_self
  have hold : ∀ q id', ∀ l ∈ links x q id', l ∈ links (FusionReactor.addLink x p id channel r) q id' := by
    intro q id' l hl
    rw [hlinks]
    split_ifs with hq
    · obtain ⟨rfl,rfl⟩ := hq
      exact List.mem_cons_of_mem _ hl
    · exact hl
  have hcase : ∀ q id' l, l ∈ links (FusionReactor.addLink x p id channel r) q id' →
      l = ⟨x.next,some r,channel⟩ ∨ l ∈ links x q id' := by
    intro q id' l hl
    rw [hlinks] at hl
    split_ifs at hl with hq
    · obtain ⟨rfl,rfl⟩ := hq
      exact List.mem_cons.mp hl
    · exact .inr hl
  have hlink : ∀ r', (FusionReactor.addLink x p id channel r).nodeLink r' =
      if r' = r then some x.next else x.nodeLink r' := update_apply x.nodeLink r _
  have hattached : ∀ r', (FusionReactor.addLink x p id channel r).attached r' =
      if r' = r then some (p,id,channel) else x.attached r' := update_apply x.attached r _
  refine ⟨nodup_setLinks h,fun q id' l hl => ?_,fun q id' => ?_,fun q id' l hl => ?_,
    fun r' n hn => ?_,fun q id' l hl r' hr' => ?_,fun r' q id' channel' ha => ?_⟩
  · rcases hcase q id' l hl with rfl | hl
    · rfl
    · exact h.reaction q id' l hl
  · rw [hlinks]
    split_ifs
    · rw [List.map_cons,List.nodup_cons]
      refine ⟨fun hm => ?_,h.ids p id⟩
      obtain ⟨m,hm,he⟩ := List.mem_map.mp hm
      have := h.fresh p id m hm
      dsimp only at he
      omega
    · exact h.ids q id'
  · rcases hcase q id' l hl with rfl | hl
    · exact Nat.lt_succ_self _
    · exact (h.fresh q id' l hl).trans (Nat.lt_succ_self _)
  · rw [hlink] at hn
    split_ifs at hn
    · obtain rfl := Option.some.inj hn
      exact Nat.lt_succ_self _
    · exact (h.bound r' n hn).trans (Nat.lt_succ_self _)
  · rw [hlink] at hr'
    split_ifs at hr' with he <;> rcases hcase q id' l hl with rfl | hl
    · rw [he]
    · exact absurd (Option.some.inj hr') (h.fresh q id' l hl).ne'
    · exact absurd (h.bound r' _ hr') (lt_irrefl _)
    · exact h.own q id' l hl r' hr'
  · rw [hattached] at ha
    rw [hlink]
    split_ifs at ha ⊢ with he
    · simp only [Option.some.injEq,Prod.mk.injEq] at ha
      obtain ⟨rfl,rfl,rfl⟩ := ha
      exact ⟨_,hnew,by rw [he],rfl,rfl⟩
    · obtain ⟨l,hl,hrest⟩ := h.attached r' q id' channel' ha
      exact ⟨l,hold q id' l hl,hrest⟩

/-- The reaction that got its link is counted. -/
theorem Counted.addLink (h : Linked x) (hcounted : Counted x) {channel : ℤ} {r : κ}
    (hr : x.attached r = none) (hnode : ∃ n ∈ x.nodes p, n.reactorId = id)
    {ls : List (Listener σ)}
    (hself : ls.filter (·.is p channel) = entry p channel (count x p id channel+1))
    (hother : ∀ p' channel', (p',channel') ≠ (p,channel) → ls.filter (·.is p' channel') =
      (x.reactor id).listeners.filter (·.is p' channel')) :
    Counted (addLink (setListeners x id ls) p id channel r) := by
  intro q id' channel'
  have hcount : count (FusionReactor.addLink (setListeners x id ls) p id channel r) q id' channel' =
      count (FusionReactor.addLink x p id channel r) q id' channel' := rfl
  have hls : ((FusionReactor.addLink (setListeners x id ls) p id channel r).reactor id').listeners =
      if id' = id then ls else (x.reactor id').listeners := setListeners_listeners ls id'
  rw [hcount,hls,count_addLink h hr hnode]
  by_cases hid : id' = id
  · subst hid
    rw [if_pos rfl]
    by_cases he : (q,channel') = (p,channel)
    · obtain ⟨rfl,rfl⟩ := Prod.mk.inj he
      rw [hself,if_pos ⟨⟨rfl,rfl⟩,rfl⟩]
    · rw [hother q channel' he,hcounted,if_neg fun h => he (Prod.ext h.1.1 h.2.symm)]
      rfl
  · rw [if_neg hid,hcounted,if_neg fun h => hid h.1.2]
    rfl

section Remove
variable {y : State σ ρ κ} {l : Link κ} {r : κ} {channel : ℤ}

omit [DecidableEq κ] in
/-- One reaction is no longer live, where its link is left or not. -/
theorem count_others (h : Linked x) (hl : l ∈ links x p id) (hown : x.nodeLink r = some l.id)
    (hat : ∀ a ∈ x.attached r, a.1 = p ∧ a.2.1 = id)
    (hlive : ∀ q id' m, live y q id' m = true ↔ live x q id' m = true ∧ m.reaction ≠ some r)
    (hlinks : ∀ q id', links y q id' = links x q id' ∨ (q = p ∧ id' = id) ∧
      links y q id' = (links x q id').filter fun m => m.id ≠ l.id) (q : σ) (id' : ρ)
    (channel : ℤ) : count y q id' channel + (if (q = p ∧ id' = id) ∧ l.channel = channel ∧
      live x p id l then 1 else 0) = count x q id' channel := by
  have hlr : l.reaction = some r := h.own p id l hl r hown
  have hmine : ∀ m ∈ links x q id', live x q id' m = true → m.reaction = some r →
      (q = p ∧ id' = id) ∧ m = l := by
    intro m hm hm' hr
    obtain ⟨r',hr',hlink,ha⟩ := live_iff.mp hm'
    obtain rfl : r' = r := Option.some.inj (hr'.symm.trans hr)
    obtain ⟨rfl,rfl⟩ := hat _ ha
    exact ⟨⟨rfl,rfl⟩,List.inj_on_of_nodup_map (h.ids q id') hm hl
      (Option.some.inj (hlink.symm.trans hown))⟩
  by_cases hq : q = p ∧ id' = id
  · obtain ⟨rfl,rfl⟩ := hq
    have hrest : (links y q id').countP (fun m => m.channel = channel && live y q id' m) =
        ((links x q id').filter fun m => m.id ≠ l.id).countP
          (fun m => m.channel = channel && live x q id' m) := by
      have hdead : live y q id' l = false := by
        by_contra hd
        exact ((hlive q id' l).mp (by simpa using hd)).2 hlr
      have hkeep : ((links x q id').filter fun m => m.id ≠ l.id).countP
          (fun m => m.channel = channel && live y q id' m) =
          ((links x q id').filter fun m => m.id ≠ l.id).countP
          (fun m => m.channel = channel && live x q id' m) := by
        refine List.countP_congr fun m hm => ?_
        obtain ⟨hm,hne⟩ := List.mem_filter.mp hm
        rw [Bool.and_eq_true,Bool.and_eq_true,hlive]
        refine and_congr_right fun _ => and_iff_left_of_imp fun hm' hr => ?_
        rw [(hmine m hm hm' hr).2] at hne
        simp at hne
      rcases hlinks q id' with he | ⟨-,he⟩
      · rw [he,countP_remove (h.ids q id') hl,hdead,hkeep]
        simp
      · rw [he,hkeep]
    unfold count
    rw [hrest,countP_remove (h.ids q id') hl]
    simp
  · have hsame : links y q id' = links x q id' := by
      rcases hlinks q id' with he | ⟨hq',-⟩
      · exact he
      · exact absurd hq' hq
    rw [if_neg fun h => hq h.1,Nat.add_zero]
    unfold count
    rw [hsame]
    refine List.countP_congr fun m hm => ?_
    rw [Bool.and_eq_true,Bool.and_eq_true,hlive]
    exact and_congr_right fun _ => and_iff_left_of_imp fun hm' hr => hq (hmine m hm hm' hr).1

omit [DecidableEq κ] in
/-- The count of the one that is no longer live is dropped. -/
theorem Counted.drop (h : Counted x) (hlisteners : ∀ id', (y.reactor id').listeners =
      if id' = id then dropRef p channel (x.reactor id).listeners else (x.reactor id').listeners)
    (hcount : ∀ q id' channel', count y q id' channel' +
      (if (q = p ∧ id' = id) ∧ channel = channel' then 1 else 0) = count x q id' channel') :
    Counted y := by
  intro q id' channel'
  rw [hlisteners]
  split_ifs with hid
  · subst hid
    refine dropRef_counted (n := fun q => count x q id') (m := fun q => count y q id')
      (fun q c => h q id' c) ?_ ?_ q channel'
    · rw [← hcount p id' channel,if_pos ⟨⟨rfl,rfl⟩,rfl⟩]
    · intro p' channel'' hne
      rw [← hcount p' id' channel'',if_neg fun h => hne (Prod.ext h.1.1 h.2.symm)]
      rfl
  · rw [h,← hcount q id' channel',if_neg fun h => hid h.1.2]
    rfl

theorem remove_kept (h : Linked x) (hcounted : Counted x) (hl : l ∈ links x p id)
    (hr : l.reaction = some r) (hlive : live x p id l = true) :
    let y := setListeners {x with attached := update x.attached r none} id
      (dropRef p l.channel (x.reactor id).listeners)
    Linked y ∧ Counted y ∧ ∀ q id' m, live y q id' m = true ↔
      live x q id' m = true ∧ m.reaction ≠ some r := by
  intro y
  have hattached : ∀ r', y.attached r' = if r' = r then none else x.attached r' :=
    update_apply x.attached r none
  have hlive' : ∀ q id' m, live y q id' m = true ↔ live x q id' m = true ∧ m.reaction ≠ some r := by
    intro q id' m
    rw [live_iff,live_iff]
    constructor
    · rintro ⟨r',hr',hlink,ha⟩
      rw [hattached] at ha
      split_ifs at ha with he
      exact ⟨⟨r',hr',hlink,ha⟩,fun hm => he (Option.some.inj (hr'.symm.trans hm))⟩
    · rintro ⟨⟨r',hr',hlink,ha⟩,hne⟩
      refine ⟨r',hr',hlink,?_⟩
      rw [hattached,if_neg fun he : r' = r => hne (he ▸ hr')]
      exact ha
  refine ⟨⟨h.nodup,h.reaction,h.ids,h.fresh,h.bound,h.own,fun r' q id' channel ha => ?_⟩,?_,hlive'⟩
  · rw [hattached] at ha
    split_ifs at ha
    exact h.attached r' q id' channel ha
  · obtain ⟨r',hr',hlink,ha⟩ := live_iff.mp hlive
    obtain rfl : r' = r := Option.some.inj (hr'.symm.trans hr)
    refine hcounted.drop (setListeners_listeners _) fun q id' channel' => ?_
    have hcount := count_others h hl hlink (fun a ha' => by
      rw [ha] at ha'
      obtain rfl := Option.some.inj ha'
      exact ⟨rfl,rfl⟩) hlive' (fun _ _ => .inl rfl) q id' channel'
    simpa [hlive] using hcount

/-- What is left of `fusion_reactor_detach` once the node is locked. -/
def unlink (x : State σ ρ κ) (p : σ) (id : ρ) (r : κ) (link : ℕ) : State σ ρ κ :=
  {x with
    nodes := update x.nodes p (setLinks (x.nodes p) id fun l => l.filter fun l => l.id ≠ link)
    nodeLink := update x.nodeLink r none
    attached := update x.attached r none}

theorem links_unlink (link : ℕ) (q : σ) (id' : ρ) : links (unlink x p id r link) q id' =
    if q = p ∧ id' = id then (links x p id).filter (fun m => m.id ≠ link) else links x q id' := by
  unfold unlink links
  dsimp only
  rw [update_apply]
  by_cases hq : q = p
  · rw [if_pos hq,linksOf_setLinks (.inl rfl),hq]
    by_cases hid : id' = id
    · rw [if_pos hid,if_pos ⟨rfl,hid⟩]
    · rw [if_neg hid,if_neg fun h => hid h.2]
  · rw [if_neg hq,if_neg fun h => hq h.1]

theorem live_unlink (link : ℕ) (q : σ) (id' : ρ) (m : Link κ) :
    live (unlink x p id r link) q id' m = true ↔ live x q id' m = true ∧ m.reaction ≠ some r := by
  rw [live_iff,live_iff]
  unfold unlink
  dsimp only
  constructor
  · rintro ⟨r',hr',hlink,ha⟩
    rw [update_apply] at hlink ha
    split_ifs at hlink ha with he
    exact ⟨⟨r',hr',hlink,ha⟩,fun hm => he (Option.some.inj (hr'.symm.trans hm))⟩
  · rintro ⟨⟨r',hr',hlink,ha⟩,hne⟩
    have he : r' ≠ r := fun he => hne (he ▸ hr')
    refine ⟨r',hr',?_,?_⟩
    · rw [update_of_ne he]
      exact hlink
    · rw [update_of_ne he]
      exact ha

theorem Linked.unlink (h : Linked x) (hl : l ∈ links x p id) (hown : x.nodeLink r = some l.id) :
    Linked (unlink x p id r l.id) := by
  have hsub : ∀ q id', ∀ m ∈ links (FusionReactor.unlink x p id r l.id) q id', m ∈ links x q id' := by
    intro q id' m hm
    rw [links_unlink] at hm
    split_ifs at hm with hq
    · obtain ⟨rfl,rfl⟩ := hq
      exact (List.mem_filter.mp hm).1
    · exact hm
  have hlink : ∀ r', (FusionReactor.unlink x p id r l.id).nodeLink r' =
      if r' = r then none else x.nodeLink r' := update_apply x.nodeLink r none
  have hattached : ∀ r', (FusionReactor.unlink x p id r l.id).attached r' =
      if r' = r then none else x.attached r' := update_apply x.attached r none
  refine ⟨nodup_setLinks h,fun q id' m hm => h.reaction q id' m (hsub q id' m hm),fun q id' => ?_,
    fun q id' m hm => h.fresh q id' m (hsub q id' m hm),fun r' n hn => ?_,
    fun q id' m hm r' hr' => ?_,fun r' q id' channel ha => ?_⟩
  · rw [links_unlink]
    split_ifs
    · exact (h.ids p id).sublist (List.filter_sublist.map _)
    · exact h.ids q id'
  · rw [hlink] at hn
    split_ifs at hn
    exact h.bound r' n hn
  · rw [hlink] at hr'
    split_ifs at hr'
    exact h.own q id' m (hsub q id' m hm) r' hr'
  · rw [hattached] at ha
    split_ifs at ha with he
    obtain ⟨m,hm,hr',hchannel,hown'⟩ := h.attached r' q id' channel ha
    refine ⟨m,?_,hr',hchannel,by rw [hlink,if_neg he,hown']⟩
    rw [links_unlink]
    split_ifs with hq
    · obtain ⟨rfl,rfl⟩ := hq
      refine List.mem_filter.mpr ⟨hm,?_⟩
      -- the link that is removed is that of the other reaction
      have hne : m.id ≠ l.id := fun hid => he (Option.some.inj (hr'.symm.trans
        (h.own q id' m hm r (hid ▸ hown))))
      simpa using hne
    · exact hm

/-- A reaction that removed itself leaves with no count, where there is none. -/
theorem Counted.unlink (h : Linked x) (hcounted : Counted x) (hl : l ∈ links x p id)
    (hown : x.nodeLink r = some l.id) (hat : ∀ a ∈ x.attached r, a.1 = p ∧ a.2.1 = id) {stale : ℤ}
    (hstale : if live x p id l then stale = l.channel
      else ∀ listener ∈ (x.reactor id).listeners, ¬ listener.is p stale) :
    Counted (setListeners (unlink x p id r l.id) id (dropRef p stale (x.reactor id).listeners)) := by
  have hcount := count_others (y := FusionReactor.unlink x p id r l.id) h hl hown hat
    (live_unlink l.id) fun q id' => by
      rw [links_unlink]
      split_ifs with hq
      · obtain ⟨rfl,rfl⟩ := hq
        exact .inr ⟨⟨rfl,rfl⟩,rfl⟩
      · exact .inl rfl
  cases hlive : live x p id l with
  | true =>
    rw [hlive,if_pos rfl] at hstale
    subst hstale
    refine hcounted.drop (setListeners_listeners _) fun q id' channel' => ?_
    have hdrop : count (FusionReactor.unlink x p id r l.id) q id' channel' +
        (if (q = p ∧ id' = id) ∧ l.channel = channel' then 1 else 0) = count x q id' channel' := by
      simpa [hlive] using hcount q id' channel'
    exact hdrop
  | false =>
    simp only [hlive,Bool.false_eq_true,if_false] at hstale
    intro q id' channel'
    rw [setListeners_listeners,dropRef_absent hstale]
    have hsame : count (FusionReactor.unlink x p id r l.id) q id' channel' = count x q id' channel' := by
      simpa [hlive] using hcount q id' channel'
    have hreactor : (if id' = id then (x.reactor id).listeners
        else ((FusionReactor.unlink x p id r l.id).reactor id').listeners) =
        (x.reactor id').listeners := by
      split_ifs with hid
      · rw [hid]
      · rfl
    rw [hreactor,hcounted,← hsame]
    rfl

end Remove

def reactions (x : State σ ρ κ) (p : σ) (id : ρ) (channel : ℤ) : List κ :=
  ((links x p id).filter fun l => l.channel = channel && live x p id l).filterMap Link.reaction

omit [DecidableEq κ] in
theorem reactions_spec (h : Linked x) (p : σ) (id : ρ) (channel : ℤ) : (reactions x p id channel).Nodup ∧
    (∀ r, r ∈ reactions x p id channel ↔ x.attached r = some (p,id,channel)) ∧
    (reactions x p id channel).length = count x p id channel := by
  have hmem : ∀ l ∈ (links x p id).filter (fun l => l.channel = channel && live x p id l),
      l ∈ links x p id ∧ l.channel = channel ∧ live x p id l = true := by
    intro l hl
    obtain ⟨hl,hc⟩ := List.mem_filter.mp hl
    simp only [Bool.and_eq_true,decide_eq_true_eq] at hc
    exact ⟨hl,hc⟩
  refine ⟨?_,fun r => ⟨fun hr => ?_,fun ha => ?_⟩,?_⟩
  · refine List.pairwise_filterMap.mpr (List.Pairwise.imp_of_mem ?_
      ((List.Nodup.of_map _ (h.ids p id)).filter _))
    intro l m hl hm hne r hlr r' hmr he
    subst he
    obtain ⟨hl,-,hlive⟩ := hmem l hl
    obtain ⟨hm,-,hlive'⟩ := hmem m hm
    exact hne (h.live_unique hl hm hlive hlive' (hlr.trans hmr.symm)).2.2.symm
  · obtain ⟨l,hl,hlr⟩ := List.mem_filterMap.mp hr
    obtain ⟨hl,rfl,hlive⟩ := hmem l hl
    obtain ⟨r',hr',-,ha⟩ := live_iff.mp hlive
    rw [hlr] at hr'
    exact Option.some.inj hr' ▸ ha
  · obtain ⟨l,hl,hlr,hchannel,hown⟩ := h.attached r p id channel ha
    refine List.mem_filterMap.mpr ⟨l,List.mem_filter.mpr ⟨hl,?_⟩,hlr⟩
    have hlive : live x p id l = true := live_iff.mpr ⟨r,hlr,hown,hchannel ▸ ha⟩
    simp [hchannel,hlive]
  · unfold reactions count
    rw [List.countP_eq_length_filter]
    exact List.filterMap_length_eq_length.mpr fun l hl => h.reaction p id l (hmem l hl).1

theorem react_kept (h : Linked x) (hcounted : Counted x) (hfree : (x.reactor id).locked = false)
    {channel : ℤ} (remove : κ → Bool) {l : Link κ} (hl : l ∈ links x p id)
    (hlive : l.channel = channel → live x p id l = true) :
    let y := react p id channel remove x l
    Linked y ∧ Counted y ∧ (y.nodes = x.nodes ∧ y.nodesLocked = x.nodesLocked ∧
      ∀ id', (y.reactor id').locked = (x.reactor id').locked) ∧
    (∀ m ∈ links x p id, m ≠ l → live x p id m = true → live y p id m = true) ∧
    y.called = x.called++(if l.channel = channel then l.reaction.toList else []) := by
  intro y
  have hy : y = react p id channel remove x l := rfl
  unfold react at hy
  by_cases hchannel : l.channel = channel
  · obtain ⟨r,hr,hlink,ha⟩ := live_iff.mp (hlive hchannel)
    rw [if_neg (not_not_intro hchannel),hr] at hy
    dsimp only at hy
    rw [if_pos hchannel,hr]
    split_ifs at hy
    · rw [prevail_listeners,listeners_exclusive (x := {x with
        attached := update x.attached r none, called := x.called++[r]}) hfree] at hy
      obtain ⟨hlinked,hcount,hrest⟩ := remove_kept h hcounted hl hr (hlive hchannel)
      rw [hchannel] at hlinked hcount hrest
      have hlinked' : Linked y := by
        rw [hy]
        exact hlinked.congr hlinked.nodup (fun _ _ => rfl) rfl rfl rfl
      refine ⟨hlinked',?_,?_,fun m hm hne hm' => ?_,?_⟩
      · rw [hy]
        exact hcount
      · rw [hy]
        refine ⟨rfl,rfl,fun id' => ?_⟩
        unfold setListeners
        dsimp only
        rw [update_apply]
        split_ifs with hid
        · rw [hid]
        · rfl
      · have hm'' : m.reaction ≠ some r := fun he => hne
          (h.live_unique hl hm (hlive hchannel) hm' (hr.trans he.symm)).2.2
        rw [hy]
        exact (hrest p id m).mpr ⟨hm',hm''⟩
      · rw [hy]
        rfl
    · rw [hy]
      exact ⟨h.congr h.nodup (fun _ _ => rfl) rfl rfl rfl,hcounted,⟨rfl,rfl,fun _ => rfl⟩,
        fun m _ _ hm => hm,rfl⟩
  · rw [if_pos hchannel] at hy
    rw [hy,if_neg hchannel,List.append_nil]
    exact ⟨h,hcounted,⟨rfl,rfl,fun _ => rfl⟩,fun m _ _ hm => hm,rfl⟩

theorem react_loop (channel : ℤ) (remove : κ → Bool) (ls : List (Link κ)) (h : Linked x)
    (hcounted : Counted x) (hfree : (x.reactor id).locked = false) (hnodup : ls.Nodup)
    (hls : ∀ l ∈ ls, l ∈ links x p id ∧ (l.channel = channel → live x p id l = true)) :
    let y := ls.foldl (react p id channel remove) x
    Linked y ∧ Counted y ∧ (y.nodes = x.nodes ∧ y.nodesLocked = x.nodesLocked ∧
      ∀ id', (y.reactor id').locked = (x.reactor id').locked) ∧
    y.called = x.called++(ls.filter fun l => l.channel = channel).filterMap Link.reaction := by
  induction ls generalizing x with
  | nil => exact ⟨h,hcounted,⟨rfl,rfl,fun _ => rfl⟩,(List.append_nil _).symm⟩
  | cons l rest ih =>
    rw [List.nodup_cons] at hnodup
    obtain ⟨hl,hlive⟩ := hls l List.mem_cons_self
    obtain ⟨hlinked,hcount,⟨hnodes,hmutex,hlocks⟩,hkeep,hcalled⟩ :=
      react_kept h hcounted hfree remove hl hlive
    have hlinks : links (react p id channel remove x l) p id = links x p id := by
      unfold links
      rw [hnodes]
    obtain ⟨hlinked',hcount',⟨hnodes',hmutex',hlocks'⟩,hcalled'⟩ := ih hlinked hcount
      ((hlocks id).trans hfree) hnodup.2 fun m hm => by
        obtain ⟨hm',hlive'⟩ := hls m (List.mem_cons_of_mem _ hm)
        have hne : m ≠ l := fun he => hnodup.1 (he ▸ hm)
        exact ⟨hlinks ▸ hm',fun hchannel => hkeep m hm' hne (hlive' hchannel)⟩
    rw [List.foldl_cons]
    refine ⟨hlinked',hcount',⟨hnodes'.trans hnodes,hmutex'.trans hmutex,
      fun id' => (hlocks' id').trans (hlocks id')⟩,?_⟩
    rw [hcalled',hcalled,List.append_assoc]
    by_cases hchannel : l.channel = channel
    · rw [List.filter_cons_of_pos (by simpa using hchannel),if_pos hchannel,List.filterMap_cons]
      cases l.reaction <;> rfl
    · rw [List.filter_cons_of_neg (by simpa using hchannel),if_neg hchannel]
      rfl

/-- A message calls the reactions that are attached, each once. -/
theorem processMessage_kept (p : σ) (id : ρ) (h : Linked x) (hcounted : Counted x) (hidle : Idle x) {channel : ℤ}
    (remove : κ → Bool)
    (hlive : ∀ l ∈ links x p id, l.channel = channel → live x p id l = true) :
    let y := processMessage x p id channel remove
    Linked y ∧ Counted y ∧ Idle y ∧ y.called = x.called++reactions x p id channel := by
  have hcalled : ((links x p id).filter fun l => l.channel = channel).filterMap Link.reaction =
      reactions x p id channel := by
    unfold reactions
    congr 1
    refine List.filter_congr fun l hl => ?_
    by_cases hchannel : l.channel = channel
    · rw [hlive l hl hchannel,Bool.and_true]
    · simp [hchannel]
  have hlinks := links_afterLock h hidle p id false false false
  have hlinked := h.afterLock hidle p id false false false
  obtain ⟨hnone,hsome⟩ := afterLock_locks h hidle p id false false false (by simp)
  unfold processMessage
  dsimp only
  cases hf : (lockNode (x.nodes p) id false false false).found with
  | false =>
    obtain ⟨hidle',hnil⟩ := hnone hf
    refine ⟨hlinked,?_,hidle',?_⟩
    · intro q id' channel'
      have := hcounted q id' channel'
      rwa [← count_congr hlinks rfl rfl] at this
    · rw [← hcalled,hnil]
      exact (List.append_nil _).symm
  | true =>
    obtain ⟨hhold,-⟩ := hsome hf
    have hcounted' : Counted (afterLock x p (lockNode (x.nodes p) id false false false)) := by
      intro q id' channel'
      have := hcounted q id' channel'
      rwa [← count_congr hlinks rfl rfl] at this
    obtain ⟨hlinked',hcount',⟨hnodes,hmutex,hlocks⟩,hcalled'⟩ := react_loop channel remove
      (links (afterLock x p (lockNode (x.nodes p) id false false false)) p id) hlinked hcounted'
      (hidle.listeners id) (List.Nodup.of_map _ (hlinked.ids p id)) fun l hl =>
        ⟨hl,fun hchannel => hlive l (hlinks p id ▸ hl) hchannel⟩
    simp only [Bool.not_true,Bool.false_eq_true,if_false]
    have hold : Holding ((links (afterLock x p (lockNode (x.nodes p) id false false false)) p id).foldl
        (react p id channel remove) (afterLock x p (lockNode (x.nodes p) id false false false))) p id :=
      ⟨fun q n hn => hhold.node q n (hnodes ▸ hn),fun q => hmutex ▸ hhold.mutex q,
        fun id' => (hlocks id').trans (hhold.listeners id')⟩
    refine ⟨hlinked'.unlock p id,?_,hold.unlock,?_⟩
    · intro q id' channel'
      have := hcount' q id' channel'
      rwa [← count_congr links_unlock rfl rfl] at this
    · rw [← hcalled,← hlinks p id]
      exact hcalled'

omit [DecidableEq κ] in
theorem Counted.of_links {y : State σ ρ κ} (h : Counted x)
    (hlinks : ∀ q id', links y q id' = links x q id') (hlink : y.nodeLink = x.nodeLink)
    (hattached : y.attached = x.attached)
    (hlisteners : ∀ id', (y.reactor id').listeners = (x.reactor id').listeners) : Counted y := by
  intro q id' channel
  rw [hlisteners,count_congr hlinks hlink hattached]
  exact h q id' channel

/-- With the link the node is unlocked. -/
theorem addLink_unlock (h : Linked x) (hcounted : Counted x) (hhold : Holding x p id)
    {channel : ℤ} {r : κ} (hr : x.attached r = none) (hnode : ∃ n ∈ x.nodes p, n.reactorId = id)
    {ls : List (Listener σ)}
    (hself : ls.filter (·.is p channel) = entry p channel (count x p id channel+1))
    (hother : ∀ p' channel', (p',channel') ≠ (p,channel) → ls.filter (·.is p' channel') =
      (x.reactor id).listeners.filter (·.is p' channel')) :
    let y := unlock (addLink (setListeners x id ls) p id channel r) p id
    Linked y ∧ Counted y ∧ Idle y := by
  have hset : Linked (setListeners x id ls) := h.congr h.nodup (fun _ _ => rfl) rfl rfl rfl
  refine ⟨(hset.addLink channel r hnode).unlock p id,
    (hcounted.addLink h hr hnode hself hother).of_links links_unlock rfl rfl fun _ => rfl,?_⟩
  have hhold' : Holding (setListeners x id ls) p id :=
    ⟨hhold.node,hhold.mutex,setListeners_locked ls hhold.listeners⟩
  have hlink : Holding (addLink (setListeners x id ls) p id channel r) p id :=
    ⟨(hhold'.setLinks (f := fun l => ⟨x.next,some r,channel⟩::l)).node,hhold'.mutex,
      hhold'.listeners⟩
  exact hlink.unlock

theorem attachChannel_kept (h : Linked x) (hcounted : Counted x) (hidle : Idle x) {channel : ℤ}
    {r : κ} (hr : x.attached r = none) (memory : Memory)
    (hmemory : memory.link → memory.node ∨ ∃ n ∈ x.nodes p, n.reactorId = id) :
    let y := attachChannel x p id channel r memory
    Linked y ∧ Counted y ∧ Idle y := by
  intro y
  have hy : y = attachChannel x p id channel r memory := rfl
  unfold attachChannel at hy
  cases hm : memory.link with
  | false =>
    rw [hm] at hy
    simp only [Bool.not_false,if_true] at hy
    rw [hy]
    exact ⟨h,hcounted,hidle⟩
  | true =>
    have hlinks := links_afterLock h hidle p id true true memory.node
    have hlinked := h.afterLock hidle p id true true memory.node
    obtain ⟨hnone,hsome⟩ := afterLock_locks h hidle p id true true memory.node fun _ => hmemory hm
    have hcounted' : Counted (afterLock x p (lockNode (x.nodes p) id true true memory.node)) :=
      hcounted.of_links hlinks rfl rfl fun _ => rfl
    rw [hm] at hy
    simp only [Bool.not_true,Bool.false_eq_true,if_false] at hy
    cases hf : (lockNode (x.nodes p) id true true memory.node).found with
    | false =>
      rw [hf] at hy
      rw [hy]
      exact ⟨hlinked,hcounted',(hnone hf).1⟩
    | true =>
      obtain ⟨hhold,hnode⟩ := hsome hf
      rw [hf] at hy
      simp only [Bool.not_true,Bool.false_eq_true,if_false] at hy
      have hnode' : ∃ n ∈ (afterLock x p (lockNode (x.nodes p) id true true memory.node)).nodes p,
          n.reactorId = id := by
        unfold afterLock
        dsimp only
        rw [update_self]
        exact hnode
      have hr' : (afterLock x p (lockNode (x.nodes p) id true true memory.node)).attached r =
        none := hr
      generalize afterLock x p (lockNode (x.nodes p) id true true memory.node) = z at *
      rw [prevail_listeners] at hy
      have hadd := filter_addRef (hcounted' p id channel)
      cases ha : addRef p channel (z.reactor id).listeners with
      | some ls =>
        rw [ha] at hadd hy
        dsimp only at hy
        rw [listeners_exclusive (hhold.listeners id)] at hy
        rw [hy]
        exact addLink_unlock hlinked hcounted' hhold hr' hnode' hadd.1 hadd.2
      | none =>
        rw [ha] at hadd hy
        dsimp only at hadd hy
        have habsent : (z.reactor id).listeners.filter (·.is p channel) = [] := by
          rw [hcounted',hadd,entry_zero]
        cases hl : memory.listener with
        | false =>
          rw [hl] at hy
          simp only [Bool.not_false,if_true] at hy
          rw [dismiss_prevail (hhold.listeners id)] at hy
          rw [hy]
          exact ⟨hlinked.unlock p id,hcounted'.of_links links_unlock rfl rfl fun _ => rfl,
            hhold.unlock⟩
        | true =>
          rw [hl] at hy
          simp only [Bool.not_true,Bool.false_eq_true,if_false] at hy
          rw [listeners_exclusive (hhold.listeners id)] at hy
          rw [hy]
          refine addLink_unlock hlinked hcounted' hhold hr' hnode' ?_ fun p' channel' hne => ?_
          · rw [filter_append_new habsent,if_pos rfl,hadd]
          · rw [filter_append_new habsent,if_neg hne]

/-- A detached reaction takes its count, if it has one. -/
theorem detach_kept (h : Linked x) (hcounted : Counted x) (hidle : Idle x) {r : κ} {stale : ℤ}
    (hat : ∀ a ∈ x.attached r, a.1 = p ∧ a.2.1 = id)
    (hstale : ∀ l ∈ links x p id, x.nodeLink r = some l.id → if live x p id l then stale = l.channel
      else ∀ listener ∈ (x.reactor id).listeners, ¬ listener.is p stale) {y : State σ ρ κ}
    (hy : detach x p id r stale = some y) : Linked y ∧ Counted y ∧ Idle y ∧
      (x.attached r = none → ∀ id', (y.reactor id').listeners = (x.reactor id').listeners) := by
  have hlinks := links_afterLock h hidle p id false true false
  have hlinked := h.afterLock hidle p id false true false
  obtain ⟨hnone,hsome⟩ := afterLock_locks h hidle p id false true false (by simp)
  have hcounted' : Counted (afterLock x p (lockNode (x.nodes p) id false true false)) :=
    hcounted.of_links hlinks rfl rfl fun _ => rfl
  have hat' : ∀ a ∈ (afterLock x p (lockNode (x.nodes p) id false true false)).attached r,
      a.1 = p ∧ a.2.1 = id := hat
  have hstale' : ∀ l ∈ links (afterLock x p (lockNode (x.nodes p) id false true false)) p id,
      (afterLock x p (lockNode (x.nodes p) id false true false)).nodeLink r = some l.id →
      if live (afterLock x p (lockNode (x.nodes p) id false true false)) p id l then
        stale = l.channel
      else ∀ listener ∈ ((afterLock x p (lockNode (x.nodes p) id false true false)).reactor
        id).listeners, ¬ listener.is p stale := fun l hl => hstale l (hlinks p id ▸ hl)
  have hreactor : x.reactor = (afterLock x p (lockNode (x.nodes p) id false true false)).reactor :=
    rfl
  have hsame : x.attached = (afterLock x p (lockNode (x.nodes p) id false true false)).attached := rfl
  unfold detach at hy
  dsimp only at hy
  rw [hsame] at hy ⊢
  rw [hreactor]
  generalize lockNode (x.nodes p) id false true false = lock at *
  generalize afterLock x p lock = z at *
  -- a reaction without a link was not attached
  have hunattached : (∀ l ∈ links z p id, z.nodeLink r ≠ some l.id) →
      {z with attached := update z.attached r none} = z := by
    intro hno
    have hr : z.attached r = none := by
      by_contra ha
      obtain ⟨⟨q,id',channel⟩,ha⟩ := Option.ne_none_iff_exists'.mp ha
      obtain ⟨rfl,rfl⟩ := hat' _ ha
      obtain ⟨l,hl,-,-,hown⟩ := hlinked.attached r q id' channel ha
      exact hno l hl hown
    rw [← hr,update_eq_self]
  cases hf : lock.found with
  | false =>
    obtain ⟨hidle',hnil⟩ := hnone hf
    rw [hf] at hy
    simp only [Bool.not_false,if_true,Option.some.injEq] at hy
    rw [hunattached fun l hl => by
      rw [hlinks,hnil] at hl
      cases hl] at hy
    rw [← hy]
    exact ⟨hlinked,hcounted',hidle',fun _ _ => rfl⟩
  | true =>
    obtain ⟨hhold,-⟩ := hsome hf
    rw [hf] at hy
    simp only [Bool.not_true,Bool.false_eq_true,if_false] at hy
    cases hl : z.nodeLink r with
    | none =>
      rw [hl] at hy
      dsimp only at hy
      rw [hunattached fun l _ => by
        rw [hl]
        simp] at hy
      obtain rfl := Option.some.inj hy
      exact ⟨hlinked.unlock p id,hcounted'.of_links links_unlock rfl rfl fun _ => rfl,
        hhold.unlock,fun _ _ => rfl⟩
    | some link =>
      rw [hl] at hy
      dsimp only at hy
      split_ifs at hy with hany
      obtain ⟨l,hmem,hid⟩ := List.any_eq_true.mp hany
      obtain rfl : l.id = link := by simpa using hid
      change some (unlock (dismiss (setListeners (prevail (unlink z p id r l.id) id) id
        (dropRef p stale ((prevail (unlink z p id r l.id) id).reactor id).listeners)) id) p id) =
        some y at hy
      rw [prevail_listeners,listeners_exclusive (x := unlink z p id r l.id)
        (hhold.listeners id)] at hy
      obtain rfl := Option.some.inj hy
      have hcount := hcounted'.unlink hlinked hmem hl hat' (hstale' l hmem hl)
      have hlinked' : Linked (setListeners (unlink z p id r l.id) id
          (dropRef p stale (z.reactor id).listeners)) :=
        (hlinked.unlink hmem hl).congr (hlinked.unlink hmem hl).nodup (fun _ _ => rfl) rfl rfl rfl
      have hhold' : Holding (setListeners (unlink z p id r l.id) id
          (dropRef p stale (z.reactor id).listeners)) p id :=
        ⟨(hhold.setLinks (f := fun ls => ls.filter fun m => m.id ≠ l.id)).node,hhold.mutex,
          setListeners_locked _ hhold.listeners⟩
      refine ⟨hlinked'.unlock p id,hcount.of_links links_unlock rfl rfl fun _ => rfl,
        hhold'.unlock,fun ha id' => ?_⟩
      have hdead : live z p id l ≠ true := by
        intro hlive
        obtain ⟨r',hr',-,ha'⟩ := live_iff.mp hlive
        obtain rfl : r' = r := Option.some.inj (hr'.symm.trans (hlinked.own p id l hmem r hl))
        rw [ha] at ha'
        cases ha'
      have habsent := hstale' l hmem hl
      rw [if_neg hdead] at habsent
      change ((setListeners (unlink z p id r l.id) id (dropRef p stale
        (z.reactor id).listeners)).reactor id').listeners = (z.reactor id').listeners
      rw [setListeners_listeners,dropRef_absent habsent]
      split_ifs with hid
      · rw [hid]
      · rfl

omit [DecidableEq κ] in
theorem send_exclusive (hfree : (x.reactor id).locked = false) (channel : ℤ) (self : Bool) :
    dismiss (send (prevail x id) p id channel self) id = send x p id channel self := by
  unfold send
  dsimp only
  rw [prevail_listeners]
  unfold dismiss prevail
  dsimp only
  simp only [update_self,update_idem]
  rw [← hfree,update_eq_self]

theorem dispatchChannel_kept (h : Linked x) (hcounted : Counted x) (hidle : Idle x) {channel : ℤ}
    {self : Bool} (remove : κ → Bool) (hlive : self ∧ (x.reactor id).direct →
      ∀ l ∈ links x p id, l.channel = channel → live x p id l = true) :
    let y := dispatchChannel x p id channel self remove
    Linked y ∧ Counted y ∧ Idle y ∧ y.called = x.called++
      if self && (x.reactor id).direct then reactions x p id channel else [] := by
  intro y
  have hy : y = dispatchChannel x p id channel self remove := rfl
  have hsend : ∀ (z : State σ ρ κ) (self : Bool), Linked z ∧ Counted z ∧ Idle z →
      let w := dismiss (send (prevail z id) p id channel self) id
      Linked w ∧ Counted w ∧ Idle w ∧ w.called = z.called := by
    intro z self ⟨hlinked,hcount,hidle'⟩
    rw [send_exclusive (hidle'.listeners id)]
    exact ⟨hlinked.congr hlinked.nodup (fun _ _ => rfl) rfl rfl rfl,hcount,
      ⟨hidle'.node,hidle'.mutex,hidle'.listeners⟩,rfl⟩
  unfold dispatchChannel at hy
  dsimp only at hy
  cases hin : self && (x.reactor id).direct with
  | false =>
    rw [hin] at hy
    simp only [Bool.false_eq_true,if_false] at hy ⊢
    rw [hy,List.append_nil]
    exact hsend x _ ⟨h,hcounted,hidle⟩
  | true =>
    rw [hin] at hy
    simp only [if_true] at hy ⊢
    obtain ⟨hlinked,hcount,hidle',hcalled⟩ := processMessage_kept p id h hcounted
      hidle remove (hlive (by simpa using hin))
    obtain ⟨hl,hc,hi,hcalled'⟩ := hsend _ (self && !true) ⟨hlinked,hcount,hidle'⟩
    rw [hy]
    exact ⟨hl,hc,hi,hcalled'.trans hcalled⟩

theorem step_kept (h : Linked x) (hcounted : Counted x) (hidle : Idle x) {e : Event σ ρ κ}
    (hkept : Kept x e) {y : State σ ρ κ} (hy : step x e = some y) :
    Linked y ∧ Counted y ∧ Idle y := by
  cases e with
  | attach p id channel r memory =>
    unfold step at hy
    dsimp only at hy
    split_ifs at hy with hguard
    obtain rfl := Option.some.inj hy
    exact attachChannel_kept h hcounted hidle hguard.1 memory hkept
  | detach p id r stale =>
    unfold step at hy
    dsimp only at hy
    split_ifs at hy with hguard
    obtain ⟨hl,hc,hi,-⟩ := detach_kept h hcounted hidle hguard.1 hkept hy
    exact ⟨hl,hc,hi⟩
  | dispatch p id channel self remove =>
    unfold step at hy
    dsimp only at hy
    split_ifs at hy
    obtain rfl := Option.some.inj hy
    obtain ⟨hl,hc,hi,-⟩ := dispatchChannel_kept h hcounted hidle remove hkept
    exact ⟨hl,hc,hi⟩
  | deliver p remove =>
    unfold step at hy
    dsimp only at hy
    split at hy
    · cases hy
    · rename_i id channel rest hwire
      split_ifs at hy
      obtain rfl := Option.some.inj hy
      have hlinked : Linked {x with wire := update x.wire p rest} :=
        h.congr h.nodup (fun _ _ => rfl) rfl rfl rfl
      obtain ⟨hl,hc,hi,-⟩ := processMessage_kept p id hlinked hcounted
        ⟨hidle.node,hidle.mutex,hidle.listeners⟩ remove (hkept id channel rest hwire)
      exact ⟨hl,hc,hi⟩

omit [DecidableEq κ] in
theorem init_kept (h : init x) : Linked x ∧ Counted x ∧ Idle x := by
  obtain ⟨hreactor,hprocess,hreaction,-⟩ := h
  have hlinks : ∀ q id', links x q id' = [] := fun q id' => by
    unfold links
    rw [(hprocess q).1]
    rfl
  refine ⟨⟨fun q => ?_,fun q id' l hl => ?_,fun q id' => ?_,fun q id' l hl => ?_,
    fun r n hn => ?_,fun q id' l hl => ?_,fun r q id' channel ha => ?_⟩,fun q id' channel => ?_,
    ⟨fun q n hn => ?_,fun q => (hprocess q).2.1,fun id' => (hreactor id').2⟩⟩
  · rw [(hprocess q).1]
    exact List.nodup_nil
  · rw [hlinks] at hl
    cases hl
  · rw [hlinks]
    exact List.nodup_nil
  · rw [hlinks] at hl
    cases hl
  · rw [(hreaction r).1] at hn
    cases hn
  · rw [hlinks] at hl
    cases hl
  · rw [(hreaction r).2] at ha
    cases ha
  · rw [(hreactor id').1]
    unfold count
    rw [hlinks]
    rfl
  · rw [(hprocess q).1] at hn
    cases hn

/-- In every state reached a process has a listener on a channel where it attached reactions,
with their number, and no lock is held. A message calls these reactions, each once, and with
a reaction that removed itself no count goes. -/
theorem reactions_counted (h : Reaches step Kept init x) :
    (∀ p id channel, ∃ rs : List κ, rs.Nodup ∧ (∀ r, r ∈ rs ↔ x.attached r = some (p,id,channel)) ∧
      (x.reactor id).listeners.filter (·.is p channel) = entry p channel rs.length) ∧
    Idle x ∧
    (∀ p remove y, Kept x (.deliver p remove) → step x (.deliver p remove) = some y →
      ∃ id channel rest rs, x.wire p = (id,channel)::rest ∧ y.called = x.called++rs ∧ rs.Nodup ∧
        ∀ r, r ∈ rs ↔ x.attached r = some (p,id,channel)) ∧
    (∀ p id channel self remove y, Kept x (.dispatch p id channel self remove) →
      step x (.dispatch p id channel self remove) = some y →
      ∃ rs, y.called = x.called++rs ∧ rs.Nodup ∧ ∀ r, r ∈ rs ↔
        x.attached r = some (p,id,channel) ∧ self = true ∧ (x.reactor id).direct = true) ∧
    (∀ p id r stale y, Kept x (.detach p id r stale) → x.attached r = none →
      step x (.detach p id r stale) = some y →
        ∀ id', (y.reactor id').listeners = (x.reactor id').listeners) := by
  obtain ⟨hlinked,hcounted,hidle⟩ := h.invariant
    (fun x : State σ ρ κ => Linked x ∧ Counted x ∧ Idle x) (fun _ hi => init_kept hi)
    fun _ _ _ hi hk hs => step_kept hi.1 hi.2.1 hi.2.2 hk hs
  refine ⟨fun p id channel => ?_,hidle,fun p remove y hk hs => ?_,
    fun p id channel self remove y hk hs => ?_,fun p id r stale y hk ha hs => ?_⟩
  · obtain ⟨hnodup,hmem,hlength⟩ := reactions_spec hlinked p id channel
    exact ⟨_,hnodup,hmem,hlength ▸ hcounted p id channel⟩
  · unfold step at hs
    dsimp only at hs
    split at hs
    · cases hs
    · rename_i id channel rest hwire
      split_ifs at hs
      obtain rfl := Option.some.inj hs
      have hlinked' : Linked {x with wire := update x.wire p rest} :=
        hlinked.congr hlinked.nodup (fun _ _ => rfl) rfl rfl rfl
      obtain ⟨-,-,-,hcalled⟩ := processMessage_kept p id hlinked' hcounted
        ⟨hidle.node,hidle.mutex,hidle.listeners⟩ remove (hk id channel rest hwire)
      obtain ⟨hnodup,hmem,-⟩ := reactions_spec hlinked p id channel
      exact ⟨id,channel,rest,_,hwire,hcalled,hnodup,hmem⟩
  · unfold step at hs
    dsimp only at hs
    split_ifs at hs
    obtain rfl := Option.some.inj hs
    obtain ⟨-,-,-,hcalled⟩ := dispatchChannel_kept hlinked hcounted hidle remove hk
    obtain ⟨hnodup,hmem,-⟩ := reactions_spec hlinked p id channel
    refine ⟨_,hcalled,?_,fun r => ?_⟩
    · split_ifs
      · exact hnodup
      · exact List.nodup_nil
    · split_ifs with hin
      · rw [Bool.and_eq_true] at hin
        rw [hmem]
        exact ⟨fun ha => ⟨ha,hin⟩,fun ha => ha.1⟩
      · rw [Bool.and_eq_true] at hin
        exact ⟨fun hr => absurd hr List.not_mem_nil,fun ha => absurd ha.2 hin⟩
  · unfold step at hs
    dsimp only at hs
    split_ifs at hs with hguard
    exact (detach_kept hlinked hcounted hidle hguard.1 hk hs).2.2.2 ha

end Changes

def start : State Unit Unit Bool :=
  ⟨fun _ => ⟨[],false,false⟩,fun _ => [],fun _ => false,fun _ => none,0,fun _ => [],
    fun _ => none,[]⟩

theorem init_start : init start :=
  ⟨fun _ => ⟨rfl,rfl⟩,fun _ => ⟨rfl,rfl,rfl⟩,fun _ => ⟨rfl,rfl⟩,rfl⟩

/-- Two reactions are attached, and called by a message. -/
theorem two_reactions_counted : ∃ x : State Unit Unit Bool, Reaches step Kept init x ∧
    (x.called = [true,false] ∧ x.attached true = none) ∧ Idle x ∧ ∃ rs : List Bool, rs.Nodup ∧
      (∀ r, r ∈ rs ↔ x.attached r = some ((),(),0)) ∧
      (x.reactor ()).listeners.filter (·.is () 0) = entry () 0 rs.length := by
  have h0 : Reaches step Kept init start := .init init_start
  have h1 := h0.step (Event.attach () () 0 false ⟨true,true,true⟩) (fun _ => .inl rfl) rfl
  have h2 := h1.step (Event.attach () () 0 true ⟨true,true,true⟩) (fun _ => .inl rfl) rfl
  have h3 := h2.step (Event.dispatch () () 0 true fun _ => false) (fun h => absurd h.2 (by decide)) rfl
  have h4 := h3.step (Event.deliver () id) (fun () _ _ _ l hl _ =>
    (by decide : ∀ l ∈ links _ () (), live _ () () l = true) l hl) rfl
  have hall := reactions_counted h4
  exact ⟨_,h4,⟨rfl,rfl⟩,hall.2.1,hall.1 () () 0⟩

/-- The reaction `true` removed itself, and the next message calls it again. The count of
the other reaction, which is still attached, is gone. A failed allocation leaves the mutex
of the nodes locked. -/
theorem removed_is_called : (∃ x y, exec step start
    [.attach () () 0 false ⟨true,true,true⟩,.attach () () 0 true ⟨true,true,true⟩,
      .dispatch () () 0 true (fun _ => false),.deliver () id,
      .dispatch () () 0 true (fun _ => false)] = some x ∧ x.attached true = none ∧
    step x (.deliver () id) = some y ∧ y.called = x.called++[true,false] ∧
    y.attached false = some ((),(),0) ∧ (y.reactor ()).listeners = []) ∧
    ∃ y, step start (.attach () () 0 true ⟨true,false,true⟩) = some y ∧ y.nodesLocked () = true :=
  ⟨⟨_,_,rfl,rfl,rfl,rfl,rfl,rfl⟩,_,rfl,rfl⟩

end DirectFB.FusionReactor
