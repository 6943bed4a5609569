import DirectFB.DirectList
import DirectFB.Reaches

/-! A queue of linked items, with threads that push, pull and pop them. -/
namespace DirectFB.DirectFifo
open DoublyLinked DirectList Transition

variable {τ : Type*} [DecidableEq τ]

/-- What a thread is about to do: the section with the lock, the broadcast after a push, or the
second access to `items` in `direct_fifo_pop`. A thread that waits holds no lock. -/
inductive Pc
  | idle
  | pushing (item : ℕ)
  | waking
  | pulling
  | waiting
  | popping
  deriving DecidableEq

/-- A fifo with its threads. The items that callers hold, and those pushed and returned so far. -/
structure State (τ : Type*) where
  memory : Memory Unit
  items : Option ℕ
  pc : τ → Pc
  held : Set ℕ
  pushed : List ℕ
  returned : List ℕ

inductive Event (τ : Type*)
  | push (t : τ) (item : ℕ)
  | append (t : τ)
  | broadcast (t : τ)
  | pull (t : τ)
  | take (t : τ)
  | pop (t : τ)
  | read (t : τ)

def setPc (s : State τ) (t : τ) (pc : Pc) : State τ := {s with pc := Function.update s.pc t pc}

/-- An item is returned to the caller. -/
def give (s : State τ) (t : τ) (item : ℕ) : State τ :=
  {setPc s t .idle with held := insert item s.held, returned := s.returned++[item]}

/-- The steps of `direct_fifo_push`, `direct_fifo_pull` and `direct_fifo_pop`. A section with the
lock is one step. Callers push items that they hold. -/
def step (s : State τ) : Event τ → Option (State τ)
  | .push t item => if s.pc t = .idle then some {setPc s t (.pushing item) with held := s.held \ {item}}
    else none
  | .append t =>
    match s.pc t with
    | .pushing item => (append s.memory s.items item).map fun r =>
      {setPc s t .waking with memory := r.1, items := r.2, pushed := s.pushed++[item]}
    | _ => none
  | .broadcast t => if s.pc t = .waking then
      some (setPc {s with pc := fun u => if s.pc u = .waiting then .pulling else s.pc u} t .idle)
    else none
  | .pull t => if s.pc t = .idle then some (setPc s t .pulling) else none
  | .take t => if s.pc t = .pulling then
      match s.items with
      | none => some (setPc s t .waiting)
      | some item => (remove s.memory s.items item).map fun r =>
        give {s with memory := r.1, items := r.2} t item
    else none
  | .pop t => if s.pc t = .idle then
      some (if s.items.isNone then s else setPc s t .popping) else none
  | .read t => if s.pc t = .popping then s.items.map (give s t) else none

/-- No caller passes an item that it does not hold, and nothing is popped. -/
def Plain (s : State τ) : Event τ → Prop
  | .push _ item => item ∈ s.held
  | .pop _ => s.items = none
  | _ => True

/-- All items are with the callers, in memory of any content. -/
def Start (s : State τ) : Prop :=
  (∀ p, s.memory p ≠ none) ∧ s.items = none ∧ (∀ t, s.pc t = .idle) ∧ s.held = Set.univ ∧
    s.pushed = [] ∧ s.returned = []

/-- What was pushed are the items returned so far and then those that are linked, in order. No
item that is returned is linked. -/
def Queued (s : State τ) : Prop :=
  ∃ q : List ℕ, s.pushed = s.returned++q ∧ q.Nodup ∧ (∀ p ∈ q, p ∉ s.held) ∧
    Ring s.memory s.items (q.map fun p => (p,()))

structure Inv (s : State τ) (q : List ℕ) : Prop where
  memory : ∀ p, s.memory p ≠ none
  pushed : s.pushed = s.returned++q
  nodup : q.Nodup
  linked : ∀ p ∈ q, p ∉ s.held
  ring : Ring s.memory s.items (q.map fun p => (p,()))
  pushing : ∀ t p, s.pc t = .pushing p → p ∉ s.held ∧ p ∉ q ∧ ∀ u, s.pc u = .pushing p → u = t
  popping : ∀ t, s.pc t ≠ .popping

variable {s s' : State τ} {q : List ℕ} {t u : τ} {p : ℕ} {pc : Pc}

theorem pushing_of_setPc (h : (setPc s t pc).pc u = .pushing p) :
    u = t ∧ pc = .pushing p ∨ u ≠ t ∧ s.pc u = .pushing p := by
  by_cases hut : u = t
  · subst hut
    exact .inl ⟨rfl,by simpa [setPc] using h⟩
  · exact .inr ⟨hut,by simpa [setPc,hut] using h⟩

theorem map_nodes (q : List ℕ) : (q.map fun p => (p,())).map Prod.fst = q := by
  simp [Function.comp_def]

theorem popping_setPc (h : ∀ u, s.pc u ≠ .popping) (hpc : pc ≠ .popping) :
    (setPc s t pc).pc u ≠ .popping := by
  by_cases hut : u = t
  · subst hut
    simpa [setPc] using hpc
  · simpa [setPc,hut] using h u

/-- A thread that does not push goes on. -/
theorem Inv.setPc (h : Inv s q) (hpc : ∀ p, pc ≠ .pushing p) (hpop : pc ≠ .popping) :
    Inv (setPc s t pc) q := by
  have hold {u : τ} {p : ℕ} (hu : (DirectFifo.setPc s t pc).pc u = .pushing p) :
      s.pc u = .pushing p :=
    ((pushing_of_setPc hu).resolve_left fun hc => hpc p hc.2).2
  refine {h with
    pushing := fun u p hu => ?_
    popping := fun u => popping_setPc h.popping hpop}
  obtain ⟨hheld,hq,hone⟩ := h.pushing u p (hold hu)
  exact ⟨hheld,hq,fun v hv => hone v (hold hv)⟩

theorem Inv.push (h : Inv s q) (hp : p ∈ s.held) :
    Inv {DirectFifo.setPc s t (.pushing p) with held := s.held \ {p}} q := by
  refine {h with
    linked := fun r hr hm => h.linked r hr hm.1
    pushing := fun u r hu => ?_
    popping := fun u => popping_setPc h.popping (by simp)}
  obtain ⟨rfl,hr⟩ | ⟨-,hu⟩ := pushing_of_setPc hu
  · obtain rfl := Pc.pushing.inj hr
    refine ⟨by simp,fun hq => h.linked p hq hp,fun v hv => ?_⟩
    exact (pushing_of_setPc hv).elim And.left fun hv => absurd hp (h.pushing v p hv.2).1
  · obtain ⟨hheld,hq,hone⟩ := h.pushing u r hu
    refine ⟨fun hm => hheld hm.1,hq,fun v hv => ?_⟩
    obtain ⟨-,hr⟩ | ⟨-,hv⟩ := pushing_of_setPc hv
    · exact absurd hp (Pc.pushing.inj hr ▸ hheld)
    · exact hone v hv

/-- The section of a push. -/
theorem Inv.append (h : Inv s q) (ht : s.pc t = .pushing p) :
    ∃ r, DirectList.append s.memory s.items p = some r ∧ Inv {DirectFifo.setPc s t .waking with
        memory := r.1, items := r.2, pushed := s.pushed++[p]} (q++[p]) := by
  obtain ⟨hheld,hq,hone⟩ := h.pushing t p ht
  obtain ⟨n,hn⟩ := Option.ne_none_iff_exists'.mp (h.memory p)
  obtain ⟨m,hm,hring,hnone⟩ := h.ring.append (by rw [map_nodes]; exact h.nodup) hn
    (by rwa [map_nodes])
  refine ⟨_,hm,?_⟩
  exact {
    memory := fun r => mt (hnone r).mp (h.memory r)
    pushed := by simp [DirectFifo.setPc,h.pushed]
    nodup := List.nodup_append.mpr ⟨h.nodup,by simp,fun a ha b hb => by
      rintro rfl
      exact hq (List.mem_singleton.mp hb ▸ ha)⟩
    linked := by simpa [or_imp,forall_and] using ⟨h.linked,hheld⟩
    ring := by simpa using hring
    pushing := fun u r hu => by
      obtain ⟨-,hr⟩ | ⟨hut,hold⟩ := pushing_of_setPc hu
      · cases hr
      obtain ⟨hheld',hq',hone'⟩ := h.pushing u r hold
      have hne : r ≠ p := by
        rintro rfl
        exact hut (hone u hold)
      refine ⟨hheld',by simp [hq',hne],fun v hv => ?_⟩
      exact hone' v ((pushing_of_setPc hv).resolve_left (by simp)).2
    popping := fun u => popping_setPc h.popping (by simp)}

theorem Inv.take (h : Inv s (p::q)) : ∃ r, DirectList.remove s.memory s.items p = some r ∧
      Inv (give {s with memory := r.1, items := r.2} t p) q := by
  obtain ⟨hp,hn⟩ := List.nodup_cons.mp h.nodup
  have hring : Ring s.memory s.items ([]++(p,())::q.map (·,())) := h.ring
  obtain ⟨m,hm,hring,hnone⟩ := hring.remove (by simpa [Function.comp_def] using h.nodup)
  refine ⟨_,hm,?_⟩
  exact {
    memory := fun r => mt (hnone r).mp (h.memory r)
    pushed := by simp [give,DirectFifo.setPc,h.pushed]
    nodup := hn
    linked := fun r hr hm => hm.elim (fun he => hp (he ▸ hr)) (h.linked r (.tail _ hr))
    ring := hring
    pushing := fun u r hu => by
      obtain ⟨-,hr⟩ | ⟨-,hu⟩ := pushing_of_setPc hu
      · cases hr
      obtain ⟨hheld,hq,hone⟩ := h.pushing u r hu
      refine ⟨fun hm => hm.elim (fun he => hq (he ▸ .head _)) hheld,fun hr => hq (.tail _ hr),
        fun v hv => hone v ((pushing_of_setPc hv).resolve_left (by simp)).2⟩
    popping := fun u => popping_setPc h.popping (by simp)}

theorem Inv.step {e : Event τ} (h : Inv s q) (hok : Plain s e) (hs : step s e = some s') :
    ∃ q, Inv s' q := by
  cases e with
  | push t item =>
    simp only [DirectFifo.step] at hs
    split_ifs at hs
    obtain rfl := Option.some.inj hs
    exact ⟨q,h.push hok⟩
  | append t =>
    simp only [DirectFifo.step] at hs
    split at hs
    · obtain ⟨r,hr,hinv⟩ := h.append ‹_›
      rw [hr] at hs
      obtain rfl := Option.some.inj hs
      exact ⟨_,hinv⟩
    · cases hs
  | broadcast t =>
    simp only [DirectFifo.step] at hs
    split_ifs at hs
    obtain rfl := Option.some.inj hs
    refine ⟨q,Inv.setPc ?_ (by simp) (by simp)⟩
    refine {h with pushing := fun u p hu => ?_, popping := fun u => ?_}
    · have hold {u : τ} (hu : (if s.pc u = .waiting then Pc.pulling else s.pc u) = .pushing p) :
          s.pc u = .pushing p := by
        split_ifs at hu
        exact hu
      obtain ⟨hheld,hq,hone⟩ := h.pushing u p (hold hu)
      exact ⟨hheld,hq,fun v hv => hone v (hold hv)⟩
    · dsimp only
      split_ifs
      exacts [by simp,h.popping u]
  | pull t =>
    simp only [DirectFifo.step] at hs
    split_ifs at hs
    obtain rfl := Option.some.inj hs
    exact ⟨q,h.setPc (by simp) (by simp)⟩
  | take t =>
    simp only [DirectFifo.step] at hs
    split_ifs at hs
    cases q with
    | nil =>
      rw [show s.items = none from h.ring.first_eq] at hs
      obtain rfl := Option.some.inj hs
      exact ⟨[],h.setPc (by simp) (by simp)⟩
    | cons p q =>
      obtain ⟨r,hr,hinv⟩ := h.take (t := t)
      rw [show s.items = some p from h.ring.first_eq] at hs hr
      dsimp only at hs
      rw [hr] at hs
      obtain rfl := Option.some.inj hs
      exact ⟨q,hinv⟩
  | pop t =>
    simp only [DirectFifo.step,show s.items = none from hok,Option.isNone_none,if_true] at hs
    split_ifs at hs
    obtain rfl := Option.some.inj hs
    exact ⟨q,h⟩
  | read t =>
    simp only [DirectFifo.step,if_neg (h.popping t)] at hs
    cases hs

/-- In every run without a pop from a fifo with items, the fifo is a queue. -/
theorem fifo_queued (h : Reaches step Plain Start s) : Queued s := by
  obtain ⟨q,hinv⟩ := h.invariant (fun s => ∃ q, Inv s q)
    (fun s ⟨hm,hi,hpc,_,hp,hr⟩ => ⟨[],hm,by simp [hp,hr],by simp,by simp,⟨hi,trivial⟩,
      fun t p ht => by simp [hpc] at ht,fun t ht => by simp [hpc] at ht⟩)
    fun s e s' ⟨q,hinv⟩ hok hs => hinv.step hok hs
  exact ⟨q,hinv.pushed,hinv.nodup,hinv.linked,hinv.ring⟩

def start : State (Fin 1) := ⟨fun _ => some ⟨(),none,none⟩,none,fun _ => .idle,.univ,[],[]⟩

theorem init_start : Start start := ⟨by simp [start],rfl,fun _ => rfl,rfl,rfl,rfl⟩

theorem pulled_once : ∃ s, exec step start [.push 0 1,.append 0,.broadcast 0,.pull 0,.take 0] =
    some s ∧ s.returned = [1] ∧ Queued s :=
  ⟨_,rfl,rfl,fifo_queued (.step (.take 0) (.step (.pull 0) (.step (.broadcast 0) (.step (.append 0)
    (.step (.push 0 1) (.init init_start) (Set.mem_univ _) rfl) trivial rfl) trivial rfl)
    trivial rfl) trivial rfl)⟩

/-- A popped item stays linked, and is popped again. -/
theorem popped_twice : ∃ s, exec step start [.push 0 1,.append 0,.broadcast 0,.pop 0,.read 0,.pop 0,
    .read 0] = some s ∧ ¬Queued s := by
  refine ⟨_,rfl,fun ⟨q,h,_⟩ => ?_⟩
  have : [1] = [1,1]++q := h
  simp at this

end DirectFB.DirectFifo
