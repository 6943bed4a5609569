import DirectFB.DirectList
import DirectFB.Reaches

/-! The cleanups that run on the dispatch thread, and the functions of the cleanups, which may add
and remove cleanups themselves. -/
namespace DirectFB.DispatchCleanups
open Function (update update_self)
open DoublyLinked DirectList Transition

/-- A world's list of cleanups, each with its number, and the walk through it: the cleanup whose
function is called, and the next one as it was saved before the call. -/
structure World where
  memory : Memory ℕ
  dispatchCleanups : Option ℕ
  walk : Option (ℕ × Option ℕ)
  added : ℕ
  removed : List ℕ
  executed : List ℕ
  /-- Something that was freed, or NULL, was used or freed. -/
  broken : Bool

/-- `fusion_dispatch_cleanup_add` where `D_CALLOC` returns `p`. -/
def cleanupAdd (w : World) (p : ℕ) : World :=
  match append (update w.memory p (some ⟨w.added,none,none⟩)) w.dispatchCleanups p with
  | none => {w with broken := true}
  | some (memory,list) =>
    {w with memory := memory, dispatchCleanups := list, added := w.added+1}

/-- `fusion_dispatch_cleanup_remove` -/
def cleanupRemove (w : World) (p : ℕ) (n : Node ℕ) : World :=
  match remove w.memory w.dispatchCleanups p with
  | none => {w with broken := true}
  | some (memory,list) =>
    {w with
      memory := update memory p none
      dispatchCleanups := list
      removed := n.data::w.removed}

/-- The loop of `handle_dispatch_cleanups` up to the call of a function, or what follows it. -/
def walkTo (w : World) (cleanup : Option ℕ) : World :=
  match cleanup with
  | none => {w with dispatchCleanups := none, walk := none}
  | some p =>
    match w.memory p with
    | none => {w with broken := true}
    | some n => {w with walk := some (p,n.next), executed := n.data::w.executed}

def afterCall (w : World) (p : ℕ) (next : Option ℕ) : World :=
  match w.memory p with
  | none => {w with broken := true}
  | some _ => walkTo {w with memory := update w.memory p none} next

inductive Event
  | add (p : ℕ)
  | remove (p : ℕ)
  | handle
  | returned

def step (w : World) (e : Event) : Option World :=
  if w.broken then none
  else
    match e with
    | .add p => if (w.memory p).isNone then some (cleanupAdd w p) else none
    | .remove p => (w.memory p).map (cleanupRemove w p)
    | .handle => if w.walk.isNone then some (walkTo w w.dispatchCleanups) else none
    | .returned => w.walk.map fun c => afterCall w c.1 c.2

def init (w : World) : Prop :=
  w.memory = (fun _ => none) ∧ w.dispatchCleanups = none ∧ w.walk = none ∧ w.added = 0 ∧
    w.removed = [] ∧ w.executed = [] ∧ w.broken = false

def Path (m : Memory ℕ) : Option ℕ → List ℕ → Prop
  | none, [] => True
  | some p, id::l => ∃ n, m p = some n ∧ n.data = id ∧ Path m n.next l
  | _, _ => False

def start (w : World) : Option ℕ :=
  match w.walk with
  | none => w.dispatchCleanups
  | some (_,next) => next

def Good (w : World) : Prop :=
  w.broken = false ∧
    ∃ l, Path w.memory (start w) l ∧ (w.removed++w.executed++l).Perm (List.range w.added)

def Meets (w : World) : Event → Prop
  | .add _ => ∀ p next, w.walk = some (p,next) → w.dispatchCleanups = some p ∧ next ≠ none
  | .remove q => ∀ p next, w.walk = some (p,next) → q ≠ p ∧ some q ≠ next ∧
      ((w.memory q).bind Node.next ≠ none ∨ w.dispatchCleanups = some p)
  | _ => True

/-- The list is all that is allocated, and with what was removed and executed it makes up what was
added. -/
structure Holds (w : World) (l pending : List (ℕ × ℕ)) : Prop where
  sound : w.broken = false
  allocated : Allocated w.memory l
  account : (w.removed++w.executed++pending.map Prod.snd).Perm (List.range w.added)

/-- What is kept by the runs. After the first call the list starts at something that was freed. -/
inductive Inv (w : World) : Prop
  | idle (l : List (ℕ × ℕ)) (hwalk : w.walk = none) (hring : Ring w.memory w.dispatchCleanups l)
      (h : Holds w l l)
  | first (p d : ℕ) (l : List (ℕ × ℕ)) (hwalk : w.walk = some (p,first l none))
      (hring : Ring w.memory w.dispatchCleanups ((p,d)::l)) (hd : d ∈ w.executed)
      (h : Holds w ((p,d)::l) l)
  | later (first' p d : ℕ) (prev : Option ℕ) (l : List (ℕ × ℕ))
      (hwalk : w.walk = some (p,first l none)) (hfirst : w.dispatchCleanups = some first')
      (hfreed : w.memory first' = none) (hseg : Seg w.memory prev ((p,d)::l) none)
      (hd : d ∈ w.executed) (h : Holds w ((p,d)::l) l)

section Accounts

variable {a b l : List ℕ} {pre post : List (ℕ × ℕ)} {n d p : ℕ}

theorem perm_added (h : (a++b++l).Perm (List.range n)) : (a++b++(l++[n])).Perm (List.range (n+1)) := by
  rw [List.range_succ,← List.append_assoc]
  exact h.append_right [n]

theorem perm_executed : (a++(d::b)++l).Perm (a++b++(d::l)) := by
  rw [List.append_assoc,List.append_assoc,List.cons_append]
  exact List.perm_middle.symm.append_left a

theorem perm_removed :
    (d::a++b++(pre++post).map Prod.snd).Perm (a++b++(pre++(p,d)::post).map Prod.snd) := by
  rw [List.map_append,List.map_append,List.map_cons,← List.append_assoc,← List.append_assoc]
  exact List.perm_middle.symm

end Accounts

section Steps

variable {w t : World} {l : List (ℕ × ℕ)} {p q d : ℕ} {prev next list : Option ℕ}

theorem path_of_seg {m : Memory ℕ} (h : Seg m prev l none) :
    Path m (DoublyLinked.first l none) (l.map Prod.snd) := by
  induction l generalizing prev with
  | nil => trivial
  | cons a l ih =>
    obtain ⟨p,d⟩ := a
    exact ⟨_,h.1,rfl,ih h.2⟩

theorem Inv.good (h : Inv w) : Good w := by
  cases h with
  | idle l hwalk hring h =>
    refine ⟨h.sound,_,?_,h.account⟩
    rw [start,hwalk]
    exact hring.first_eq ▸ path_of_seg hring.seg
  | first p d l hwalk hring hd h =>
    refine ⟨h.sound,_,?_,h.account⟩
    rw [start,hwalk]
    exact path_of_seg hring.seg.2
  | later first' p d prev l hwalk hfirst hfreed hseg hd h =>
    refine ⟨h.sound,_,?_,h.account⟩
    rw [start,hwalk]
    exact path_of_seg hseg.2

/-- The walk goes on with what follows a cleanup that is freed. -/
theorem walkTo_inv (hseg : Seg w.memory prev l none) (h : Holds w l l)
    (hfirst : ∃ first', w.dispatchCleanups = some first' ∧ w.memory first' = none) :
    Inv (walkTo w (DoublyLinked.first l none)) := by
  cases l with
  | nil => exact .idle [] rfl ⟨rfl,trivial⟩ ⟨h.sound,h.allocated,h.account⟩
  | cons a l =>
    obtain ⟨p,d⟩ := a
    obtain ⟨first',hlist,hfreed⟩ := hfirst
    have hwalk : walkTo w (some p) =
        {w with walk := some (p,DoublyLinked.first l none), executed := d::w.executed} := by
      simp [walkTo,hseg.1]
    rw [first_cons,hwalk]
    exact .later first' p d prev l rfl hlist hfreed hseg (by simp)
      ⟨h.sound,h.allocated,perm_executed.trans h.account⟩

theorem Inv.handle (h : Inv w) (hwalk : w.walk = none) : Inv (walkTo w w.dispatchCleanups) := by
  cases h with
  | idle l _ hring h =>
    cases l with
    | nil =>
      rw [hring.first_eq]
      exact .idle [] rfl ⟨rfl,trivial⟩ ⟨h.sound,h.allocated,h.account⟩
    | cons a l =>
      obtain ⟨p,d⟩ := a
      have hlist : walkTo w w.dispatchCleanups =
          {w with walk := some (p,DoublyLinked.first l none), executed := d::w.executed} := by
        simp [walkTo,hring.first_eq,hring.seg.1]
      rw [hlist]
      exact .first p d l rfl hring (by simp) ⟨h.sound,h.allocated,perm_executed.trans h.account⟩
  | first p d l h => simp [hwalk] at h
  | later first' p d prev l h => simp [hwalk] at h

theorem Inv.returned (h : Inv w) (hwalk : w.walk = some (p,next)) : Inv (afterCall w p next) := by
  cases h with
  | idle l h => simp [hwalk] at h
  | first p d l hwalk' hring hd h =>
    cases hwalk.symm.trans hwalk'
    have ha : Allocated (update w.memory p none) l := h.allocated.free_first
    rw [afterCall,hring.seg.1]
    refine walkTo_inv (Seg.free hring.seg.2 ha) ⟨h.sound,ha,h.account⟩ ⟨p,?_,?_⟩
    · exact hring.first_eq
    · exact update_self ..
  | later first' p d prev l hwalk' hfirst hfreed hseg hd h =>
    cases hwalk.symm.trans hwalk'
    have ha : Allocated (update w.memory p none) l := h.allocated.free_first
    rw [afterCall,hseg.1]
    refine walkTo_inv (Seg.free hseg.2 ha) ⟨h.sound,ha,h.account⟩ ⟨first',hfirst,?_⟩
    by_cases hne : first' = p <;> simp [update,hne,hfreed]

theorem cleanupAdd_of_ring (hring : Ring w.memory w.dispatchCleanups l)
    (ha : Allocated w.memory l) (hp : w.memory p = none) :
    ∃ m', cleanupAdd w p = {w with
        memory := m'
        dispatchCleanups := DoublyLinked.first (l++[(p,w.added)]) none
        added := w.added+1} ∧
      Ring m' (DoublyLinked.first (l++[(p,w.added)]) none) (l++[(p,w.added)]) ∧
      Allocated m' (l++[(p,w.added)]) := by
  obtain ⟨m',hm',hring',ha'⟩ := hring.add ha hp w.added
  exact ⟨m',by rw [cleanupAdd,hm'],hring',ha'⟩

theorem append_freed {m : Memory ℕ} {first' : ℕ} (hm : m first' = none) :
    append (update m p (some ⟨d,none,none⟩)) (some first') p = none := by
  by_cases h : first' = p <;> simp [append,setNext,update,h,hm]

theorem Inv.add (h : Inv w) (hp : w.memory p = none) (hmeets : Meets w (.add p)) :
    Inv (cleanupAdd w p) := by
  cases h with
  | idle l hwalk hring h =>
    obtain ⟨m',hadd,hring',ha⟩ := cleanupAdd_of_ring hring h.allocated hp
    rw [hadd]
    refine .idle _ hwalk hring' ⟨h.sound,ha,?_⟩
    rw [List.map_append]
    exact perm_added h.account
  | first q d l hwalk hring hd h =>
    obtain ⟨m',hadd,hring',ha⟩ := cleanupAdd_of_ring hring h.allocated hp
    have hne := (hmeets q _ hwalk).2
    have hfirst : DoublyLinked.first (l++[(p,w.added)]) none = DoublyLinked.first l none := by
      cases l with
      | nil => exact absurd rfl hne
      | cons a l => rfl
    rw [hadd]
    refine .first q d (l++[(p,w.added)]) (by rw [hfirst]; exact hwalk) hring' hd ⟨h.sound,ha,?_⟩
    rw [List.map_append]
    exact perm_added h.account
  | later first' q d prev l hwalk hfirst hfreed hseg hd h =>
    rw [(hmeets q _ hwalk).1] at hfirst
    obtain rfl := Option.some.inj hfirst
    rw [hseg.1] at hfreed
    contradiction

theorem Inv.meets_add (h : Inv w) (hp : w.memory p = none) (hgood : Good (cleanupAdd w p)) :
    Meets w (.add p) := by
  intro q next hwalk
  cases h with
  | idle l hwalk' => simp [hwalk] at hwalk'
  | first q' d l hwalk' hring hd h =>
    cases hwalk.symm.trans hwalk'
    refine ⟨hring.first_eq,?_⟩
    cases l with
    | cons a l => simp [DoublyLinked.first]
    | nil =>
      obtain ⟨m',hadd,-,-⟩ := cleanupAdd_of_ring hring h.allocated hp
      rw [hadd] at hgood
      obtain ⟨-,l',hpath,hperm⟩ := hgood
      cases l' with
      | nil =>
        have hlost := hperm.length_eq.symm.trans h.account.length_eq
        simp at hlost
      | cons id l' => simp [start,hwalk',Path] at hpath
  | later first' q' d prev l hwalk' hfirst hfreed hseg hd h =>
    have hbroken := hgood.1
    simp [cleanupAdd,hfirst,append_freed hfreed] at hbroken

theorem exists_pre {n : Node ℕ} {c : ℕ × ℕ} (ha : Allocated w.memory (c::l))
    (hseg : Seg w.memory prev (c::l) none) (hn : w.memory q = some n) (hc : q ≠ c.1)
    (hnext : some q ≠ DoublyLinked.first l none) :
    ∃ a pre post, l = a::pre++(q,n.data)::post ∧ n.next = DoublyLinked.first post none := by
  obtain ⟨pre,post,hl,hpost⟩ := ha.split hseg hn
  cases pre with
  | nil => simp_all
  | cons c' pre =>
    obtain ⟨-,rfl⟩ := List.cons_eq_cons.mp hl
    cases pre with
    | nil => simp at hnext
    | cons a pre => exact ⟨a,pre,post,rfl,hpost⟩

theorem Inv.remove {n : Node ℕ} (h : Inv w) (hn : w.memory q = some n)
    (hmeets : Meets w (.remove q)) : Inv (cleanupRemove w q n) := by
  cases h with
  | idle l hwalk hring h =>
    obtain ⟨pre,post,rfl,-⟩ := h.allocated.split hring.seg hn
    obtain ⟨m',hm',hring',ha⟩ := hring.free h.allocated
    rw [cleanupRemove,hm']
    exact .idle _ hwalk hring' ⟨h.sound,ha,perm_removed.trans h.account⟩
  | first p d l hwalk hring hd h =>
    obtain ⟨hqp,hnext,-⟩ := hmeets p _ hwalk
    obtain ⟨a,pre,post,rfl,-⟩ := exists_pre h.allocated hring.seg hn hqp hnext
    have hring : Ring w.memory w.dispatchCleanups (((p,d)::a::pre)++(q,n.data)::post) := hring
    obtain ⟨m',hm',hring',ha⟩ := hring.free h.allocated
    rw [cleanupRemove,hm']
    exact .first p d (a::pre++post) hwalk hring' hd ⟨h.sound,ha,perm_removed.trans h.account⟩
  | later first' p d prev l hwalk hfirst hfreed hseg hd h =>
    obtain ⟨hqp,hnext,hlast⟩ := hmeets p _ hwalk
    obtain ⟨a,pre,post,rfl,hpost⟩ := exists_pre h.allocated hseg hn hqp hnext
    have hne : post ≠ [] := by
      rintro rfl
      rw [hn,Option.bind_some,hpost,first_nil,hfirst] at hlast
      obtain rfl := Option.some.inj (hlast.resolve_left fun h => h rfl)
      rw [hseg.1] at hfreed
      contradiction
    have hlist : w.dispatchCleanups ≠ some q := by
      rw [hfirst]
      rintro ⟨⟩
      rw [hn] at hfreed
      contradiction
    have hseg : Seg w.memory prev (((p,d)::a::pre)++(q,n.data)::post) none := hseg
    obtain ⟨m',hm',hseg',ha⟩ := Seg.free_inner hseg h.allocated (by simp) hne hlist
    have hfreed' : update m' q none first' = none := by
      by_contra hmem
      refine absurd hfreed ((h.allocated.only first').mpr ?_)
      have hlisted := (ha.only first').mp hmem
      simp only [List.map_append,List.map_cons,List.mem_append,List.mem_cons] at hlisted ⊢
      tauto
    rw [cleanupRemove,hm']
    exact .later first' p d prev (a::pre++post) hwalk hfirst hfreed' hseg' hd
      ⟨h.sound,ha,perm_removed.trans h.account⟩

/-- A cleanup whose function was called is not removed, and neither is the one that comes next. -/
theorem remove_good {n : Node ℕ} (hwalk : w.walk = some (p,next))
    (hgood : Good (cleanupRemove w q n)) :
    n.data ∉ w.executed ∧ some q ≠ next ∧ remove w.memory w.dispatchCleanups q ≠ none := by
  unfold cleanupRemove at hgood
  cases hr : remove w.memory w.dispatchCleanups q with
  | none => simp [hr,Good] at hgood
  | some r =>
    obtain ⟨m',list⟩ := r
    simp only [hr] at hgood
    obtain ⟨-,l,hpath,hperm⟩ := hgood
    refine ⟨fun hd => ?_,fun hq => ?_,by simp⟩
    · have hnodup := hperm.nodup_iff.mpr List.nodup_range
      simp only [List.cons_append,List.nodup_cons,List.mem_append,not_or] at hnodup
      exact hnodup.1.1.2 hd
    · simp only [start,hwalk,← hq] at hpath
      cases l with
      | nil => exact hpath
      | cons id l =>
        obtain ⟨n',hn',-⟩ := hpath
        simp at hn'

theorem Inv.meets_remove {n : Node ℕ} (h : Inv w) (hn : w.memory q = some n)
    (hgood : Good (cleanupRemove w q n)) : Meets w (.remove q) := by
  intro p next hwalk
  obtain ⟨hexecuted,hnext,hsome⟩ := remove_good hwalk hgood
  cases h with
  | idle l hwalk' => simp [hwalk] at hwalk'
  | first p' d l hwalk' hring hd h =>
    cases hwalk.symm.trans hwalk'
    refine ⟨?_,hnext,Or.inr hring.first_eq⟩
    rintro rfl
    obtain rfl := Option.some.inj (hring.seg.1.symm.trans hn)
    exact hexecuted hd
  | later first' p' d prev l hwalk' hfirst hfreed hseg hd h =>
    cases hwalk.symm.trans hwalk'
    refine ⟨?_,hnext,Or.inl fun hlast => hsome ?_⟩
    · rintro rfl
      obtain rfl := Option.some.inj (hseg.1.symm.trans hn)
      exact hexecuted hd
    · rw [hn,Option.bind_some] at hlast
      simp [DirectList.remove,hn,hlast,hfirst,hfreed]

theorem init_inv (h : init w) : Inv w := by
  obtain ⟨hm,hlist,hwalk,hadded,hremoved,hexecuted,hbroken⟩ := h
  exact .idle [] hwalk ⟨hlist,trivial⟩
    ⟨hbroken,⟨by simp,by simp [hm]⟩,by simp [hadded,hremoved,hexecuted]⟩

/-- What a step needs to keep every cleanup is just what the condition says. -/
theorem Inv.keeps {e : Event} (h : Inv w) (hs : step w e = some t) :
    (Meets w e → Inv t) ∧ (Good t → Meets w e) := by
  have hbroken : w.broken = false := h.good.1
  cases e with
  | add p =>
    simp only [DispatchCleanups.step,hbroken,Bool.false_eq_true,if_false,Option.ite_none_right_eq_some,
      Option.some.injEq,Option.isNone_iff_eq_none] at hs
    obtain ⟨hp,rfl⟩ := hs
    exact ⟨h.add hp,h.meets_add hp⟩
  | remove q =>
    simp only [DispatchCleanups.step,hbroken,Bool.false_eq_true,if_false,Option.map_eq_some_iff] at hs
    obtain ⟨n,hn,rfl⟩ := hs
    exact ⟨h.remove hn,h.meets_remove hn⟩
  | handle =>
    simp only [DispatchCleanups.step,hbroken,Bool.false_eq_true,if_false,Option.ite_none_right_eq_some,
      Option.some.injEq,Option.isNone_iff_eq_none] at hs
    obtain ⟨hwalk,rfl⟩ := hs
    exact ⟨fun _ => h.handle hwalk,fun _ => trivial⟩
  | returned =>
    simp only [DispatchCleanups.step,hbroken,Bool.false_eq_true,if_false,Option.map_eq_some_iff] at hs
    obtain ⟨⟨p,next⟩,hwalk,rfl⟩ := hs
    exact ⟨fun _ => h.returned hwalk,fun _ => trivial⟩

theorem reaches_inv (h : Reaches step Meets init w) : Inv w :=
  h.invariant Inv (fun _ => init_inv) fun _ _ _ hinv hok hs => (hinv.keeps hs).1 hok

def Goes (w t : World) : Prop := step w .handle = some t ∨ step w .returned = some t

def Finished (w t : World) : Prop :=
  t.walk = none ∧ t.dispatchCleanups = none ∧ t.added = w.added ∧ t.removed = w.removed ∧
    (t.removed++t.executed).Perm (List.range t.added)

theorem walkTo_cases {c : Option ℕ} (hbroken : (walkTo w c).broken = false) :
    (walkTo w c).added = w.added ∧ (walkTo w c).removed = w.removed ∧
      ((walkTo w c).walk = none ∧ (walkTo w c).dispatchCleanups = none ∨
        (∃ p next, (walkTo w c).walk = some (p,next)) ∧
          (walkTo w c).executed.length = w.executed.length+1) := by
  cases c with
  | none => exact ⟨rfl,rfl,Or.inl ⟨rfl,rfl⟩⟩
  | some p =>
    cases hp : w.memory p with
    | none => simp [walkTo,hp] at hbroken
    | some n => exact ⟨by simp [walkTo,hp],by simp [walkTo,hp],Or.inr (by simp [walkTo,hp])⟩

theorem Inv.executed_le (h : Inv w) : w.executed.length ≤ w.added := by
  obtain ⟨-,l,-,hperm⟩ := h.good
  have hlength := hperm.length_eq
  simp only [List.length_append,List.length_range] at hlength
  omega

theorem Inv.finished (h : Inv w) (hwalk : w.walk = none) (hlist : w.dispatchCleanups = none) :
    (w.removed++w.executed).Perm (List.range w.added) := by
  obtain ⟨-,l,hpath,hperm⟩ := h.good
  simp only [start,hwalk,hlist] at hpath
  cases l with
  | nil => simpa using hperm
  | cons id l => exact hpath.elim

theorem Inv.afterCall_eq (h : Inv w) (hwalk : w.walk = some (p,next)) :
    step w .returned = some (afterCall w p next) ∧
      afterCall w p next = walkTo {w with memory := update w.memory p none} next := by
  have hbroken := (h.returned hwalk).good.1
  cases hp : w.memory p with
  | none => simp [afterCall,hp] at hbroken
  | some n => exact ⟨by simp [step,h.good.1,hwalk],by rw [afterCall,hp]⟩

theorem Inv.walk_finishes (h : Inv w) (hwalk : w.walk = some (p,next)) :
    ∃ t, Relation.ReflTransGen Goes w t ∧ Finished w t := by
  induction hn : w.added-w.executed.length using Nat.strong_induction_on generalizing w p next with
  | _ n ih =>
  obtain ⟨hs,heq⟩ := h.afterCall_eq hwalk
  have ht := h.returned hwalk
  have hcases := walkTo_cases (heq ▸ ht.good.1)
  rw [← heq] at hcases
  obtain ⟨hadded,hremoved,⟨hidle,hlist⟩ | ⟨⟨p',next',hwalk'⟩,hexecuted⟩⟩ := hcases
  · exact ⟨_,.single (Or.inr hs),hidle,hlist,hadded,hremoved,ht.finished hidle hlist⟩
  · have hle := ht.executed_le
    obtain ⟨u,hu,hidle,hlist,hadded',hremoved',hperm⟩ := ih _ (by grind) ht hwalk' rfl
    exact ⟨u,.head (Or.inr hs) hu,hidle,hlist,hadded'.trans hadded,hremoved'.trans hremoved,hperm⟩

/-- The dispatch thread comes to the end of the list. -/
theorem Inv.finishes (h : Inv w) : ∃ t, Relation.ReflTransGen Goes w t ∧ Finished w t := by
  cases hwalk : w.walk with
  | some c => exact h.walk_finishes hwalk
  | none =>
    have hs : step w .handle = some (walkTo w w.dispatchCleanups) := by
      simp [step,h.good.1,hwalk]
    have ht := h.handle hwalk
    obtain ⟨hadded,hremoved,⟨hidle,hlist⟩ | ⟨⟨p,next,hwalk'⟩,-⟩⟩ := walkTo_cases ht.good.1
    · exact ⟨_,.single (Or.inl hs),hidle,hlist,hadded,hremoved,ht.finished hidle hlist⟩
    · obtain ⟨u,hu,hidle,hlist,hadded',hremoved',hperm⟩ := ht.walk_finishes hwalk'
      exact ⟨u,.head (Or.inl hs) hu,hidle,hlist,hadded'.trans hadded,hremoved'.trans hremoved,hperm⟩

end Steps

/-- In runs whose calls all meet the condition no cleanup is lost, and the dispatch thread executes
those that are left. A call that does not meet it loses one, or uses or frees what was freed. -/
theorem cleanups_kept {w : World} (h : Reaches step Meets init w) :
    Good w ∧ (∃ t, Relation.ReflTransGen Goes w t ∧ Finished w t) ∧
      ∀ e t, step w e = some t → (Good t ↔ Meets w e) := by
  have hinv := reaches_inv h
  exact ⟨hinv.good,hinv.finishes,fun e t hs =>
    ⟨(hinv.keeps hs).2,fun hmeets => ((hinv.keeps hs).1 hmeets).good⟩⟩

def empty : World := ⟨fun _ => none,none,none,0,[],[],false⟩

theorem empty_init : init empty := ⟨rfl,rfl,rfl,rfl,rfl,rfl,rfl⟩

/-- Two cleanups, of which the first adds a third. -/
theorem cleanups_kept_added :
    ∃ w, exec step empty [.add 0,.add 1,.handle,.add 2] = some w ∧ w.added = 3 ∧ Good w := by
  have h₀ : Reaches step Meets init empty := .init empty_init
  have h₁ := h₀.step (.add 0) (by rintro p next ⟨⟩) rfl
  have h₂ := h₁.step (.add 1) (by rintro p next ⟨⟩) rfl
  have h₃ := h₂.step Event.handle (by trivial) rfl
  have h₄ := h₃.step (.add 2) (by rintro p next ⟨⟩; exact ⟨rfl,by decide⟩) rfl
  exact ⟨_,rfl,rfl,(cleanups_kept h₄).1⟩

/-- What the function of the last cleanup adds is lost. -/
theorem added_last_lost : ¬ ∀ w, Reaches step (fun _ _ => True) init w → Good w := by
  intro h
  have h₀ : Reaches step (fun _ _ => True) init empty := .init empty_init
  have h₁ := h₀.step (.add 0) trivial rfl
  have h₂ := h₁.step Event.handle trivial rfl
  have h₃ := h₂.step (.add 1) trivial rfl
  obtain ⟨-,l,hpath,hperm⟩ := h _ h₃
  cases l with
  | nil => exact absurd hperm.length_eq (by decide)
  | cons id l => exact hpath

end DirectFB.DispatchCleanups
