import Mathlib.Algebra.BigOperators.Group.Finset.Basic
import DirectFB.Reaches

/-! References to objects that the master of a secure world hands over to slaves. A slave
counts what it catches and what it holds, and returns all at once when it holds none; the
master counts for each slave what was thrown to it and not returned. -/
namespace DirectFB.FusionTransfer
open Function (update update_of_ne update_self)
open Transition

/-- What is kept of one reference for one slave: `refs` of the `FusionRefSlaveEntry` in the
master, both counters of the `FusionRefSlaveSlaveEntry`, and how far threads have come. -/
structure Share where
  refs : ℕ := 0
  refsLocal : ℕ := 0
  refsCatch : ℕ := 0
  /-- thrown by threads of the master that have yet to send the object -/
  sending : ℕ := 0
  /-- received by threads of the slave that have yet to catch the object -/
  received : ℕ := 0
  /-- between `fusion_ref_up` and `fusion_ref_catch` of `fusion_object_catch` -/
  upped : ℕ := 0
  /-- held by threads of the slave -/
  held : ℕ := 0
  thrown : ℕ := 0
  returned : ℕ := 0
  deriving DecidableEq

/-- What a slave sends to the master. -/
inductive Message (ρ : Type*)
  | refsCall (r : ρ)
  | leave
  deriving DecidableEq

/-- The references of the master, in total and held by its own threads, and for each slave
the messages to and from it. The call that is handled is at its first or second half. -/
structure State (σ ρ : Type*) where
  refs : ρ → ℕ
  own : ρ → ℕ
  destroyed : ρ → Bool
  share : σ → ρ → Share
  inbox : σ → List ρ
  outbox : σ → List (Message ρ)
  alive : σ → Bool
  left : σ → Bool
  handling : Option (σ × ρ × Bool)

variable {σ ρ : Type*} [DecidableEq σ] [DecidableEq ρ]

def setShare (x : State σ ρ) (s : σ) (r : ρ) (f : Share → Share) : State σ ρ :=
  {x with share := fun s' r' => if s' = s ∧ r' = r then f (x.share s r) else x.share s' r'}

inductive Event (σ ρ : Type*)
  | up (r : ρ)
  | down (r : ρ)
  | destroy (r : ρ)
  | throw (s : σ) (r : ρ)
  | send (s : σ) (r : ρ)
  | receive (s : σ)
  | catchUp (s : σ) (r : ρ)
  | catchRef (s : σ) (r : ρ)
  | slaveUp (s : σ) (r : ρ)
  | slaveDown (s : σ) (r : ρ)
  | exit (s : σ)
  | dispatch (s : σ)
  | refDown
  | finish

/-- `fusion_ref_down` by a slave: with the last reference all that it caught is returned. -/
def slaveRefDown (x : State σ ρ) (s : σ) (r : ρ) : State σ ρ :=
  let c := x.share s r
  if c.refsLocal-1 = 0 then
    {setShare x s r fun c => {c with refsLocal := 0, refsCatch := 0, held := c.held-1} with
      outbox := update x.outbox s (x.outbox s++List.replicate c.refsCatch (.refsCall r))}
  else setShare x s r fun c => {c with refsLocal := c.refsLocal-1, held := c.held-1}

/-- `refs_iterate`, for the slave that left. -/
def refsIterate (x : State σ ρ) (s : σ) : State σ ρ :=
  {x with
    refs := fun r => x.refs r-(x.share s r).refs
    share := fun s' r => if s' = s then
      {x.share s r with refs := 0, returned := (x.share s r).returned+(x.share s r).refs}
      else x.share s' r
    left := update x.left s true}

/-- The master takes the next message of a slave. `world_refs_call` looks its entry up and
then drops the lock. -/
def dispatch (x : State σ ρ) (s : σ) : Message ρ → State σ ρ
  | .refsCall r => if (x.share s r).refs = 0 then x else {x with handling := some (s,r,false)}
  | .leave => refsIterate x s

/-- One step of a thread of the master or of a slave, or of the dispatcher. Threads refer to
objects they have, and drop what they hold. -/
def step (x : State σ ρ) : Event σ ρ → Option (State σ ρ)
  | .up r =>
    if 0 < x.refs r then some {x with
      refs := update x.refs r (x.refs r+1)
      own := update x.own r (x.own r+1)}
    else none
  | .down r =>
    if 0 < x.own r then some {x with
      refs := update x.refs r (x.refs r-1)
      own := update x.own r (x.own r-1)}
    else none
  | .destroy r =>
    if x.refs r = 0 then some {x with destroyed := update x.destroyed r true} else none
  | .throw s r =>
    if 0 < x.own r then some {setShare x s r fun c =>
        {c with refs := c.refs+1, sending := c.sending+1, thrown := c.thrown+1} with
      own := update x.own r (x.own r-1)}
    else none
  | .send s r =>
    if 0 < (x.share s r).sending then
      some {setShare x s r fun c => {c with sending := c.sending-1} with
        inbox := if x.alive s then update x.inbox s (x.inbox s++[r]) else x.inbox}
    else none
  | .receive s =>
    match x.inbox s with
    | r::rest => if x.alive s then
        some {setShare x s r fun c => {c with received := c.received+1} with
          inbox := update x.inbox s rest}
      else none
    | [] => none
  | .catchUp s r =>
    if x.alive s ∧ 0 < (x.share s r).received then
      some (setShare x s r fun c => {c with
        received := c.received-1, upped := c.upped+1, refsLocal := c.refsLocal+1})
    else none
  | .catchRef s r =>
    if x.alive s ∧ 0 < (x.share s r).upped then
      some (setShare x s r fun c => {c with
        upped := c.upped-1, held := c.held+1, refsCatch := c.refsCatch+1})
    else none
  | .slaveUp s r =>
    if x.alive s ∧ 0 < (x.share s r).held then
      some (setShare x s r fun c => {c with held := c.held+1, refsLocal := c.refsLocal+1})
    else none
  | .slaveDown s r =>
    if x.alive s ∧ 0 < (x.share s r).held then some (slaveRefDown x s r) else none
  | .exit s =>
    if x.alive s then some {x with
      alive := update x.alive s false
      outbox := update x.outbox s (x.outbox s++[.leave])}
    else none
  | .dispatch s =>
    match x.handling, x.outbox s with
    | none, m::rest => some (dispatch {x with outbox := update x.outbox s rest} s m)
    | _, _ => none
  | .refDown =>
    match x.handling with
    | some (s,r,false) => some {setShare x s r fun c => {c with returned := c.returned+1} with
        refs := update x.refs r (x.refs r-1)
        handling := some (s,r,true)}
    | _ => none
  | .finish =>
    match x.handling with
    | some (s,r,true) =>
      some {setShare x s r fun c => {c with refs := c.refs-1} with handling := none}
    | _ => none

def init (x : State σ ρ) : Prop :=
  x.own = x.refs ∧ (∀ r, x.destroyed r = false) ∧ (∀ s r, x.share s r = {}) ∧
  (∀ s, x.inbox s = []) ∧ (∀ s, x.outbox s = []) ∧ (∀ s, x.alive s) ∧ (∀ s, x.left s = false) ∧
  x.handling = none

def Kept (x : State σ ρ) : Event σ ρ → Prop
  | .throw s _ => x.left s = false
  | _ => True

def outstanding (x : State σ ρ) (s : σ) (r : ρ) : ℕ :=
  if x.alive s then
    (x.share s r).sending+(x.inbox s).count r+(x.share s r).received+(x.share s r).upped+
      (x.share s r).refsCatch
  else 0

structure Quiet (x : State σ ρ) : Prop where
  handling : x.handling = none
  outbox : ∀ s, x.outbox s = []
  slaves : ∀ s, x.alive s → x.inbox s = [] ∧ ∀ r, (x.share s r).sending = 0 ∧
    (x.share s r).received = 0 ∧ (x.share s r).refsLocal = 0

def handled (x : State σ ρ) (s : σ) (r : ρ) : ℕ :=
  match x.handling with
  | some (s',r',_) => if s = s' ∧ r = r' then 1 else 0
  | none => 0

def halfway (x : State σ ρ) (s : σ) (r : ρ) : ℕ :=
  match x.handling with
  | some (s',r',true) => if s = s' ∧ r = r' then 1 else 0
  | _ => 0

def calls (x : State σ ρ) (s : σ) (r : ρ) : ℕ :=
  (x.outbox s).count (.refsCall r)+handled x s r

theorem halfway_le_handled (x : State σ ρ) (s : σ) (r : ρ) : halfway x s r ≤ handled x s r := by
  unfold halfway handled
  rcases x.handling with _ | ⟨s',r',half⟩
  · exact le_rfl
  · cases half
    · exact Nat.zero_le _
    · exact le_rfl

theorem handled_none {x : State σ ρ} (h : x.handling = none) (s : σ) (r : ρ) :
    handled x s r = 0 ∧ halfway x s r = 0 := by
  unfold handled halfway
  rw [h]
  exact ⟨rfl,rfl⟩

structure Fair (alive left : Bool) (c : Share) (inbox calls half : ℕ) : Prop where
  threads : c.refsLocal = c.upped+c.held
  empty : c.refsLocal = 0 → c.refsCatch = 0
  caught : 0 < c.held → 0 < c.refsCatch
  counted : alive → c.refs = c.sending+inbox+c.received+c.upped+c.refsCatch+calls
  exited : alive = false → left = false → calls ≤ c.refs
  gone : left → c.refs = 0 ∧ calls = 0
  conserved : c.returned+c.refs = c.thrown+half

structure Leaving (alive left : Bool) (outbox : List (Message ρ)) : Prop where
  staying : alive → left = false ∧ .leave ∉ outbox
  exited : alive = false → left = false → ∃ l, outbox = l++[.leave] ∧ .leave ∉ l
  gone : left → alive = false ∧ outbox = []

theorem setShare_apply (x : State σ ρ) (s : σ) (r : ρ) (f : Share → Share) (s' : σ) (r' : ρ) :
    (setShare x s r f).share s' r' =
      if s' = s ∧ r' = r then f (x.share s r) else x.share s' r' := rfl

theorem Fair.setShare {x : State σ ρ} {s : σ} {r : ρ} {f : Share → Share} {inbox calls half : ℕ}
    {s' : σ} {r' : ρ} (hsame : ¬ (s' = s ∧ r' = r) →
      Fair (x.alive s') (x.left s') (x.share s' r') inbox calls half)
    (hchange : s' = s → r' = r → Fair (x.alive s) (x.left s) (f (x.share s r)) inbox calls half) :
    Fair (x.alive s') (x.left s') ((FusionTransfer.setShare x s r f).share s' r') inbox calls
      half := by
  rw [setShare_apply]
  split_ifs with h
  · obtain ⟨rfl,rfl⟩ := h
    exact hchange rfl rfl
  · exact hsame h

section Sum
variable [Fintype σ]

structure Inv (x : State σ ρ) : Prop where
  fair : ∀ s r, Fair (x.alive s) (x.left s) (x.share s r) ((x.inbox s).count r) (calls x s r)
    (halfway x s r)
  leaving : ∀ s, Leaving (x.alive s) (x.left s) (x.outbox s)
  master : ∀ r, x.refs r+∑ s, halfway x s r = x.own r+∑ s, (x.share s r).refs
  destroyed : ∀ r, x.destroyed r → x.refs r = 0

theorem sum_setShare (x : State σ ρ) (s : σ) (r : ρ) (f : Share → Share) (r' : ρ) :
    (∑ s', ((setShare x s r f).share s' r').refs)+(if r' = r then (x.share s r).refs else 0) =
      (∑ s', (x.share s' r').refs)+if r' = r then (f (x.share s r)).refs else 0 := by
  by_cases hr : r' = r
  · subst hr
    have herase : ∑ s' ∈ Finset.univ.erase s, ((setShare x s r' f).share s' r').refs =
        ∑ s' ∈ Finset.univ.erase s, (x.share s' r').refs := by
      refine Finset.sum_congr rfl fun s' hs' => ?_
      rw [setShare_apply,if_neg fun h => Finset.ne_of_mem_erase hs' h.1]
    rw [← Finset.add_sum_erase _ _ (Finset.mem_univ s),
      ← Finset.add_sum_erase _ (fun s' => (x.share s' r').refs) (Finset.mem_univ s),herase,
      setShare_apply,if_pos ⟨rfl,rfl⟩,if_pos rfl,if_pos rfl]
    omega
  · simp [setShare_apply,hr]

theorem sum_setShare_of_refs (x : State σ ρ) (s : σ) (r : ρ) {f : Share → Share}
    (hf : (f (x.share s r)).refs = (x.share s r).refs) (r' : ρ) :
    ∑ s', ((setShare x s r f).share s' r').refs = ∑ s', (x.share s' r').refs := by
  have := sum_setShare x s r f r'
  rw [hf] at this
  omega

theorem Inv.init {x : State σ ρ} (h : init x) : Inv x := by
  obtain ⟨hown,hdes,hshare,hin,hout,halive,hleft,hhand⟩ := h
  have hcalls : ∀ s r, calls x s r = 0 := by simp [calls,handled,hhand,hout]
  have hhalf : ∀ s r, halfway x s r = 0 := by simp [halfway,hhand]
  constructor
  · intro s r
    rw [hshare,hin,hcalls,hhalf,hleft]
    constructor <;> simp
  · intro s
    rw [halive,hleft,hout]
    constructor <;> simp
  · intro r
    simp [hhalf,hshare,hown]
  · intro r hr
    rw [hdes r] at hr
    cases hr

theorem Inv.calls_le {x : State σ ρ} (h : Inv x) (s : σ) (r : ρ) :
    calls x s r ≤ (x.share s r).refs := by
  have hfair := h.fair s r
  cases ha : x.alive s with
  | true =>
    have := hfair.counted ha
    omega
  | false =>
    cases hl : x.left s with
    | true =>
      have := hfair.gone hl
      omega
    | false => exact hfair.exited ha hl

theorem Inv.halfway_le {x : State σ ρ} (h : Inv x) (s : σ) (r : ρ) :
    halfway x s r ≤ (x.share s r).refs :=
  (halfway_le_handled x s r).trans ((Nat.le_add_left _ _).trans (h.calls_le s r))

/-- All that slaves hold or that is on its way to them is counted by the master. -/
theorem Inv.outstanding_le {x : State σ ρ} (h : Inv x) (r : ρ) :
    ∑ s, outstanding x s r ≤ x.refs r := by
  have hle : ∀ s, outstanding x s r+halfway x s r ≤ (x.share s r).refs := by
    intro s
    have hfair := h.fair s r
    have hhalf := halfway_le_handled x s r
    have hcalls : handled x s r ≤ calls x s r := Nat.le_add_left _ _
    unfold outstanding
    split_ifs with ha
    · have := hfair.counted ha
      omega
    · have := h.halfway_le s r
      omega
  have hsum : ∑ s, (outstanding x s r+halfway x s r) ≤ ∑ s, (x.share s r).refs :=
    Finset.sum_le_sum fun s _ => hle s
  rw [Finset.sum_add_distrib] at hsum
  have := h.master r
  omega

theorem Inv.own_le {x : State σ ρ} (h : Inv x) (r : ρ) : x.own r ≤ x.refs r := by
  have hle : ∑ s, halfway x s r ≤ ∑ s, (x.share s r).refs :=
    Finset.sum_le_sum fun s _ => h.halfway_le s r
  have := h.master r
  omega

/-- The references of a live object are counted together with those of the master. -/
theorem Inv.recount {x : State σ ρ} {r : ρ} (h : Inv x) (hr : 0 < x.refs r) {m n : ℕ}
    (hbalance : m+x.own r = n+x.refs r) :
    Inv {x with refs := update x.refs r m, own := update x.own r n} where
  fair := h.fair
  leaving := h.leaving
  master r' := by
    have hm := h.master r'
    change update x.refs r m r'+∑ s, halfway x s r' = update x.own r n r'+∑ s, (x.share s r').refs
    rcases eq_or_ne r' r with rfl | hne
    · rw [update_self,update_self]
      omega
    · rwa [update_of_ne hne,update_of_ne hne]
  destroyed r' hd := by
    have hz := h.destroyed r' hd
    rcases eq_or_ne r' r with rfl | hne
    · omega
    · simpa [update_of_ne hne] using hz

theorem Inv.up {x : State σ ρ} {r : ρ} (h : Inv x) (hr : 0 < x.refs r) : Inv {x with
    refs := update x.refs r (x.refs r+1)
    own := update x.own r (x.own r+1)} :=
  h.recount hr (by omega)

theorem Inv.down {x : State σ ρ} {r : ρ} (h : Inv x) (hr : 0 < x.own r) : Inv {x with
    refs := update x.refs r (x.refs r-1)
    own := update x.own r (x.own r-1)} := by
  have hle := h.own_le r
  exact h.recount (by omega) (by omega)

theorem Inv.destroy {x : State σ ρ} {r : ρ} (h : Inv x) (hr : x.refs r = 0) :
    Inv {x with destroyed := update x.destroyed r true} where
  fair := h.fair
  leaving := h.leaving
  master := h.master
  destroyed r' hd := by
    rcases eq_or_ne r' r with rfl | hne
    · exact hr
    · exact h.destroyed r' (by simpa [update_of_ne hne] using hd)

theorem Inv.throw {x : State σ ρ} {s : σ} {r : ρ} (h : Inv x) (hr : 0 < x.own r)
    (hleft : x.left s = false) : Inv {setShare x s r fun c =>
        {c with refs := c.refs+1, sending := c.sending+1, thrown := c.thrown+1} with
      own := update x.own r (x.own r-1)} where
  fair s' r' := by
    change Fair (x.alive s') (x.left s') ((setShare x s r fun c =>
        {c with refs := c.refs+1, sending := c.sending+1, thrown := c.thrown+1}).share s' r')
      ((x.inbox s').count r') (calls x s' r') (halfway x s' r')
    refine Fair.setShare (fun _ => h.fair s' r') fun hs hr => ?_
    subst hs hr
    obtain ⟨h1,h2,h3,h4,h5,h6,h7⟩ := h.fair s' r'
    refine ⟨h1,h2,h3,fun ha => ?_,fun ha hl => (h5 ha hl).trans (Nat.le_succ _),fun hl => ?_,?_⟩
    · have := h4 ha
      dsimp only
      omega
    · rw [hleft] at hl
      cases hl
    · dsimp only
      omega
  leaving := h.leaving
  master r' := by
    have hm := h.master r'
    have hsum := sum_setShare x s r (fun c =>
      {c with refs := c.refs+1, sending := c.sending+1, thrown := c.thrown+1}) r'
    change x.refs r'+∑ s, halfway x s r' = update x.own r (x.own r-1) r'+
      ∑ s', ((setShare x s r fun c =>
        {c with refs := c.refs+1, sending := c.sending+1, thrown := c.thrown+1}).share s' r').refs
    rcases eq_or_ne r' r with rfl | hne
    · rw [update_self]
      simp only [if_true] at hsum
      omega
    · rw [update_of_ne hne]
      simp only [hne,if_false] at hsum
      omega
  destroyed := h.destroyed

/-- A step that changes what is kept for one slave about one reference and what is sent to
it, but neither the counter of the master nor the messages of the slave. -/
theorem Inv.share {x : State σ ρ} {s : σ} {r : ρ} {f : Share → Share} {inbox : σ → List ρ}
    (h : Inv x) (hrefs : (f (x.share s r)).refs = (x.share s r).refs)
    (hinbox : ∀ s' r', ¬ (s' = s ∧ r' = r) → (inbox s').count r' = (x.inbox s').count r')
    (hfair : Fair (x.alive s) (x.left s) (f (x.share s r)) ((inbox s).count r) (calls x s r)
      (halfway x s r)) : Inv {setShare x s r f with inbox := inbox} where
  fair s' r' := by
    change Fair (x.alive s') (x.left s') ((setShare x s r f).share s' r')
      ((inbox s').count r') (calls x s' r') (halfway x s' r')
    refine Fair.setShare (fun hne => ?_) fun hs hr => ?_
    · rw [hinbox s' r' hne]
      exact h.fair s' r'
    · subst hs hr
      exact hfair
  leaving := h.leaving
  master r' := by
    change x.refs r'+∑ s, halfway x s r' = x.own r'+∑ s', ((setShare x s r f).share s' r').refs
    rw [sum_setShare_of_refs x s r hrefs r']
    exact h.master r'
  destroyed := h.destroyed

theorem Inv.counters {x : State σ ρ} {s : σ} {r : ρ} {f : Share → Share} (h : Inv x)
    (hrefs : (f (x.share s r)).refs = (x.share s r).refs)
    (hfair : Fair (x.alive s) (x.left s) (f (x.share s r)) ((x.inbox s).count r) (calls x s r)
      (halfway x s r)) : Inv (setShare x s r f) :=
  h.share hrefs (fun _ _ _ => rfl) hfair

theorem Inv.send {x : State σ ρ} {s : σ} {r : ρ} (h : Inv x) (hs : 0 < (x.share s r).sending) :
    Inv {setShare x s r fun c => {c with sending := c.sending-1} with
      inbox := if x.alive s then update x.inbox s (x.inbox s++[r]) else x.inbox} := by
  refine h.share rfl (fun s' r' hne => ?_) ?_
  · split_ifs
    · rcases eq_or_ne s' s with rfl | hs
      · have hr : ¬ r = r' := fun hr => hne ⟨rfl,hr.symm⟩
        simp [update_self,hr]
      · rw [update_of_ne hs]
    · rfl
  · obtain ⟨h1,h2,h3,h4,h5,h6,h7⟩ := h.fair s r
    refine ⟨h1,h2,h3,fun ha => ?_,h5,h6,h7⟩
    have := h4 ha
    rw [if_pos ha,update_self,List.count_append,List.count_singleton_self]
    dsimp only
    omega

theorem Inv.receive {x : State σ ρ} {s : σ} {r : ρ} {rest : List ρ} (h : Inv x)
    (hin : x.inbox s = r::rest) :
    Inv {setShare x s r fun c => {c with received := c.received+1} with
      inbox := update x.inbox s rest} := by
  refine h.share rfl (fun s' r' hne => ?_) ?_
  · rcases eq_or_ne s' s with rfl | hs
    · have hr : ¬ r = r' := fun hr => hne ⟨rfl,hr.symm⟩
      simp [hin,hr]
    · rw [update_of_ne hs]
  · obtain ⟨h1,h2,h3,h4,h5,h6,h7⟩ := h.fair s r
    refine ⟨h1,h2,h3,fun ha => ?_,h5,h6,h7⟩
    have := h4 ha
    rw [hin,List.count_cons_self] at this
    rw [update_self]
    dsimp only
    omega

theorem Inv.catchUp {x : State σ ρ} {s : σ} {r : ρ} (h : Inv x)
    (hs : 0 < (x.share s r).received) : Inv (setShare x s r fun c => {c with
      received := c.received-1, upped := c.upped+1, refsLocal := c.refsLocal+1}) := by
  refine h.counters rfl ?_
  obtain ⟨h1,h2,h3,h4,h5,h6,h7⟩ := h.fair s r
  refine ⟨?_,fun hz => absurd hz (Nat.succ_ne_zero _),h3,fun ha => ?_,h5,h6,h7⟩
  · dsimp only
    omega
  · have := h4 ha
    dsimp only
    omega

theorem Inv.catchRef {x : State σ ρ} {s : σ} {r : ρ} (h : Inv x)
    (hs : 0 < (x.share s r).upped) : Inv (setShare x s r fun c => {c with
      upped := c.upped-1, held := c.held+1, refsCatch := c.refsCatch+1}) := by
  refine h.counters rfl ?_
  obtain ⟨h1,h2,h3,h4,h5,h6,h7⟩ := h.fair s r
  refine ⟨?_,fun hz => ?_,fun _ => Nat.succ_pos _,fun ha => ?_,h5,h6,h7⟩
  · dsimp only
    omega
  · dsimp only at hz
    omega
  · have := h4 ha
    dsimp only
    omega

theorem Inv.slaveUp {x : State σ ρ} {s : σ} {r : ρ} (h : Inv x)
    (hs : 0 < (x.share s r).held) : Inv (setShare x s r fun c => {c with
      held := c.held+1, refsLocal := c.refsLocal+1}) := by
  refine h.counters rfl ?_
  obtain ⟨h1,h2,h3,h4,h5,h6,h7⟩ := h.fair s r
  refine ⟨?_,fun hz => absurd hz (Nat.succ_ne_zero _),fun _ => h3 hs,h4,h5,h6,h7⟩
  dsimp only
  omega

theorem Inv.slaveDown {x : State σ ρ} {s : σ} {r : ρ} (h : Inv x) (ha : x.alive s)
    (hs : 0 < (x.share s r).held) : Inv (slaveRefDown x s r) := by
  obtain ⟨h1,h2,h3,h4,h5,h6,h7⟩ := h.fair s r
  unfold slaveRefDown
  dsimp only
  split_ifs with hz
  · constructor
    · intro s' r'
      change Fair (x.alive s') (x.left s') ((setShare x s r fun c =>
          {c with refsLocal := 0, refsCatch := 0, held := c.held-1}).share s' r')
        ((x.inbox s').count r') ((update x.outbox s (x.outbox s++
          List.replicate (x.share s r).refsCatch (.refsCall r)) s').count (.refsCall r')+
          handled x s' r') (halfway x s' r')
      refine Fair.setShare (fun hne => ?_) fun hs hr => ?_
      · have hcalls : (update x.outbox s (x.outbox s++
            List.replicate (x.share s r).refsCatch (.refsCall r)) s').count (.refsCall r') =
            (x.outbox s').count (.refsCall r') := by
          rcases eq_or_ne s' s with rfl | hs
          · have hr : ¬ r = r' := fun hr => hne ⟨rfl,hr.symm⟩
            simp [List.count_replicate,hr]
          · rw [update_of_ne hs]
        rw [hcalls]
        exact h.fair s' r'
      · subst hs hr
        rw [update_self,List.count_append,List.count_replicate_self]
        have hc := h4 ha
        unfold calls at hc
        refine ⟨?_,fun _ => rfl,fun hp => ?_,fun _ => ?_,fun hd => ?_,fun hl => ?_,h7⟩
        · dsimp only
          omega
        · dsimp only at hp
          omega
        · dsimp only
          omega
        · rw [ha] at hd
          cases hd
        · have := (h.leaving s').gone hl
          rw [ha] at this
          cases this.1
    · intro s'
      change Leaving (x.alive s') (x.left s') (update x.outbox s (x.outbox s++
          List.replicate (x.share s r).refsCatch (.refsCall r)) s')
      rcases eq_or_ne s' s with rfl | hs
      · have hstay := (h.leaving s').staying ha
        rw [update_self,ha,hstay.1]
        refine ⟨fun _ => ⟨rfl,?_⟩,fun hd => (by cases hd),fun hl => (by cases hl)⟩
        simp [hstay.2,List.mem_replicate]
      · rw [update_of_ne hs]
        exact h.leaving s'
    · intro r'
      change x.refs r'+∑ s, halfway x s r' = x.own r'+∑ s', ((setShare x s r fun c =>
          {c with refsLocal := 0, refsCatch := 0, held := c.held-1}).share s' r').refs
      rw [sum_setShare_of_refs x s r rfl r']
      exact h.master r'
    · exact h.destroyed
  · refine h.counters rfl ?_
    have := h3 hs
    refine ⟨?_,fun hl => absurd hl hz,fun _ => this,h4,h5,h6,h7⟩
    dsimp only
    omega

theorem Inv.exit {x : State σ ρ} {s : σ} (h : Inv x) (ha : x.alive s) : Inv {x with
    alive := update x.alive s false
    outbox := update x.outbox s (x.outbox s++[.leave])} where
  fair s' r' := by
    change Fair (update x.alive s false s') (x.left s') (x.share s' r')
      ((x.inbox s').count r') ((update x.outbox s (x.outbox s++[.leave]) s').count
        (.refsCall r')+handled x s' r') (halfway x s' r')
    rcases eq_or_ne s' s with rfl | hs
    · have hcount : (x.outbox s'++[Message.leave]).count (Message.refsCall r') =
          (x.outbox s').count (.refsCall r') := by
        simp
      rw [update_self,update_self,hcount]
      obtain ⟨h1,h2,h3,h4,h5,h6,h7⟩ := h.fair s' r'
      refine ⟨h1,h2,h3,fun hd => (by cases hd),fun _ _ => ?_,h6,h7⟩
      have := h4 ha
      unfold calls at this
      omega
    · rw [update_of_ne hs,update_of_ne hs]
      exact h.fair s' r'
  leaving s' := by
    change Leaving (update x.alive s false s') (x.left s')
      (update x.outbox s (x.outbox s++[.leave]) s')
    rcases eq_or_ne s' s with rfl | hs
    · have hstay := (h.leaving s').staying ha
      rw [update_self,update_self,hstay.1]
      exact ⟨fun hd => (by cases hd),fun _ _ => ⟨x.outbox s',rfl,hstay.2⟩,fun hl => (by cases hl)⟩
    · rw [update_of_ne hs,update_of_ne hs]
      exact h.leaving s'
  master := h.master
  destroyed := h.destroyed

theorem Inv.not_left {x : State σ ρ} {s : σ} {m : Message ρ} {rest : List (Message ρ)} (h : Inv x)
    (hout : x.outbox s = m::rest) : x.left s = false := by
  by_contra hl
  have := ((h.leaving s).gone (by simpa using hl)).2
  rw [hout] at this
  cases this

theorem Inv.dispatch_call {x : State σ ρ} {s : σ} {r : ρ} {rest : List (Message ρ)} (h : Inv x)
    (hhand : x.handling = none) (hout : x.outbox s = .refsCall r::rest) : Inv {x with
      outbox := update x.outbox s rest
      handling := some (s,r,false)} where
  fair s' r' := by
    have hcalls : calls {x with
        outbox := update x.outbox s rest
        handling := some (s,r,false)} s' r' = calls x s' r' := by
      unfold calls
      rw [(handled_none hhand s' r').1]
      unfold handled
      dsimp only
      rcases eq_or_ne s' s with rfl | hs
      · rw [update_self,hout,List.count_cons]
        simp only [beq_iff_eq,Message.refsCall.injEq,true_and,eq_comm (a := r)]
        omega
      · rw [update_of_ne hs,if_neg fun h => hs h.1]
    have hhalf : halfway {x with
        outbox := update x.outbox s rest
        handling := some (s,r,false)} s' r' = halfway x s' r' := by
      rw [(handled_none hhand s' r').2]
      rfl
    rw [hcalls,hhalf]
    exact h.fair s' r'
  leaving s' := by
    change Leaving (x.alive s') (x.left s') (update x.outbox s rest s')
    rcases eq_or_ne s' s with rfl | hs
    · have hleft := h.not_left hout
      obtain ⟨h1,h2,h3⟩ := h.leaving s'
      rw [update_self]
      rw [hout] at h1 h2
      refine ⟨fun ha => ⟨hleft,fun hm => (h1 ha).2 (List.mem_cons_of_mem _ hm)⟩,fun ha hl => ?_,
        fun hl => ?_⟩
      · obtain ⟨l,hl,hm⟩ := h2 ha hl
        cases l with
        | nil => cases hl
        | cons m l =>
          cases hl
          exact ⟨l,rfl,fun h => hm (List.mem_cons_of_mem _ h)⟩
      · rw [hleft] at hl
        cases hl
    · rw [update_of_ne hs]
      exact h.leaving s'
  master r' := by
    have hm := h.master r'
    have hzero : ∑ s, halfway x s r' = 0 := Finset.sum_eq_zero fun s _ =>
      (handled_none hhand s r').2
    have hnew : ∑ s', halfway {x with
        outbox := update x.outbox s rest
        handling := some (s,r,false)} s' r' = 0 := Finset.sum_eq_zero fun s _ => rfl
    refine (congrArg (x.refs r'+·) hnew).trans ?_
    rw [← hzero]
    exact hm
  destroyed := h.destroyed

/-- The entry for a slave that left was removed, with all that it was to return. -/
theorem Inv.refsIterate {x : State σ ρ} {s : σ} {rest : List (Message ρ)} (h : Inv x)
    (hhand : x.handling = none) (hout : x.outbox s = .leave::rest) :
    Inv (refsIterate {x with outbox := update x.outbox s rest} s) := by
  have halive : x.alive s = false := by
    by_contra ha
    have := ((h.leaving s).staying (by simpa using ha)).2
    rw [hout] at this
    exact this List.mem_cons_self
  have hrest : rest = [] := by
    obtain ⟨l,hl,hm⟩ := (h.leaving s).exited halive (h.not_left hout)
    rw [hout] at hl
    cases l with
    | nil =>
      cases hl
      rfl
    | cons m l =>
      cases hl
      exact absurd List.mem_cons_self hm
  subst hrest
  constructor
  · intro s' r'
    change Fair (x.alive s') (update x.left s true s') (if s' = s then {x.share s r' with
        refs := 0, returned := (x.share s r').returned+(x.share s r').refs} else x.share s' r')
      ((x.inbox s').count r') ((update x.outbox s [] s').count (.refsCall r')+
        handled x s' r') (halfway x s' r')
    rcases eq_or_ne s' s with rfl | hs
    · obtain ⟨h1,h2,h3,h4,h5,h6,h7⟩ := h.fair s' r'
      rw [if_pos rfl,update_self,update_self,(handled_none hhand s' r').1]
      refine ⟨h1,h2,h3,fun ha => ?_,fun _ hl => (by cases hl),fun _ => ⟨rfl,rfl⟩,h7⟩
      rw [halive] at ha
      cases ha
    · rw [if_neg hs,update_of_ne hs,update_of_ne hs]
      exact h.fair s' r'
  · intro s'
    change Leaving (x.alive s') (update x.left s true s') (update x.outbox s [] s')
    rcases eq_or_ne s' s with rfl | hs
    · rw [update_self,update_self,halive]
      exact ⟨fun ha => (by cases ha),fun _ hl => (by cases hl),fun _ => ⟨rfl,rfl⟩⟩
    · rw [update_of_ne hs,update_of_ne hs]
      exact h.leaving s'
  · intro r'
    have hm := h.master r'
    change x.refs r'-(x.share s r').refs+∑ s, halfway x s r' = x.own r'+
      ∑ s', (if s' = s then {x.share s r' with
        refs := 0, returned := (x.share s r').returned+(x.share s r').refs}
        else x.share s' r').refs
    have hsum : ∑ s', (if s' = s then {x.share s r' with
        refs := 0, returned := (x.share s r').returned+(x.share s r').refs}
        else x.share s' r').refs+(x.share s r').refs = ∑ s', (x.share s' r').refs := by
      rw [← Finset.sum_erase_add _ _ (Finset.mem_univ s),
        ← Finset.sum_erase_add _ (fun s' => (x.share s' r').refs) (Finset.mem_univ s),if_pos rfl]
      congr 1
      refine Finset.sum_congr rfl fun s' hs' => ?_
      rw [if_neg (Finset.ne_of_mem_erase hs')]
    have hzero : ∑ s, halfway x s r' = 0 := Finset.sum_eq_zero fun s _ =>
      (handled_none hhand s r').2
    omega
  · intro r' hd
    have hz : x.refs r' = 0 := h.destroyed r' hd
    change x.refs r'-_ = 0
    omega

/-- The reference that a slave returned is dropped, but still counted for the slave. -/
theorem Inv.refDown {x : State σ ρ} {s : σ} {r : ρ} (h : Inv x)
    (hhand : x.handling = some (s,r,false)) :
    Inv {setShare x s r fun c => {c with returned := c.returned+1} with
      refs := update x.refs r (x.refs r-1)
      handling := some (s,r,true)} := by
  have hhalf : ∀ s' r', halfway x s' r' = 0 := by simp [halfway,hhand]
  have hcall : 1 ≤ (x.share s r).refs := by
    have hle := h.calls_le s r
    have : handled x s r = 1 := by simp [handled,hhand]
    unfold calls at hle
    omega
  constructor
  · intro s' r'
    have hcalls : handled x s' r' = if s' = s ∧ r' = r then 1 else 0 := by
      unfold handled
      rw [hhand]
    change Fair (x.alive s') (x.left s')
      ((setShare x s r fun c => {c with returned := c.returned+1}).share s' r')
      ((x.inbox s').count r') ((x.outbox s').count (.refsCall r')+
        if s' = s ∧ r' = r then 1 else 0) (if s' = s ∧ r' = r then 1 else 0)
    rw [← hcalls]
    refine Fair.setShare (fun hne => ?_) fun hs hr => ?_
    · have hfair := h.fair s' r'
      rw [if_neg hne] at hcalls
      unfold calls at hfair
      rw [hhalf,hcalls] at hfair
      rwa [hcalls]
    · subst hs hr
      obtain ⟨h1,h2,h3,h4,h5,h6,h7⟩ := h.fair s' r'
      refine ⟨h1,h2,h3,h4,h5,h6,?_⟩
      rw [hhalf] at h7
      rw [hcalls,if_pos ⟨rfl,rfl⟩]
      dsimp only
      omega
  · exact h.leaving
  · intro r'
    have hm := h.master r'
    have hle : (x.share s r').refs ≤ ∑ s, (x.share s r').refs :=
      Finset.single_le_sum (f := fun s => (x.share s r').refs) (fun _ _ => Nat.zero_le _)
        (Finset.mem_univ s)
    have hzero : ∑ s, halfway x s r' = 0 := Finset.sum_eq_zero fun s _ => hhalf s r'
    change update x.refs r (x.refs r-1) r'+ ∑ s', (if s' = s ∧ r' = r then 1 else 0) = x.own r'+
        ∑ s', ((setShare x s r fun c => {c with returned := c.returned+1}).share s' r').refs
    rw [sum_setShare_of_refs x s r rfl r']
    rcases eq_or_ne r' r with rfl | hne
    · rw [update_self]
      simp only [and_true,Finset.sum_ite_eq',Finset.mem_univ,if_true]
      omega
    · rw [update_of_ne hne]
      simp only [hne,and_false,if_false,Finset.sum_const_zero]
      omega
  · intro r' hd
    have hz := h.destroyed r' hd
    rcases eq_or_ne r' r with rfl | hne
    · simp [hz]
    · simpa [update_of_ne hne] using hz

theorem Inv.finish {x : State σ ρ} {s : σ} {r : ρ} (h : Inv x)
    (hhand : x.handling = some (s,r,true)) :
    Inv {setShare x s r fun c => {c with refs := c.refs-1} with handling := none} := by
  have hone : handled x s r = 1 ∧ halfway x s r = 1 := by simp [handled,halfway,hhand]
  have hle := h.calls_le s r
  constructor
  · intro s' r'
    change Fair (x.alive s') (x.left s')
      ((setShare x s r fun c => {c with refs := c.refs-1}).share s' r')
      ((x.inbox s').count r') ((x.outbox s').count (.refsCall r')+0) 0
    refine Fair.setShare (fun hne => ?_) fun hs hr => ?_
    · have hzero : handled x s' r' = 0 ∧ halfway x s' r' = 0 := by
        simp [handled,halfway,hhand,hne]
      have hfair := h.fair s' r'
      unfold calls at hfair
      rwa [hzero.1,hzero.2] at hfair
    · subst hs hr
      obtain ⟨h1,h2,h3,h4,h5,h6,h7⟩ := h.fair s' r'
      unfold calls at h4 h5 h6 hle
      rw [hone.1] at h4 h5 h6 hle
      rw [hone.2] at h7
      refine ⟨h1,h2,h3,fun ha => ?_,fun ha hl => ?_,fun hl => ?_,?_⟩
      · have := h4 ha
        dsimp only
        omega
      · have := h5 ha hl
        dsimp only
        omega
      · have := h6 hl
        omega
      · dsimp only
        omega
  · exact h.leaving
  · intro r'
    have hm := h.master r'
    have hsum := sum_setShare x s r (fun c => {c with refs := c.refs-1}) r'
    have hhalf : ∑ s', halfway x s' r' = if r' = r then 1 else 0 := by
      simp only [halfway,hhand]
      by_cases hr : r' = r <;> simp [hr]
    have hzero : ∑ s', halfway {setShare x s r fun c => {c with refs := c.refs-1} with
        handling := none} s' r' = 0 := Finset.sum_eq_zero fun _ _ => rfl
    refine (congrArg (x.refs r'+·) hzero).trans ?_
    change x.refs r'+0 = x.own r'+
      ∑ s', ((setShare x s r fun c => {c with refs := c.refs-1}).share s' r').refs
    unfold calls at hle
    rw [hone.1] at hle
    rw [hhalf] at hm
    dsimp only at hsum
    split_ifs at hm hsum <;> omega
  · exact h.destroyed

theorem Inv.dispatch {x : State σ ρ} {s : σ} {m : Message ρ} {rest : List (Message ρ)}
    (h : Inv x) (hhand : x.handling = none) (hout : x.outbox s = m::rest) :
    Inv (FusionTransfer.dispatch {x with outbox := update x.outbox s rest} s m) := by
  cases m with
  | refsCall r =>
    have hentry : (x.share s r).refs ≠ 0 := by
      have hle := h.calls_le s r
      unfold calls at hle
      rw [hout,List.count_cons_self] at hle
      omega
    exact (congrArg Inv (if_neg hentry)).mpr (h.dispatch_call hhand hout)
  | leave => exact h.refsIterate hhand hout

theorem Inv.step {x x' : State σ ρ} {e : Event σ ρ} (h : Inv x) (hkept : Kept x e)
    (hs : step x e = some x') : Inv x' := by
  cases e with
  | up r =>
    obtain ⟨hr,hx⟩ := Option.ite_none_right_eq_some.mp hs
    exact Option.some.inj hx ▸ h.up hr
  | down r =>
    obtain ⟨hr,hx⟩ := Option.ite_none_right_eq_some.mp hs
    exact Option.some.inj hx ▸ h.down hr
  | destroy r =>
    obtain ⟨hr,hx⟩ := Option.ite_none_right_eq_some.mp hs
    exact Option.some.inj hx ▸ h.destroy hr
  | throw s r =>
    obtain ⟨hr,hx⟩ := Option.ite_none_right_eq_some.mp hs
    exact Option.some.inj hx ▸ h.throw hr hkept
  | send s r =>
    obtain ⟨hr,hx⟩ := Option.ite_none_right_eq_some.mp hs
    exact Option.some.inj hx ▸ h.send hr
  | receive s =>
    simp only [FusionTransfer.step] at hs
    split at hs
    · next r rest hin =>
      obtain ⟨_,hx⟩ := Option.ite_none_right_eq_some.mp hs
      exact Option.some.inj hx ▸ h.receive hin
    · cases hs
  | catchUp s r =>
    obtain ⟨hr,hx⟩ := Option.ite_none_right_eq_some.mp hs
    exact Option.some.inj hx ▸ h.catchUp hr.2
  | catchRef s r =>
    obtain ⟨hr,hx⟩ := Option.ite_none_right_eq_some.mp hs
    exact Option.some.inj hx ▸ h.catchRef hr.2
  | slaveUp s r =>
    obtain ⟨hr,hx⟩ := Option.ite_none_right_eq_some.mp hs
    exact Option.some.inj hx ▸ h.slaveUp hr.2
  | slaveDown s r =>
    obtain ⟨hr,hx⟩ := Option.ite_none_right_eq_some.mp hs
    exact Option.some.inj hx ▸ h.slaveDown hr.1 hr.2
  | exit s =>
    obtain ⟨ha,hx⟩ := Option.ite_none_right_eq_some.mp hs
    exact Option.some.inj hx ▸ h.exit ha
  | dispatch s =>
    simp only [FusionTransfer.step] at hs
    split at hs
    · next m rest hhand hout => exact Option.some.inj hs ▸ h.dispatch hhand hout
    · cases hs
  | refDown =>
    simp only [FusionTransfer.step] at hs
    split at hs
    · next s r hhand => exact Option.some.inj hs ▸ h.refDown hhand
    · cases hs
  | finish =>
    simp only [FusionTransfer.step] at hs
    split at hs
    · next s r hhand => exact Option.some.inj hs ▸ h.finish hhand
    · cases hs

theorem Inv.returned_le {x : State σ ρ} (h : Inv x) (s : σ) (r : ρ) :
    (x.share s r).returned ≤ (x.share s r).thrown := by
  have := (h.fair s r).conserved
  have := h.halfway_le s r
  omega

/-- A slave that holds an object holds or catches a reference that was thrown to it. -/
theorem Inv.alive {x : State σ ρ} (h : Inv x) {s : σ} {r : ρ} (ha : x.alive s)
    (hlocal : 0 < (x.share s r).refsLocal) : 0 < x.refs r := by
  have hfair := h.fair s r
  have hpos : 0 < outstanding x s r := by
    unfold outstanding
    rw [if_pos ha]
    rcases Nat.eq_zero_or_pos (x.share s r).held with hz | hp
    · have := hfair.threads
      omega
    · have := hfair.caught hp
      omega
  have hle : outstanding x s r ≤ ∑ s, outstanding x s r :=
    Finset.single_le_sum (f := fun s => outstanding x s r) (fun _ _ => Nat.zero_le _)
      (Finset.mem_univ s)
  have := h.outstanding_le r
  omega

theorem Inv.returned {x : State σ ρ} (h : Inv x) (hquiet : Quiet x) (s : σ) (r : ρ) :
    (x.share s r).returned = (x.share s r).thrown := by
  have hfair := h.fair s r
  have hnone := handled_none hquiet.handling s r
  have hrefs : (x.share s r).refs = 0 := by
    cases ha : x.alive s with
    | true =>
      obtain ⟨hin,hslave⟩ := hquiet.slaves s ha
      obtain ⟨hsend,hrec,hlocal⟩ := hslave r
      have hcatch := hfair.empty hlocal
      have hthreads := hfair.threads
      have hcount := hfair.counted ha
      have hcalls : calls x s r = 0 := by
        rw [calls,hquiet.outbox s,hnone.1]
        rfl
      rw [hin,List.count_nil] at hcount
      omega
    | false =>
      cases hl : x.left s with
      | true => exact (hfair.gone hl).1
      | false =>
        obtain ⟨l,hout,_⟩ := (h.leaving s).exited ha hl
        rw [hquiet.outbox s] at hout
        simp at hout
  have := hfair.conserved
  omega

/-- As long as nothing is thrown to a slave whose exit was handled, the master counts all
that slaves hold or that is on its way to them, no object is destroyed that a slave holds,
and in the end all that was thrown was returned. -/
theorem transfer_counts {x : State σ ρ} (h : Reaches step Kept init x) :
    (∀ r, ∑ s, outstanding x s r ≤ x.refs r) ∧
    (∀ s r, x.alive s → 0 < (x.share s r).refsLocal → 0 < x.refs r ∧ x.destroyed r = false) ∧
    (∀ s r, (x.share s r).returned ≤ (x.share s r).thrown) ∧
    (Quiet x → ∀ s r, (x.share s r).returned = (x.share s r).thrown) := by
  have hinv : Inv x := h.invariant Inv (fun _ => Inv.init) fun _ _ _ hi hk hs => hi.step hk hs
  refine ⟨hinv.outstanding_le,fun s r ha hl => ?_,hinv.returned_le,hinv.returned⟩
  have hpos := hinv.alive ha hl
  refine ⟨hpos,?_⟩
  by_contra hd
  have := hinv.destroyed r (by simpa using hd)
  omega

end Sum

def start : State (Fin 2) (Fin 1) :=
  ⟨fun _ => 1,fun _ => 1,fun _ => false,fun _ _ => {},fun _ => [],fun _ => [],fun _ => true,
    fun _ => false,none⟩

theorem init_start : init start := by
  refine ⟨?_,?_,?_,?_,?_,?_,?_,?_⟩ <;> simp [start]

/-- An object is handed over to one slave, and the other exits. -/
theorem hand_over_counts : ∃ x : State (Fin 2) (Fin 1), Reaches step Kept init x ∧ Quiet x ∧
    ∀ s r, (x.share s r).returned = (x.share s r).thrown := by
  have h0 : Reaches step Kept init start := .init init_start
  have h1 := h0.step (Event.up 0) trivial rfl
  have h2 := h1.step (Event.throw 0 0) rfl rfl
  have h3 := h2.step (Event.send 0 0) trivial rfl
  have h4 := h3.step (Event.receive 0) trivial rfl
  have h5 := h4.step (Event.catchUp 0 0) trivial rfl
  have h6 := h5.step (Event.catchRef 0 0) trivial rfl
  have h7 := h6.step (Event.slaveDown 0 0) trivial rfl
  have h8 := h7.step (Event.exit 1) trivial rfl
  have h9 := h8.step (Event.dispatch 0) trivial rfl
  have h10 := h9.step Event.refDown trivial rfl
  have h11 := h10.step Event.finish trivial rfl
  have h12 := h11.step (Event.dispatch 1) trivial rfl
  refine ⟨_,h12,⟨rfl,by decide,by decide⟩,?_⟩
  exact (transfer_counts h12).2.2.2 ⟨rfl,by decide,by decide⟩

/-- A reference thrown to a slave that already left is never returned. -/
theorem thrown_to_left : ∃ x, exec step start
    [.exit 0,.dispatch 0,.up 0,.throw 0 0,.send 0 0] = some x ∧ Quiet x ∧
    (x.share 0 0).thrown = 1 ∧ (x.share 0 0).returned = 0 :=
  ⟨_,rfl,⟨rfl,by decide,by decide⟩,rfl,rfl⟩

end DirectFB.FusionTransfer
