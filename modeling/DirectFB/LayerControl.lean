import DirectFB.Reaches
import DirectFB.Types

/-! The contexts of a layer: a stack of them, the index of the active one, and the contexts which
are in fact activated. -/
namespace DirectFB.LayerControl
open Transition

/-- The shared data of a layer. Contexts are numbered as they are created, `activated` is
`context->active`, and a context without references does not exist. -/
structure CoreLayer where
  stack : List ℕ
  active : ℤ
  primary : Option ℕ
  suspended : Bool
  activated : ℕ → Bool
  refs : ℕ → ℕ
  created : ℕ
  lock : ℕ
  locks : ℕ → ℕ

structure Outcome where
  object : DirectResult := .ok
  init : DirectResult := .ok
  vector : DirectResult := .ok
  deactivate : DirectResult := .ok
  activate : DirectResult := .ok

namespace CoreLayer

/-- `fusion_skirmish_prevail` -/
def prevail (s : CoreLayer) : CoreLayer := {s with lock := s.lock+1}

/-- `fusion_skirmish_dismiss` -/
def dismiss (s : CoreLayer) : CoreLayer := {s with lock := s.lock-1}

/-- `dfb_layer_context_lock` -/
def lockContext (s : CoreLayer) (c : ℕ) : CoreLayer :=
  {s with locks := Function.update s.locks c (s.locks c+1)}

/-- `dfb_layer_context_unlock` -/
def unlockContext (s : CoreLayer) (c : ℕ) : CoreLayer :=
  {s with locks := Function.update s.locks c (s.locks c-1)}

/-- `dfb_layer_context_ref` -/
def ref (s : CoreLayer) (c : ℕ) : CoreLayer :=
  {s with refs := Function.update s.refs c (s.refs c+1)}

/-- `dfb_layer_context_unref` -/
def unref (s : CoreLayer) (c : ℕ) : CoreLayer :=
  {s with refs := Function.update s.refs c (s.refs c-1)}

/-- The context at `contexts->active`. -/
def current (s : CoreLayer) : Option ℕ := if s.active < 0 then none else s.stack[s.active.toNat]?

def setActive (s : CoreLayer) (index : ℤ) : CoreLayer := {s with active := index}

def setPrimary (s : CoreLayer) (c : ℕ) : CoreLayer := {s with primary := some c}

/-- `dfb_layer_context_activate`, which is done already or answers `ret`. -/
def contextActivate (s : CoreLayer) (c : ℕ) (ret : DirectResult) : CoreLayer × DirectResult :=
  if s.activated c then (s,.ok)
  else if ret = .ok then ({s with activated := Function.update s.activated c true},.ok)
  else (s,ret)

/-- `dfb_layer_context_deactivate` -/
def contextDeactivate (s : CoreLayer) (c : ℕ) (ret : DirectResult) : CoreLayer × DirectResult :=
  if s.activated c = false then (s,.ok)
  else if ret = .ok then ({s with activated := Function.update s.activated c false},.ok)
  else (s,ret)

/-- `dfb_layer_suspend` -/
def suspend (s : CoreLayer) (o : Outcome) : CoreLayer × DirectResult :=
  let t := s.prevail
  if t.suspended then (t.dismiss,.ok)
  else
    let u := match t.current with
      | some c => (t.contextDeactivate c o.deactivate).1
      | none => t
    (dismiss {u with suspended := true},.ok)

/-- `dfb_layer_resume` -/
def resume (s : CoreLayer) (o : Outcome) : CoreLayer × DirectResult :=
  let t := s.prevail
  if t.suspended = false then (t.dismiss,.ok)
  else
    let u := match t.current with
      | some c => (t.contextActivate c o.activate).1
      | none => t
    (dismiss {u with suspended := false},.ok)

/-- `dfb_layer_create_context`, with the context that is created. -/
def createContext (s : CoreLayer) (o : Outcome) : CoreLayer × Except DirectResult ℕ :=
  let c := s.created
  if o.object ≠ .ok then (s,.error .fusion)
  else
    let t := prevail {s with refs := Function.update s.refs c 1, created := c+1}
    -- where it fails `dfb_layer_context_init` has released the context
    if o.init ≠ .ok then ((t.unref c).dismiss,.error o.init)
    else if o.vector ≠ .ok then ((t.unref c).dismiss,.error .fusion)
    else (dismiss {t with stack := t.stack++[c]},.ok c)

/-- `dfb_layer_get_active_context` -/
def getActiveContext (s : CoreLayer) : CoreLayer × DirectResult :=
  let t := s.prevail
  match t.current with
  | none => (t.dismiss,.noContext)
  | some c => ((t.ref c).dismiss,.ok)

def deactivateCurrent (s : CoreLayer) (o : Outcome) : CoreLayer × DirectResult :=
  match s.current with
  | some c => if s.suspended then (s,.ok) else s.contextDeactivate c o.deactivate
  | none => (s,.ok)

/-- The change in `dfb_layer_activate_context`, while the context is locked. -/
def activateAt (s : CoreLayer) (c : ℕ) (index : ℤ) (o : Outcome) : CoreLayer :=
  if s.active = index then s
  else
    let r := s.deactivateCurrent o
    if r.2 ≠ .ok then r.1
    else
      let t := r.1.setActive (-1)
      let r' : CoreLayer × DirectResult :=
        if t.suspended then (t,.ok) else t.contextActivate c o.activate
      if r'.2 ≠ .ok then r'.1 else r'.1.setActive index

/-- `dfb_layer_activate_context`. The error path does not return the `ret` of the block that
goes there, but the one of the function. -/
def activateContext (s : CoreLayer) (c : ℕ) (o : Outcome) : CoreLayer × DirectResult :=
  let t := s.prevail.lockContext c
  (((t.activateAt c (s.stack.idxOf c) o).unlockContext c).dismiss,.ok)

/-- `dfb_layer_get_primary_context` from where the primary context is there. -/
def activatePrimary (s : CoreLayer) (p : ℕ) (activate : Bool) (o : Outcome) :
    CoreLayer × DirectResult :=
  if s.active < 0 ∧ activate = true then
    let r := s.activateContext p o
    if r.2 ≠ .ok then ((r.1.unref p).dismiss,r.2) else (r.1.dismiss,.ok)
  else (s.dismiss,.ok)

/-- `dfb_layer_get_primary_context` -/
def getPrimaryContext (s : CoreLayer) (activate : Bool) (o : Outcome) : CoreLayer × DirectResult :=
  let t := s.prevail
  match t.primary with
  | some p => (t.ref p).activatePrimary p activate o
  | none =>
    match t.dismiss.createContext o with
    | (u,.error ret) => (u,ret)
    | (u,.ok c) =>
      let v := u.prevail
      match v.primary with
      | some p => ((v.unref c).ref p).activatePrimary p activate o
      | none => (v.setPrimary c).activatePrimary c activate o

def activateRecent (s : CoreLayer) (o : Outcome) : CoreLayer :=
  match s.stack.getLast? with
  | none => s
  | some c =>
    let index : ℤ := s.stack.length-1
    if s.suspended then s.setActive index
    else
      let r := s.contextActivate c o.activate
      if r.2 = .ok then r.1.setActive index else r.1

def takeOut (s : CoreLayer) (c index : ℕ) : CoreLayer :=
  {s with
    stack := s.stack.eraseIdx index
    primary := if s.primary = some c then none else s.primary}

/-- The change in `dfb_layer_remove_context`, while the context is locked. -/
def removeAt (s : CoreLayer) (c index : ℕ) (o : Outcome) : CoreLayer :=
  let t := s.takeOut c index
  if t.active = (index : ℤ) then
    let u := if t.suspended then t else (t.contextDeactivate c o.deactivate).1
    (u.setActive (-1)).activateRecent o
  else if (index : ℤ) < t.active then t.setActive (t.active-1)
  else t

/-- `dfb_layer_remove_context` -/
def removeContext (s : CoreLayer) (c : ℕ) (o : Outcome) : CoreLayer × DirectResult :=
  let t := s.prevail
  if c ∉ t.stack then (t.dismiss,.ok)
  else ((((t.lockContext c).removeAt c (t.stack.idxOf c) o).unlockContext c).dismiss,.ok)

end CoreLayer

inductive Call
  | suspend
  | resume
  | createContext
  | getActiveContext
  | getPrimaryContext (activate : Bool)
  | activateContext (c : ℕ)
  | removeContext (c : ℕ)

def perform (s : CoreLayer) (o : Outcome) : Call → CoreLayer × DirectResult
  | .suspend => s.suspend o
  | .resume => s.resume o
  | .createContext =>
    ((s.createContext o).1,match (s.createContext o).2 with | .ok _ => .ok | .error ret => ret)
  | .getActiveContext => s.getActiveContext
  | .getPrimaryContext activate => s.getPrimaryContext activate o
  | .activateContext c => s.activateContext c o
  | .removeContext c => s.removeContext c o

def Call.asserted (s : CoreLayer) : Call → Prop
  | .activateContext c => c ∈ s.stack
  | _ => True

instance (s : CoreLayer) (call : Call) : Decidable (call.asserted s) := by
  cases call <;> unfold Call.asserted <;> infer_instance

def step (s : CoreLayer) (e : Call × Outcome) : Option CoreLayer :=
  if e.1.asserted s then some (perform s e.2 e.1).1 else none

def init (s : CoreLayer) : Prop :=
  s = ⟨[],-1,none,false,fun _ => false,fun _ => 0,0,0,fun _ => 0⟩

def Kept (s : CoreLayer) (e : Call × Outcome) : Prop :=
  match e.1 with
  | .suspend => s.suspended = true ∨ s.current = none ∨ e.2.deactivate = .ok
  | .resume => s.suspended = false ∨ s.current = none ∨ e.2.activate = .ok
  | .removeContext c => s.suspended = true ∨ s.current ≠ some c ∨ e.2.deactivate = .ok
  | _ => True

def CoreLayer.target (s : CoreLayer) : Option ℕ := if s.suspended then none else s.current

structure Matches (s : CoreLayer) : Prop where
  active : s.active = -1 ∨ 0 ≤ s.active ∧ s.active.toNat < s.stack.length
  primary : ∀ p, s.primary = some p → p ∈ s.stack
  activated : ∀ c, s.activated c = true ↔ s.target = some c

/-- What a call that fails has to leave as it was; a new context would have a reference. -/
structure Unchanged (s t : CoreLayer) : Prop where
  stack : t.stack = s.stack
  active : t.active = s.active
  activated : t.activated = s.activated
  refs : t.refs = s.refs

namespace CoreLayer

def Only (s : CoreLayer) (o : Option ℕ) : Prop := ∀ c, s.activated c = true ↔ o = some c

def Balanced (s t : CoreLayer) : Prop := t.lock = s.lock ∧ t.locks = s.locks

section Contexts
variable {s : CoreLayer} {c : ℕ}

theorem contextActivate_same (s : CoreLayer) (c : ℕ) (ret : DirectResult) :
    ∃ f, (s.contextActivate c ret).1 = {s with activated := f} := by
  unfold contextActivate
  split_ifs
  · exact ⟨_,rfl⟩
  · exact ⟨_,rfl⟩
  · exact ⟨_,rfl⟩

theorem contextDeactivate_same (s : CoreLayer) (c : ℕ) (ret : DirectResult) :
    ∃ f, (s.contextDeactivate c ret).1 = {s with activated := f} := by
  unfold contextDeactivate
  split_ifs
  · exact ⟨_,rfl⟩
  · exact ⟨_,rfl⟩
  · exact ⟨_,rfl⟩

/-- A context is activated, or it is not where that fails. -/
theorem Only.activate (h : s.Only none) (ret : DirectResult) :
    (s.contextActivate c ret).2 = .ok ∧ (s.contextActivate c ret).1.Only (some c) ∨
      (s.contextActivate c ret).2 ≠ .ok ∧ (s.contextActivate c ret).1 = s ∧ ret ≠ .ok := by
  have hoff : ¬ s.activated c = true := fun hc => by cases (h c).mp hc
  unfold contextActivate
  rw [if_neg hoff]
  split_ifs with hret
  · refine .inl ⟨rfl,fun d => ?_⟩
    change Function.update s.activated c true d = true ↔ some c = some d
    by_cases hd : d = c
    · rw [hd,Function.update_self]
      exact iff_of_true rfl rfl
    · rw [Function.update_of_ne hd]
      exact iff_of_false (fun hon => by cases (h d).mp hon) fun heq => hd (Option.some.inj heq).symm
  · exact .inr ⟨hret,rfl,hret⟩

theorem Only.deactivate (h : s.Only (some c)) (ret : DirectResult) :
    (s.contextDeactivate c ret).2 = .ok ∧ (s.contextDeactivate c ret).1.Only none ∨
      (s.contextDeactivate c ret).2 ≠ .ok ∧ (s.contextDeactivate c ret).1 = s ∧ ret ≠ .ok := by
  have hon : ¬ s.activated c = false := by
    rw [(h c).mpr rfl]
    decide
  unfold contextDeactivate
  rw [if_neg hon]
  split_ifs with hret
  · refine .inl ⟨rfl,fun d => iff_of_false (fun hd => ?_) (by simp)⟩
    change Function.update s.activated c false d = true at hd
    by_cases hdc : d = c
    · rw [hdc,Function.update_self] at hd
      cases hd
    · rw [Function.update_of_ne hdc] at hd
      exact hdc (Option.some.inj ((h d).mp hd)).symm
  · exact .inr ⟨hret,rfl,hret⟩

theorem Only.congr {t : CoreLayer} {d : Option ℕ} (h : s.Only d)
    (hactivated : t.activated = s.activated) : t.Only d := by
  intro c
  rw [hactivated]
  exact h c

end Contexts

end CoreLayer

open CoreLayer

section Matches
variable {s t : CoreLayer} {o : Outcome} {c : ℕ}

theorem Matches.congr (h : Matches s) (hstack : t.stack = s.stack) (hactive : t.active = s.active)
    (hprimary : t.primary = s.primary) (hsuspended : t.suspended = s.suspended)
    (hactivated : t.activated = s.activated) : Matches t := by
  refine ⟨?_,?_,?_⟩
  · rw [hstack,hactive]
    exact h.active
  · rw [hstack,hprimary]
    exact h.primary
  · have htarget : t.target = s.target := by
      unfold target current
      rw [hsuspended,hactive,hstack]
    rw [htarget]
    exact Only.congr h.activated hactivated

theorem current_neg (h : s.active = -1) : s.current = none := by
  unfold current
  rw [if_pos (by omega)]

theorem current_mem (h : s.current = some c) : c ∈ s.stack := by
  unfold current at h
  split_ifs at h
  exact List.mem_of_getElem? h

theorem target_suspended (h : s.suspended = true) : s.target = none := by
  unfold target
  rw [if_pos h]

theorem target_resumed (h : s.suspended = false) : s.target = s.current := by
  unfold target
  rw [if_neg (by rw [h]; decide)]

theorem suspend_matches (h : Matches s)
    (hkept : s.suspended = true ∨ s.current = none ∨ o.deactivate = .ok) :
    Matches (s.suspend o).1 := by
  unfold suspend
  dsimp only
  split_ifs with hsuspended
  · exact h.congr rfl rfl rfl rfl rfl
  · have hresumed : s.suspended = false := Bool.eq_false_of_not_eq_true hsuspended
    have honly : s.prevail.Only s.current := by
      have := h.activated
      rwa [target_resumed hresumed] at this
    obtain hs | hkept := hkept
    · exact absurd hs hsuspended
    change Matches (dismiss {(match s.current with
      | some c => (s.prevail.contextDeactivate c o.deactivate).1
      | none => s.prevail) with suspended := true})
    cases hcurrent : s.current with
    | none =>
      rw [hcurrent] at honly
      exact ⟨h.active,h.primary,honly⟩
    | some c =>
      rw [hcurrent] at honly hkept
      obtain hnone | hok := hkept
      · cases hnone
      obtain ⟨-,hoff⟩ | ⟨-,-,hfail⟩ := Only.deactivate honly o.deactivate
      · obtain ⟨f,hf⟩ := contextDeactivate_same s.prevail c o.deactivate
        dsimp only
        rw [hf] at hoff ⊢
        exact ⟨h.active,h.primary,hoff⟩
      · exact absurd hok hfail

theorem resume_matches (h : Matches s)
    (hkept : s.suspended = false ∨ s.current = none ∨ o.activate = .ok) :
    Matches (s.resume o).1 := by
  unfold resume
  dsimp only
  split_ifs with hresumed
  · exact h.congr rfl rfl rfl rfl rfl
  · have hsuspended : s.suspended = true := Bool.eq_true_of_not_eq_false hresumed
    have honly : s.prevail.Only none := by
      have := h.activated
      rwa [target_suspended hsuspended] at this
    obtain hs | hkept := hkept
    · exact absurd hs hresumed
    change Matches (dismiss {(match s.current with
      | some c => (s.prevail.contextActivate c o.activate).1
      | none => s.prevail) with suspended := false})
    cases hcurrent : s.current with
    | none => exact ⟨h.active,h.primary,by
        rw [target_resumed rfl]
        change Only _ s.current
        rw [hcurrent]
        exact honly⟩
    | some c =>
      rw [hcurrent] at hkept
      obtain hnone | hok := hkept
      · cases hnone
      obtain ⟨-,hon⟩ | ⟨-,-,hfail⟩ := Only.activate (c := c) honly o.activate
      · obtain ⟨f,hf⟩ := contextActivate_same s.prevail c o.activate
        dsimp only
        rw [hf] at hon ⊢
        refine ⟨h.active,h.primary,?_⟩
        rw [target_resumed rfl]
        change Only _ s.current
        rw [hcurrent]
        exact hon
      · exact absurd hok hfail

theorem deactivateCurrent_cases (h : s.Only s.target) :
    (s.deactivateCurrent o).2 = .ok ∧ (s.deactivateCurrent o).1.Only none ∨
      (s.deactivateCurrent o).2 ≠ .ok ∧ (s.deactivateCurrent o).1 = s := by
  unfold deactivateCurrent
  cases hcurrent : s.current with
  | none =>
    refine .inl ⟨rfl,?_⟩
    have hnone : s.target = none := by
      unfold target
      rw [hcurrent,ite_self]
    rwa [hnone] at h
  | some c =>
    dsimp only
    split_ifs with hsuspended
    · rw [target_suspended hsuspended] at h
      exact .inl ⟨rfl,h⟩
    · rw [target_resumed (Bool.eq_false_of_not_eq_true hsuspended),hcurrent] at h
      obtain hoff | ⟨hret,hsame,-⟩ := h.deactivate o.deactivate
      · exact .inl hoff
      · exact .inr ⟨hret,hsame⟩

theorem deactivateCurrent_same (s : CoreLayer) (o : Outcome) :
    ∃ f, (s.deactivateCurrent o).1 = {s with activated := f} := by
  unfold deactivateCurrent
  split
  · split_ifs
    · exact ⟨_,rfl⟩
    · exact contextDeactivate_same _ _ _
  · exact ⟨_,rfl⟩

theorem matches_at {i : ℕ} (hactive : s.active = i) (hi : s.stack[i]? = some c)
    (hprimary : ∀ p, s.primary = some p → p ∈ s.stack)
    (honly : s.Only (if s.suspended then none else some c)) : Matches s := by
  obtain ⟨hlt,-⟩ := List.getElem?_eq_some_iff.mp hi
  have hcurrent : s.current = some c := by
    unfold current
    rw [hactive,if_neg (by omega),Int.toNat_natCast,hi]
  refine ⟨.inr ⟨by omega,by rw [hactive,Int.toNat_natCast]; exact hlt⟩,hprimary,?_⟩
  unfold target
  rw [hcurrent]
  exact honly

theorem matches_none (hactive : s.active = -1) (hprimary : ∀ p, s.primary = some p → p ∈ s.stack)
    (honly : s.Only none) : Matches s := by
  refine ⟨.inl hactive,hprimary,?_⟩
  unfold target
  rw [current_neg hactive,ite_self]
  exact honly

theorem activateAt_matches (h : Matches s) {i : ℕ} (hi : s.stack[i]? = some c) :
    Matches (s.activateAt c i o) := by
  unfold activateAt
  by_cases hindex : s.active = (i : ℤ)
  · rw [if_pos hindex]
    exact h
  rw [if_neg hindex]
  have hsame := deactivateCurrent_same s o
  have hcases := deactivateCurrent_cases (o := o) h.activated
  generalize s.deactivateCurrent o = r at hsame hcases
  dsimp only
  obtain ⟨t,ret⟩ := r
  obtain ⟨f,ht⟩ := hsame
  dsimp only at ht hcases ⊢
  obtain ⟨hok,hoff⟩ | ⟨hret,hsame⟩ := hcases
  · rw [if_neg (not_not_intro hok)]
    have hnone : (t.setActive (-1)).Only none := hoff
    have hstack : (t.setActive (-1)).stack = s.stack := by rw [ht]; rfl
    have hprimary : ∀ p, (t.setActive (-1)).primary = some p → p ∈ (t.setActive (-1)).stack := by
      rw [ht]
      exact h.primary
    generalize hu : t.setActive (-1) = u at hnone hstack hprimary ⊢
    have hactive : u.active = -1 := by rw [← hu]; rfl
    by_cases hsuspended : u.suspended = true
    · rw [if_pos hsuspended,if_neg (not_not_intro rfl)]
      refine matches_at rfl (by rw [← hi,← hstack]; rfl) hprimary ?_
      change Only _ (if u.suspended then none else some c)
      rw [if_pos hsuspended]
      exact hnone
    · rw [if_neg hsuspended]
      obtain ⟨g,hg⟩ := contextActivate_same u c o.activate
      obtain ⟨hact,hon⟩ | ⟨hact,hu',-⟩ := hnone.activate (c := c) o.activate
      · rw [if_neg (not_not_intro hact)]
        rw [hg] at hon ⊢
        refine matches_at rfl (by rw [← hi,← hstack]; rfl) hprimary ?_
        change Only _ (if u.suspended then none else some c)
        rw [if_neg hsuspended]
        exact hon
      · -- the other context is not active any more, and this one is not activated
        rw [if_pos hact,hu']
        exact matches_none hactive hprimary hnone
  · rw [if_pos hret,hsame]
    exact h

theorem activateContext_matches (h : Matches s) (hc : c ∈ s.stack) :
    Matches (s.activateContext c o).1 := by
  have hat : s.stack[s.stack.idxOf c]? = some c := List.getElem?_idxOf hc
  have hlocked : Matches (s.prevail.lockContext c) := h.congr rfl rfl rfl rfl rfl
  exact (activateAt_matches (o := o) hlocked hat).congr rfl rfl rfl rfl rfl

theorem activateRecent_matches (hactive : s.active = -1)
    (hprimary : ∀ p, s.primary = some p → p ∈ s.stack) (honly : s.Only none) :
    Matches (s.activateRecent o) := by
  unfold activateRecent
  cases hlast : s.stack.getLast? with
  | none => exact matches_none hactive hprimary honly
  | some c =>
    have hne : s.stack ≠ [] := by
      intro hnil
      rw [hnil] at hlast
      cases hlast
    have hpos := List.length_pos_iff.mpr hne
    have hat : s.stack[s.stack.length-1]? = some c := by
      rw [← hlast,List.getLast?_eq_getElem?]
    have hindex : (s.stack.length : ℤ)-1 = ((s.stack.length-1 : ℕ) : ℤ) := by omega
    dsimp only
    rw [hindex]
    by_cases hsuspended : s.suspended = true
    · rw [if_pos hsuspended]
      refine matches_at rfl hat hprimary ?_
      change Only _ (if s.suspended then none else some c)
      rw [if_pos hsuspended]
      exact honly
    · rw [if_neg hsuspended]
      obtain ⟨g,hg⟩ := contextActivate_same s c o.activate
      obtain ⟨hact,hon⟩ | ⟨hact,hsame,-⟩ := honly.activate (c := c) o.activate
      · rw [if_pos hact]
        rw [hg] at hon ⊢
        refine matches_at rfl hat hprimary ?_
        change Only _ (if s.suspended then none else some c)
        rw [if_neg hsuspended]
        exact hon
      · rw [if_neg hact,hsame]
        exact matches_none hactive hprimary honly

theorem matches_current (h : Matches s)
    (hactive : t.active = -1 ∨ 0 ≤ t.active ∧ t.active.toNat < t.stack.length)
    (hprimary : ∀ p, t.primary = some p → p ∈ t.stack) (hcurrent : t.current = s.current)
    (hsuspended : t.suspended = s.suspended) (hactivated : t.activated = s.activated) :
    Matches t := by
  refine ⟨hactive,hprimary,?_⟩
  have htarget : t.target = s.target := by
    unfold target
    rw [hsuspended,hcurrent]
  rw [htarget]
  exact Only.congr h.activated hactivated

theorem removeAt_matches (h : Matches s) {i : ℕ} (hi : s.stack[i]? = some c)
    (hkept : s.suspended = true ∨ s.current ≠ some c ∨ o.deactivate = .ok) :
    Matches (s.removeAt c i o) := by
  obtain ⟨hlt,-⟩ := List.getElem?_eq_some_iff.mp hi
  have hprimary : ∀ p, (if s.primary = some c then none else s.primary) = some p →
      p ∈ s.stack.eraseIdx i := by
    intro p hp
    split_ifs at hp with hc
    obtain ⟨j,hj⟩ := List.mem_iff_getElem?.mp (h.primary p hp)
    refine List.mem_eraseIdx_iff_getElem?.mpr ⟨j,?_,hj⟩
    rintro rfl
    rw [hi] at hj
    exact hc (hp.trans hj.symm)
  have hlength : (s.stack.eraseIdx i).length = s.stack.length-1 := List.length_eraseIdx_of_lt hlt
  unfold removeAt
  dsimp only
  by_cases hindex : (s.takeOut c i).active = (i : ℤ)
  · rw [if_pos hindex]
    have hcurrent : s.current = some c := by
      unfold current
      rw [show s.active = i from hindex,if_neg (by omega),Int.toNat_natCast,hi]
    by_cases hsuspended : s.suspended = true
    · have honly := h.activated
      rw [target_suspended hsuspended] at honly
      rw [if_pos (show (s.takeOut c i).suspended = true from hsuspended)]
      exact activateRecent_matches rfl hprimary honly
    · have hresumed := Bool.eq_false_of_not_eq_true hsuspended
      have honly : (s.takeOut c i).Only s.target := h.activated
      rw [target_resumed hresumed,hcurrent] at honly
      rw [if_neg (show ¬ (s.takeOut c i).suspended = true from hsuspended)]
      obtain ⟨-,hoff⟩ | ⟨-,-,hfail⟩ := honly.deactivate o.deactivate
      · obtain ⟨f,hf⟩ := contextDeactivate_same (s.takeOut c i) c o.deactivate
        rw [hf] at hoff ⊢
        exact activateRecent_matches rfl hprimary hoff
      · obtain hs | hne | hok := hkept
        · exact absurd hs hsuspended
        · exact absurd hcurrent hne
        · exact absurd hok hfail
  rw [if_neg hindex]
  replace hindex : ¬ s.active = (i : ℤ) := hindex
  by_cases hless : (i : ℤ) < (s.takeOut c i).active
  · -- the active context moves one down
    rw [if_pos hless]
    replace hless : (i : ℤ) < s.active := hless
    have hactive := h.active
    refine matches_current h (.inr ⟨?_,?_⟩) hprimary ?_ rfl rfl
    · change 0 ≤ s.active-1
      omega
    · change (s.active-1).toNat < (s.stack.eraseIdx i).length
      omega
    · change (if s.active-1 < 0 then none else (s.stack.eraseIdx i)[(s.active-1).toNat]?) =
        if s.active < 0 then none else s.stack[s.active.toNat]?
      rw [if_neg (by omega),if_neg (by omega),List.getElem?_eraseIdx_of_ge (by omega)]
      congr 1
      omega
  · rw [if_neg hless]
    replace hless : ¬ (i : ℤ) < s.active := hless
    have hactive := h.active
    refine matches_current h ?_ hprimary ?_ rfl rfl
    · change s.active = -1 ∨ 0 ≤ s.active ∧ s.active.toNat < (s.stack.eraseIdx i).length
      omega
    · change (if s.active < 0 then none else (s.stack.eraseIdx i)[s.active.toNat]?) =
        if s.active < 0 then none else s.stack[s.active.toNat]?
      split_ifs with hneg
      · rfl
      · rw [List.getElem?_eraseIdx_of_lt (by omega)]

theorem removeContext_matches (h : Matches s)
    (hkept : s.suspended = true ∨ s.current ≠ some c ∨ o.deactivate = .ok) :
    Matches (s.removeContext c o).1 := by
  unfold removeContext
  dsimp only
  by_cases hc : c ∉ s.prevail.stack
  · rw [if_pos hc]
    exact h.congr rfl rfl rfl rfl rfl
  · rw [if_neg hc]
    have hat : s.stack[s.stack.idxOf c]? = some c := List.getElem?_idxOf (not_not.mp hc)
    have hlocked : Matches (s.prevail.lockContext c) := h.congr rfl rfl rfl rfl rfl
    exact (removeAt_matches (o := o) hlocked hat hkept).congr rfl rfl rfl rfl rfl

/-- A new context is the last one of the stack, and not the active one. -/
theorem createContext_matches (h : Matches s) : Matches (s.createContext o).1 := by
  unfold createContext
  dsimp only
  split_ifs
  · exact h
  · exact h.congr rfl rfl rfl rfl rfl
  · exact h.congr rfl rfl rfl rfl rfl
  · have hactive := h.active
    refine matches_current h ?_ (fun p hp => List.mem_append_left _ (h.primary p hp)) ?_ rfl rfl
    · change s.active = -1 ∨ 0 ≤ s.active ∧ s.active.toNat < (s.stack++[s.created]).length
      rw [List.length_append]
      omega
    · change (if s.active < 0 then none else (s.stack++[s.created])[s.active.toNat]?) =
        if s.active < 0 then none else s.stack[s.active.toNat]?
      split_ifs with hneg
      · rfl
      · rw [List.getElem?_append_left (by omega)]

theorem activatePrimary_matches (h : Matches s) {activate : Bool} (hc : c ∈ s.stack) :
    Matches (s.activatePrimary c activate o).1 := by
  have hactivate := activateContext_matches (o := o) h hc
  unfold activatePrimary
  dsimp only
  split_ifs
  · exact hactivate.congr rfl rfl rfl rfl rfl
  · exact hactivate.congr rfl rfl rfl rfl rfl
  · exact h.congr rfl rfl rfl rfl rfl

theorem createContext_mem (h : (s.createContext o).2 = .ok c) : c ∈ (s.createContext o).1.stack := by
  unfold createContext at h ⊢
  dsimp only at h ⊢
  split_ifs at h ⊢
  obtain rfl := Except.ok.inj h
  exact List.mem_append_right _ List.mem_cons_self

theorem getPrimaryContext_matches (h : Matches s) {activate : Bool} :
    Matches (s.getPrimaryContext activate o).1 := by
  unfold getPrimaryContext
  dsimp only
  cases hprimary : s.prevail.primary with
  | some p =>
    have href : Matches (s.prevail.ref p) := h.congr rfl rfl rfl rfl rfl
    exact activatePrimary_matches href (h.primary p hprimary)
  | none =>
    have hsame : Matches s.prevail.dismiss := h.congr rfl rfl rfl rfl rfl
    have hcreated := createContext_matches (o := o) hsame
    have hmem := fun c => createContext_mem (s := s.prevail.dismiss) (o := o) (c := c)
    generalize s.prevail.dismiss.createContext o = r at hcreated hmem
    dsimp only
    obtain ⟨u,ret | c⟩ := r
    · exact hcreated
    · dsimp only at hcreated hmem ⊢
      cases hu : u.prevail.primary with
      | some p =>
        have href : Matches ((u.prevail.unref c).ref p) := hcreated.congr rfl rfl rfl rfl rfl
        exact activatePrimary_matches href (hcreated.primary p hu)
      | none =>
        have hset : Matches (u.prevail.setPrimary c) := by
          refine matches_current hcreated hcreated.active ?_ rfl rfl rfl
          intro p hp
          obtain rfl := Option.some.inj hp
          exact hmem _ rfl
        exact activatePrimary_matches hset (hmem c rfl)

end Matches

section Frame
variable {s t : CoreLayer} {o : Outcome} {c : ℕ}

theorem activateAt_same (s : CoreLayer) (c : ℕ) (i : ℤ) (o : Outcome) :
    ∃ f a, s.activateAt c i o = {s with activated := f, active := a} := by
  unfold activateAt
  obtain ⟨f,hf⟩ := deactivateCurrent_same s o
  dsimp only
  split_ifs
  · exact ⟨_,_,rfl⟩
  · exact ⟨_,_,hf⟩
  · exact ⟨_,_,by rw [hf]; rfl⟩
  · exact ⟨_,_,by rw [hf]; rfl⟩
  · obtain ⟨g,hg⟩ := contextActivate_same ((s.deactivateCurrent o).1.setActive (-1)) c o.activate
    exact ⟨_,_,by rw [hg,hf]; rfl⟩
  · obtain ⟨g,hg⟩ := contextActivate_same ((s.deactivateCurrent o).1.setActive (-1)) c o.activate
    exact ⟨_,_,by rw [hg,hf]; rfl⟩

theorem activateRecent_same (s : CoreLayer) (o : Outcome) :
    ∃ f a, s.activateRecent o = {s with activated := f, active := a} := by
  unfold activateRecent
  split
  · exact ⟨_,_,rfl⟩
  · rename_i c _
    obtain ⟨g,hg⟩ := contextActivate_same s c o.activate
    dsimp only
    split_ifs
    · exact ⟨_,_,rfl⟩
    · exact ⟨_,_,by rw [hg]; rfl⟩
    · exact ⟨_,_,hg⟩

theorem removeAt_same (s : CoreLayer) (c i : ℕ) (o : Outcome) :
    ∃ f a, s.removeAt c i o = {s.takeOut c i with activated := f, active := a} := by
  unfold removeAt
  dsimp only
  split_ifs
  · obtain ⟨g,a,hg⟩ := activateRecent_same ((s.takeOut c i).setActive (-1)) o
    exact ⟨_,_,hg⟩
  · obtain ⟨f,hf⟩ := contextDeactivate_same (s.takeOut c i) c o.deactivate
    obtain ⟨g,a,hg⟩ :=
      activateRecent_same (((s.takeOut c i).contextDeactivate c o.deactivate).1.setActive (-1)) o
    exact ⟨_,_,by rw [hg,hf]; rfl⟩
  · exact ⟨_,_,rfl⟩
  · exact ⟨_,_,rfl⟩

theorem CoreLayer.Balanced.trans {u : CoreLayer} (h : s.Balanced t) (h' : t.Balanced u) : s.Balanced u :=
  ⟨h'.1.trans h.1,h'.2.trans h.2⟩

theorem balanced_locked (hlock : t.lock = s.lock+1)
    (hlocks : t.locks = (s.lockContext c).locks) : s.Balanced (t.unlockContext c).dismiss := by
  refine ⟨?_,?_⟩
  · change t.lock-1 = s.lock
    omega
  · change Function.update t.locks c (t.locks c-1) = s.locks
    rw [hlocks]
    change Function.update (Function.update s.locks c (s.locks c+1)) c
      (Function.update s.locks c (s.locks c+1) c-1) = s.locks
    rw [Function.update_idem,Function.update_self,Nat.add_sub_cancel,Function.update_eq_self]

theorem activateContext_balanced (s : CoreLayer) (c : ℕ) (o : Outcome) :
    s.Balanced (s.activateContext c o).1 := by
  obtain ⟨f,a,h⟩ := activateAt_same (s.prevail.lockContext c) c (s.stack.idxOf c) o
  unfold activateContext
  dsimp only
  rw [h]
  exact balanced_locked rfl rfl

theorem removeContext_balanced (s : CoreLayer) (c : ℕ) (o : Outcome) :
    s.Balanced (s.removeContext c o).1 := by
  unfold removeContext
  dsimp only
  by_cases hc : c ∉ s.prevail.stack
  · rw [if_pos hc]
    exact ⟨rfl,rfl⟩
  · obtain ⟨f,a,h⟩ := removeAt_same (s.prevail.lockContext c) c (s.prevail.stack.idxOf c) o
    rw [if_neg hc,h]
    exact balanced_locked rfl rfl

theorem createContext_balanced (s : CoreLayer) (o : Outcome) :
    s.Balanced (s.createContext o).1 := by
  unfold createContext
  dsimp only
  split_ifs
  · exact ⟨rfl,rfl⟩
  · exact ⟨rfl,rfl⟩
  · exact ⟨rfl,rfl⟩
  · exact ⟨rfl,rfl⟩

theorem activatePrimary_balanced (hlock : s.lock = t.lock+1) (hlocks : s.locks = t.locks)
    {activate : Bool} : t.Balanced (s.activatePrimary c activate o).1 := by
  obtain ⟨hl,hls⟩ := activateContext_balanced s c o
  unfold activatePrimary
  dsimp only
  split_ifs
  · refine ⟨?_,hls.trans hlocks⟩
    change (s.activateContext c o).1.lock-1 = t.lock
    omega
  · refine ⟨?_,hls.trans hlocks⟩
    change (s.activateContext c o).1.lock-1 = t.lock
    omega
  · refine ⟨?_,hlocks⟩
    change s.lock-1 = t.lock
    omega

theorem getPrimaryContext_balanced (s : CoreLayer) (activate : Bool) (o : Outcome) :
    s.Balanced (s.getPrimaryContext activate o).1 := by
  unfold getPrimaryContext
  dsimp only
  cases s.prevail.primary with
  | some p => exact activatePrimary_balanced (s := s.prevail.ref p) rfl rfl
  | none =>
    have hcreated : s.Balanced (s.prevail.dismiss.createContext o).1 :=
      createContext_balanced s.prevail.dismiss o
    generalize s.prevail.dismiss.createContext o = r at hcreated
    dsimp only
    obtain ⟨u,ret | c⟩ := r
    · exact hcreated
    · refine CoreLayer.Balanced.trans hcreated ?_
      dsimp only
      cases u.prevail.primary with
      | some p => exact activatePrimary_balanced (s := (u.prevail.unref c).ref p) rfl rfl
      | none => exact activatePrimary_balanced (s := u.prevail.setPrimary c) rfl rfl

theorem perform_balanced (s : CoreLayer) (o : Outcome) (call : Call) :
    s.Balanced (perform s o call).1 := by
  cases call with
  | suspend =>
    change s.Balanced (s.suspend o).1
    unfold suspend
    dsimp only
    split_ifs
    · exact ⟨rfl,rfl⟩
    · split
      · rename_i c _
        obtain ⟨f,hf⟩ := contextDeactivate_same s.prevail c o.deactivate
        rw [hf]
        exact ⟨rfl,rfl⟩
      · exact ⟨rfl,rfl⟩
  | resume =>
    change s.Balanced (s.resume o).1
    unfold resume
    dsimp only
    split_ifs
    · exact ⟨rfl,rfl⟩
    · split
      · rename_i c _
        obtain ⟨f,hf⟩ := contextActivate_same s.prevail c o.activate
        rw [hf]
        exact ⟨rfl,rfl⟩
      · exact ⟨rfl,rfl⟩
  | createContext => exact createContext_balanced s o
  | getActiveContext =>
    change s.Balanced s.getActiveContext.1
    unfold getActiveContext
    dsimp only
    split
    · exact ⟨rfl,rfl⟩
    · exact ⟨rfl,rfl⟩
  | getPrimaryContext activate => exact getPrimaryContext_balanced s activate o
  | activateContext c => exact activateContext_balanced s c o
  | removeContext c => exact removeContext_balanced s c o

end Frame

/-- The contexts of the stack were created, and those not created have no reference. -/
structure Known (s : CoreLayer) : Prop where
  stack : ∀ c ∈ s.stack, c < s.created
  refs : ∀ c, s.created ≤ c → s.refs c = 0

section Known
variable {s t : CoreLayer} {o : Outcome} {c : ℕ}

theorem Known.congr (h : Known s) (hstack : t.stack ⊆ s.stack) (hcreated : t.created = s.created)
    (hrefs : t.refs = s.refs) : Known t := by
  refine ⟨fun c hc => ?_,fun c hc => ?_⟩
  · rw [hcreated]
    exact h.stack c (hstack hc)
  · rw [hrefs]
    rw [hcreated] at hc
    exact h.refs c hc

theorem Known.update (h : Known s) (hstack : t.stack = s.stack) (hcreated : t.created = s.created)
    {n : ℕ} (hrefs : t.refs = Function.update s.refs c n) (hc : c < s.created) : Known t := by
  refine ⟨?_,fun d hd => ?_⟩
  · rw [hstack,hcreated]
    exact h.stack
  · rw [hcreated] at hd
    rw [hrefs,Function.update_of_ne (by omega)]
    exact h.refs d hd

theorem createContext_known (h : Known s) : Known (s.createContext o).1 := by
  have hnew : ∀ n d, s.created+1 ≤ d →
      Function.update (Function.update s.refs s.created 1) s.created n d = 0 := by
    intro n d hd
    rw [Function.update_of_ne (by omega),Function.update_of_ne (by omega)]
    exact h.refs d (by omega)
  unfold createContext
  dsimp only
  split_ifs
  · exact h
  · exact ⟨fun c hc => Nat.lt_succ_of_lt (h.stack c hc),hnew _⟩
  · exact ⟨fun c hc => Nat.lt_succ_of_lt (h.stack c hc),hnew _⟩
  · refine ⟨fun c hc => ?_,fun d hd => ?_⟩
    · obtain hold | hnew := List.mem_append.mp hc
      · exact Nat.lt_succ_of_lt (h.stack c hold)
      · obtain rfl := List.mem_singleton.mp hnew
        exact Nat.lt_succ_self _
    · change Function.update s.refs s.created 1 d = 0
      change s.created+1 ≤ d at hd
      rw [Function.update_of_ne (by omega)]
      exact h.refs d (by omega)

theorem activateContext_known (h : Known s) : Known (s.activateContext c o).1 := by
  obtain ⟨f,a,hsame⟩ := activateAt_same (s.prevail.lockContext c) c (s.stack.idxOf c) o
  unfold activateContext
  dsimp only
  rw [hsame]
  exact h.congr (List.Subset.refl _) rfl rfl

theorem activatePrimary_known (h : Known s) {activate : Bool} :
    Known (s.activatePrimary c activate o).1 := by
  have hactivate := activateContext_known (c := c) (o := o) h
  unfold activatePrimary
  dsimp only
  by_cases hneed : s.active < 0 ∧ activate = true
  · have hok : ¬ (s.activateContext c o).2 ≠ .ok := not_not_intro rfl
    rw [if_pos hneed,if_neg hok]
    exact hactivate.congr (List.Subset.refl _) rfl rfl
  · rw [if_neg hneed]
    exact h.congr (List.Subset.refl _) rfl rfl

theorem createContext_created (h : (s.createContext o).2 = .ok c) :
    c < (s.createContext o).1.created := by
  unfold createContext at h ⊢
  dsimp only at h ⊢
  split_ifs at h ⊢
  obtain rfl := Except.ok.inj h
  exact Nat.lt_succ_self _

theorem getPrimaryContext_known (h : Known s) (hmatches : Matches s) {activate : Bool} :
    Known (s.getPrimaryContext activate o).1 := by
  unfold getPrimaryContext
  dsimp only
  cases hprimary : s.prevail.primary with
  | some p =>
    have hp : p < s.created := h.stack p (hmatches.primary p hprimary)
    have href : Known (s.prevail.ref p) := h.update rfl rfl rfl hp
    exact activatePrimary_known href
  | none =>
    have hsame : Known s.prevail.dismiss := h.congr (List.Subset.refl _) rfl rfl
    have hmsame : Matches s.prevail.dismiss := hmatches.congr rfl rfl rfl rfl rfl
    have hcreated := createContext_known (o := o) hsame
    have hmcreated := createContext_matches (o := o) hmsame
    have hlt := fun c => createContext_created (s := s.prevail.dismiss) (o := o) (c := c)
    generalize s.prevail.dismiss.createContext o = r at hcreated hmcreated hlt
    dsimp only
    obtain ⟨u,ret | c⟩ := r
    · exact hcreated
    · dsimp only at hcreated hmcreated hlt ⊢
      cases hu : u.prevail.primary with
      | some p =>
        have hp : p < u.created := hcreated.stack p (hmcreated.primary p hu)
        have hunref : Known (u.prevail.unref c) := hcreated.update rfl rfl rfl (hlt c rfl)
        have href : Known ((u.prevail.unref c).ref p) := hunref.update rfl rfl rfl hp
        exact activatePrimary_known href
      | none =>
        have hset : Known (u.prevail.setPrimary c) := hcreated.congr (List.Subset.refl _) rfl rfl
        exact activatePrimary_known hset

theorem perform_known (h : Known s) (hmatches : Matches s) (call : Call) :
    Known (perform s o call).1 := by
  cases call with
  | suspend =>
    change Known (s.suspend o).1
    unfold suspend
    dsimp only
    split_ifs
    · exact h.congr (List.Subset.refl _) rfl rfl
    · split
      · rename_i c _
        obtain ⟨f,hf⟩ := contextDeactivate_same s.prevail c o.deactivate
        rw [hf]
        exact h.congr (List.Subset.refl _) rfl rfl
      · exact h.congr (List.Subset.refl _) rfl rfl
  | resume =>
    change Known (s.resume o).1
    unfold resume
    dsimp only
    split_ifs
    · exact h.congr (List.Subset.refl _) rfl rfl
    · split
      · rename_i c _
        obtain ⟨f,hf⟩ := contextActivate_same s.prevail c o.activate
        rw [hf]
        exact h.congr (List.Subset.refl _) rfl rfl
      · exact h.congr (List.Subset.refl _) rfl rfl
  | createContext => exact createContext_known h
  | getActiveContext =>
    change Known s.getActiveContext.1
    unfold getActiveContext
    dsimp only
    split
    · exact h.congr (List.Subset.refl _) rfl rfl
    · rename_i c hc
      exact h.update rfl rfl rfl (h.stack c (current_mem hc))
  | getPrimaryContext activate => exact getPrimaryContext_known h hmatches
  | activateContext c => exact activateContext_known h
  | removeContext c =>
    change Known (s.removeContext c o).1
    unfold removeContext
    dsimp only
    by_cases hc : c ∉ s.prevail.stack
    · rw [if_pos hc]
      exact h.congr (List.Subset.refl _) rfl rfl
    · obtain ⟨f,a,hsame⟩ := removeAt_same (s.prevail.lockContext c) c (s.prevail.stack.idxOf c) o
      rw [if_neg hc,hsame]
      exact h.congr (List.eraseIdx_subset) rfl rfl

end Known

theorem perform_failed {s : CoreLayer} {o : Outcome} (h : Known s) {call : Call}
    (hret : (perform s o call).2 ≠ .ok) : Unchanged s (perform s o call).1 := by
  have hcreate : ∀ t : CoreLayer, Known t → ∀ ret, (t.createContext o).2 = .error ret →
      Unchanged t (t.createContext o).1 := by
    intro t ht ret hfail
    have hrefs : Function.update (Function.update t.refs t.created 1) t.created
        (Function.update t.refs t.created 1 t.created-1) = t.refs := by
      rw [Function.update_idem,Function.update_self]
      exact Function.update_eq_self_iff.mpr (ht.refs _ le_rfl).symm
    unfold createContext at hfail ⊢
    dsimp only at hfail ⊢
    split_ifs at hfail ⊢
    · exact ⟨rfl,rfl,rfl,rfl⟩
    · exact ⟨rfl,rfl,rfl,hrefs⟩
    · exact ⟨rfl,rfl,rfl,hrefs⟩
  have hactivate : ∀ (t : CoreLayer) p activate, (t.activatePrimary p activate o).2 = .ok := by
    intro t p activate
    unfold activatePrimary
    dsimp only
    by_cases hneed : t.active < 0 ∧ activate = true
    · have hok : ¬ (t.activateContext p o).2 ≠ .ok := not_not_intro rfl
      rw [if_pos hneed,if_neg hok]
    · rw [if_neg hneed]
  cases call with
  | suspend =>
    refine absurd ?_ hret
    change (s.suspend o).2 = .ok
    unfold suspend
    dsimp only
    split_ifs <;> rfl
  | resume =>
    refine absurd ?_ hret
    change (s.resume o).2 = .ok
    unfold resume
    dsimp only
    split_ifs <;> rfl
  | createContext =>
    change (match (s.createContext o).2 with | .ok _ => DirectResult.ok | .error ret => ret) ≠ .ok
      at hret
    cases hcreated : (s.createContext o).2 with
    | error ret => exact hcreate s h ret hcreated
    | ok c =>
      rw [hcreated] at hret
      exact absurd rfl hret
  | getActiveContext =>
    change s.getActiveContext.2 ≠ .ok at hret
    change Unchanged s s.getActiveContext.1
    unfold getActiveContext at hret ⊢
    dsimp only at hret ⊢
    cases hcurrent : s.prevail.current with
    | none => exact ⟨rfl,rfl,rfl,rfl⟩
    | some c =>
      rw [hcurrent] at hret
      exact absurd rfl hret
  | getPrimaryContext activate =>
    change (s.getPrimaryContext activate o).2 ≠ .ok at hret
    change Unchanged s (s.getPrimaryContext activate o).1
    unfold getPrimaryContext at hret ⊢
    dsimp only at hret ⊢
    cases hprimary : s.prevail.primary with
    | some p =>
      rw [hprimary] at hret
      exact absurd (hactivate _ _ _) hret
    | none =>
      rw [hprimary] at hret
      have hfail := hcreate s.prevail.dismiss (h.congr (List.Subset.refl _) rfl rfl)
      generalize s.prevail.dismiss.createContext o = r at hret hfail
      dsimp only at hret ⊢
      obtain ⟨u,ret | c⟩ := r
      · obtain ⟨hstack,hactive,hactivated,hrefs⟩ := hfail ret rfl
        exact ⟨hstack,hactive,hactivated,hrefs⟩
      · dsimp only at hret
        cases hu : u.prevail.primary with
        | some p =>
          rw [hu] at hret
          exact absurd (hactivate _ _ _) hret
        | none =>
          rw [hu] at hret
          exact absurd (hactivate _ _ _) hret
  | activateContext c => exact absurd rfl hret
  | removeContext c =>
    refine absurd ?_ hret
    change (s.removeContext c o).2 = .ok
    unfold removeContext
    dsimp only
    split_ifs <;> rfl

theorem step_matches {s t : CoreLayer} {e : Call × Outcome} (h : Matches s ∧ Known s)
    (hkept : Kept s e) (hs : step s e = some t) : Matches t ∧ Known t := by
  unfold step at hs
  split_ifs at hs with hasserted
  obtain rfl := Option.some.inj hs
  refine ⟨?_,perform_known h.2 h.1 _⟩
  obtain ⟨call,o⟩ := e
  cases call with
  | suspend => exact suspend_matches h.1 hkept
  | resume => exact resume_matches h.1 hkept
  | createContext => exact createContext_matches h.1
  | getActiveContext =>
    change Matches s.getActiveContext.1
    unfold getActiveContext
    dsimp only
    split
    · exact h.1.congr rfl rfl rfl rfl rfl
    · exact h.1.congr rfl rfl rfl rfl rfl
  | getPrimaryContext activate => exact getPrimaryContext_matches h.1
  | activateContext c => exact activateContext_matches h.1 hasserted
  | removeContext c => exact removeContext_matches h.1 hkept

/-- In all runs where contexts are deactivated and activated as `Kept` says, the context at
`active` is the one that is activated, calls that fail have done nothing, and all calls leave
the locks as they were. -/
theorem context_stack_matches {s : CoreLayer} (h : Reaches step Kept init s) : Matches s ∧
    (∀ call o, (perform s o call).2 ≠ .ok → Unchanged s (perform s o call).1) ∧
    ∀ call o, s.Balanced (perform s o call).1 := by
  have hinv : Matches s ∧ Known s := by
    refine h.invariant (fun s => Matches s ∧ Known s) (fun s hs => ?_)
      fun s e t hs hk ht => step_matches hs hk ht
    obtain rfl := hs
    exact ⟨matches_none rfl (fun p hp => (by cases hp)) fun c => (by simp),
      fun c hc => (by cases hc),fun c _ => rfl⟩
  exact ⟨hinv.1,fun call o hret => perform_failed hinv.2 hret,
    fun call o => perform_balanced s o call⟩

/-- The primary context is created and activated, and another one then replaces it. -/
theorem two_contexts : ∃ s, Reaches step Kept init s ∧ Matches s ∧ s.stack = [0,1] ∧
    s.active = 1 ∧ s.activated 0 = false ∧ s.activated 1 = true := by
  have hprimary : Reaches step Kept init _ :=
    .step (.getPrimaryContext true,{}) (.init rfl) trivial rfl
  have hcreated : Reaches step Kept init _ := .step (.createContext,{}) hprimary trivial rfl
  have hactivated : Reaches step Kept init _ := .step (.activateContext 1,{}) hcreated trivial rfl
  exact ⟨_,hactivated,(context_stack_matches hactivated).1,rfl,rfl,rfl,rfl⟩

/-- A layer is suspended whose active context could not be deactivated, and a context is removed
from the stack which stays activated. -/
theorem suspended_active : ∃ s t, Reaches step (fun _ _ => True) init s ∧ s.suspended = true ∧
    s.activated 0 = true ∧ ¬ Matches s ∧
    Reaches step (fun _ _ => True) init t ∧ t.stack = [] ∧ t.activated 0 = true := by
  have hprimary : Reaches step (fun _ _ => True) init _ :=
    .step (.getPrimaryContext true,{}) (.init rfl) trivial rfl
  have hsuspended : Reaches step (fun _ _ => True) init _ :=
    .step (.suspend,{deactivate := .failure}) hprimary trivial rfl
  have hremoved : Reaches step (fun _ _ => True) init _ :=
    .step (.removeContext 0,{deactivate := .failure}) hprimary trivial rfl
  refine ⟨_,_,hsuspended,rfl,rfl,fun h => ?_,hremoved,rfl,rfl⟩
  have hnone := (h.activated 0).mp rfl
  rw [target_suspended rfl] at hnone
  cases hnone

end DirectFB.LayerControl
