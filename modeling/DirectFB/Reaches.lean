import Mathlib.Tactic

/-! Runs of a partial step function. A component is a function from a state and
an event to the next state, undefined where the event is not possible. -/
namespace Transition

section Reaches

variable {σ ε : Type*}

def exec (step : σ → ε → Option σ) : σ → List ε → Option σ
  | s, [] => some s
  | s, e::es => (step s e).bind fun t => exec step t es

/-- States reached from an initial state by steps which all meet `ok`. -/
inductive Reaches (step : σ → ε → Option σ) (ok : σ → ε → Prop) (init : σ → Prop) : σ → Prop
  | init {s : σ} : init s → Reaches step ok init s
  | step {s t : σ} (e : ε) : Reaches step ok init s → ok s e → step s e = some t →
      Reaches step ok init t

variable {step : σ → ε → Option σ} {ok : σ → ε → Prop} {init : σ → Prop}

theorem exec_single {s t : σ} {e : ε} (h : step s e = some t) : exec step s [e] = some t := by
  rw [exec,h]
  rfl

theorem exec_append {es es' : List ε} {s t u : σ} (h : exec step s es = some t)
    (h' : exec step t es' = some u) : exec step s (es++es') = some u := by
  induction es generalizing s with
  | nil =>
    obtain rfl : s = t := by simpa [exec] using h
    exact h'
  | cons e es ih =>
    obtain ⟨v,hv,hrest⟩ := Option.bind_eq_some_iff.mp h
    rw [List.cons_append,exec,hv]
    exact ih hrest

theorem Reaches.invariant (inv : σ → Prop) (hinit : ∀ s, init s → inv s)
    (hstep : ∀ s e t, inv s → ok s e → step s e = some t → inv t)
    {s : σ} (h : Reaches step ok init s) : inv s := by
  induction h with
  | init hi => exact hinit _ hi
  | step _ _ hok hs ih => exact hstep _ _ _ ih hok hs

theorem Reaches.exec_of {es : List ε} {s t : σ} (h : Reaches step ok init s)
    (hok : ∀ e ∈ es, ∀ u, ok u e) (ht : exec step s es = some t) : Reaches step ok init t := by
  induction es generalizing s with
  | nil =>
    obtain rfl : s = t := by simpa [Transition.exec] using ht
    exact h
  | cons e es ih =>
    obtain ⟨u,hu,hrest⟩ := Option.bind_eq_some_iff.mp ht
    refine ih (.step e h (hok e List.mem_cons_self s) hu) (fun e he => ?_) hrest
    exact hok e (List.mem_cons_of_mem _ he)

theorem Reaches.exec {es : List ε} {s t : σ} (h : Reaches step ok init s)
    (hok : ∀ u e, ok u e) (ht : exec step s es = some t) : Reaches step ok init t :=
  h.exec_of (fun e _ u => hok u e) ht

def execOk (step : σ → ε → Option σ) (ok : σ → ε → Prop) [∀ s, DecidablePred (ok s)] :
    σ → List ε → Option σ
  | s, [] => some s
  | s, e::es => if ok s e then (step s e).bind fun t => execOk step ok t es else none

theorem Reaches.exec_ok [∀ s, DecidablePred (ok s)] {es : List ε} {s t : σ}
    (h : Reaches step ok init s) (ht : execOk step ok s es = some t) : Reaches step ok init t := by
  induction es generalizing s with
  | nil =>
    obtain rfl : s = t := Option.some.inj ht
    exact h
  | cons e es ih =>
    rw [execOk] at ht
    split_ifs at ht with hok
    obtain ⟨u,hu,hrest⟩ := Option.bind_eq_some_iff.mp ht
    exact ih (.step e h hok hu) hrest

end Reaches

theorem foldl_keeps {σ β γ : Type*} (g : σ → β) {f : σ → γ → σ} (h : ∀ s x, g (f s x) = g s)
    (l : List γ) (s : σ) : g (l.foldl f s) = g s := by
  induction l generalizing s with
  | nil => rfl
  | cons x l ih => rw [List.foldl_cons,ih,h]

end Transition
