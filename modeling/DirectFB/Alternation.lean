import Mathlib.Data.List.Chain
import Mathlib.Data.List.Basic

/-! Begins and ends that parties receive in a log: whether they alternate, and whether one
is left without its end. -/
namespace Alternation

section Sequence

def Alternates (l : List Bool) : Prop := (false::l).IsChain (· ≠ ·)

def Matched (l : List Bool) : Prop := (false::l).IsChain fun a b => a = true ∨ b = true

def unmatched (l : List Bool) : Bool := l.getLast?.getD false

theorem unmatched_append (l : List Bool) (e : Bool) : unmatched (l++[e]) = e := by
  simp [unmatched]

theorem getLast_cons (l : List Bool) : (false::l).getLast? = some (unmatched l) := by
  unfold unmatched
  cases h : l.getLast? with
  | none =>
    rw [List.getLast?_eq_none_iff] at h
    rw [h]
    rfl
  | some e => rw [List.getLast?_cons,h]

theorem Alternates.append {l : List Bool} (h : Alternates l) {e : Bool} (he : unmatched l ≠ e) :
    Alternates (l++[e]) := by
  unfold Alternates
  rw [← List.cons_append,List.isChain_append]
  refine ⟨h,List.isChain_singleton e,fun a ha b hb => ?_⟩
  rw [getLast_cons] at ha
  cases ha
  cases hb
  exact he

theorem Matched.append {l : List Bool} (h : Matched l) {e : Bool}
    (he : unmatched l = true ∨ e = true) : Matched (l++[e]) := by
  unfold Matched
  rw [← List.cons_append,List.isChain_append]
  refine ⟨h,List.isChain_singleton e,fun a ha b hb => ?_⟩
  rw [getLast_cons] at ha
  cases ha
  cases hb
  exact he

end Sequence

section Log
variable {ω ε : Type*} [DecidableEq ω]

def received (f : ε → Option Bool) (w : ω) (log : List (ω × ε)) : List Bool :=
  log.filterMap fun p => if p.1 = w then f p.2 else none

def entryFor (o : Option ω) (e : ω → ε) : List (ω × ε) := (o.map fun v => (v,e v)).toList

variable {f : ε → Option Bool} {log : List (ω × ε)} {w : ω}

theorem received_append (f : ε → Option Bool) (w : ω) (log log' : List (ω × ε)) :
    received f w (log++log') = received f w log++received f w log' :=
  List.filterMap_append

theorem received_self {e : ω → ε} {b : Bool} (h : f (e w) = some b) (log : List (ω × ε)) :
    received f w (log++entryFor (some w) e) = received f w log++[b] := by
  rw [received_append]
  simp [received,entryFor,h]

theorem received_skip {o : Option ω} {e : ω → ε} (h : o = some w → f (e w) = none)
    (log : List (ω × ε)) : received f w (log++entryFor o e) = received f w log := by
  rw [received_append]
  cases o with
  | none => exact List.append_nil _
  | some v =>
    by_cases hv : v = w
    · subst hv
      simp [received,entryFor,h rfl]
    · simp [received,entryFor,hv]

def Holds (f : ε → Option Bool) (holder : Option ω) (log : List (ω × ε)) (w : ω) : Prop :=
  Alternates (received f w log) ∧ unmatched (received f w log) = decide (holder = some w)

theorem holds_nil (f : ε → Option Bool) (w : ω) : Holds f none [] w :=
  ⟨List.isChain_singleton false,rfl⟩

theorem Holds.begins {e : ω → ε} (he : ∀ v, f (e v) = some true) (h : Holds f none log w)
    (holder : Option ω) : Holds f holder (log++entryFor holder e) w := by
  unfold Holds
  by_cases hv : holder = some w
  · subst hv
    rw [received_self (he w),unmatched_append]
    refine ⟨h.1.append ?_,by simp⟩
    rw [h.2]
    simp
  · rw [received_skip fun ho => absurd ho hv]
    refine ⟨h.1,h.2.trans ?_⟩
    simp [hv]

theorem Holds.ends {e : ω → ε} (he : ∀ v, f (e v) = some false) {holder : Option ω}
    (h : Holds f holder log w) : Holds f none (log++entryFor holder e) w := by
  unfold Holds
  by_cases hv : holder = some w
  · subst hv
    rw [received_self (he w),unmatched_append]
    refine ⟨h.1.append ?_,by simp⟩
    rw [h.2]
    simp
  · rw [received_skip fun ho => absurd ho hv]
    refine ⟨h.1,h.2.trans ?_⟩
    simp [hv]

theorem Holds.skip {e : ω → ε} (he : ∀ v, f (e v) = none) {holder : Option ω}
    (h : Holds f holder log w) (o : Option ω) : Holds f holder (log++entryFor o e) w := by
  unfold Holds
  rw [received_skip fun _ => he w]
  exact h

theorem Holds.forget {holder : Option ω} (h : Holds f holder log w) (hne : holder ≠ some w) :
    Holds f none log w :=
  ⟨h.1,h.2.trans (by simp [hne])⟩

end Log

end Alternation
