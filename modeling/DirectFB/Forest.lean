import Mathlib.Tactic
import Mathlib.Logic.Relation
import Mathlib.Order.WellFounded

/-! Forests of things that know their parents. -/
namespace Forest
open Relation

variable {α : Type*} {parent : α → Option α} {a b c p : α}

def Below (parent : α → Option α) (c p : α) : Prop := parent c = some p

def IsForest (parent : α → Option α) : Prop := WellFounded (Below parent)

/-- The thing is in the tree of the other. -/
abbrev InTree (parent : α → Option α) (c p : α) : Prop := ReflTransGen (Below parent) c p

theorem IsForest.irrefl (h : IsForest parent) (hcp : Below parent c p) : ¬InTree parent p c := by
  intro hpc
  have hcycle : TransGen (Below parent) c c := .head' hcp hpc
  exact h.transGen.irrefl.irrefl c hcycle

theorem InTree.total (ha : InTree parent c a) (hb : InTree parent c b) :
    InTree parent a b ∨ InTree parent b a := by
  induction ha using ReflTransGen.head_induction_on with
  | refl => exact .inl hb
  | head hstep hrest ih =>
    obtain rfl | ⟨z,hz,hzb⟩ := ReflTransGen.cases_head hb
    · exact .inr (.head hstep hrest)
    · obtain rfl := Option.some.inj (hstep.symm.trans hz)
      exact ih hzb

theorem IsForest.disjoint (h : IsForest parent) (ha : Below parent a p) (hb : Below parent b p)
    (hne : a ≠ b) (hca : InTree parent c a) : ¬InTree parent c b := by
  intro hcb
  have hcase : ∀ x y, Below parent x p → Below parent y p → x ≠ y → ¬InTree parent x y := by
    intro x y hx hy hxy hin
    obtain rfl | ⟨z,hz,hzy⟩ := ReflTransGen.cases_head hin
    · exact hxy rfl
    · obtain rfl : p = z := Option.some.inj (hx.symm.trans hz)
      exact h.irrefl hy hzy
  obtain hab | hba := hca.total hcb
  · exact hcase a b ha hb hne hab
  · exact hcase b a hb ha hne.symm hba

theorem IsForest.mono {parent' : α → Option α} (h : IsForest parent)
    (hsub : ∀ c p, parent' c = some p → parent c = some p) : IsForest parent' :=
  Subrelation.wf (fun {c p} hcp => hsub c p hcp) h

/-- A thing gets a new parent that is not in its tree. -/
theorem IsForest.attach [DecidableEq α] (h : IsForest parent) (hnot : ¬InTree parent p c) :
    IsForest (Function.update parent c (some p)) := by
  have hcases : ∀ x y, Below (Function.update parent c (some p)) x y →
      x = c ∧ y = p ∨ x ≠ c ∧ Below parent x y := by
    intro x y hxy
    unfold Below at hxy
    by_cases hx : x = c
    · subst hx
      rw [Function.update_self] at hxy
      exact .inl ⟨rfl,(Option.some.inj hxy).symm⟩
    · rw [Function.update_of_ne hx] at hxy
      exact .inr ⟨hx,hxy⟩
  -- trees without the new parent are as before
  have hother : ∀ y, ¬InTree parent p y → Acc (Below (Function.update parent c (some p))) y := by
    intro y
    induction y using h.induction with
    | _ y ih =>
      intro hy
      refine .intro y fun x hx => ?_
      obtain ⟨-,rfl⟩ | ⟨-,hx⟩ := hcases x y hx
      · exact absurd .refl hy
      · exact ih x hx fun hpx => hy (hpx.tail hx)
  refine ⟨fun y => ?_⟩
  induction y using h.induction with
  | _ y ih =>
    refine .intro y fun x hx => ?_
    obtain ⟨rfl,-⟩ | ⟨-,hx⟩ := hcases x y hx
    · exact hother x hnot
    · exact ih x hx

theorem IsForest.no_cycle (h : IsForest parent) (c : α) : ¬TransGen (Below parent) c c :=
  h.transGen.irrefl.irrefl c

end Forest
