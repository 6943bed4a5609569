import Mathlib.Logic.Relation
import DirectFB.Reaches

/-! Callers that each acquire a list of resources, one after the other. Where every list
ascends in one order, no callers wait for each other in a cycle. -/
namespace LockOrder
open Transition

/-- The resources a caller wants, in the order it acquires them, and how many it has. -/
structure Caller (α : Type*) where
  wanted : List α
  taken : ℕ

variable {ι α β : Type*}

def Caller.held (c : Caller α) : List α := c.wanted.take c.taken

def Caller.next? (c : Caller α) : Option α := c.wanted[c.taken]?

def idle : Caller α := ⟨[],0⟩

inductive Event (ι β : Type*)
  | call (i : ι) (request : β)
  | acquire (i : ι)
  | release (i : ι)

def step [DecidableEq ι] (arrange : β → List α) (c : ι → Caller α) :
    Event ι β → Option (ι → Caller α)
  | .call i request =>
    if (c i).wanted = [] then some (Function.update c i ⟨arrange request,0⟩) else none
  | .acquire i => (c i).next?.map fun _ => Function.update c i ⟨(c i).wanted,(c i).taken+1⟩
  | .release i => some (Function.update c i idle)

/-- Only the requests in `R` are made, and only what no other holds is acquired. -/
def Allowed (R : β → Prop) (c : ι → Caller α) : Event ι β → Prop
  | .call _ request => R request
  | .acquire i => ∀ a, (c i).next? = some a → ∀ j, j ≠ i → a ∉ (c j).held
  | .release _ => True

def Running [DecidableEq ι] (arrange : β → List α) (R : β → Prop) : (ι → Caller α) → Prop :=
  Reaches (step arrange) (Allowed R) fun c => ∀ i, c i = idle

/-- Every list acquired in a run is that of a request. -/
theorem Running.wanted [DecidableEq ι] {arrange : β → List α} {R : β → Prop} {c : ι → Caller α}
    (h : Running arrange R c) (i : ι) :
    (c i).wanted = [] ∨ ∃ request, R request ∧ (c i).wanted = arrange request := by
  refine Reaches.invariant
    (fun c => ∀ i, (c i).wanted = [] ∨ ∃ request, R request ∧ (c i).wanted = arrange request)
    (fun c hc i => .inl (by rw [hc i]; rfl)) ?_ h i
  intro c e t hinv hok hs j
  cases e with
  | call k request =>
    simp only [step,Option.ite_none_right_eq_some,Option.some.injEq] at hs
    obtain ⟨-,rfl⟩ := hs
    rcases eq_or_ne j k with rfl | hjk
    · exact .inr ⟨request,hok,by simp⟩
    · simpa [hjk] using hinv j
  | acquire k =>
    simp only [step,Option.map_eq_some_iff] at hs
    obtain ⟨-,-,rfl⟩ := hs
    rcases eq_or_ne j k with rfl | hjk
    · simpa using hinv j
    · simpa [hjk] using hinv j
  | release k =>
    simp only [step,Option.some.injEq] at hs
    subst hs
    rcases eq_or_ne j k with rfl | hjk
    · exact .inl (by simp [idle])
    · simpa [hjk] using hinv j

end LockOrder
