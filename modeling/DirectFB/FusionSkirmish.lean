import DirectFB.LockOrder
import DirectFB.Types

/-! Taking several skirmishs at once: the order they are acquired in, and the roll-back
where one of them cannot be acquired. -/
namespace DirectFB.FusionSkirmish
open LockOrder Transition

/-- The address of a `FusionSkirmish`. -/
abbrev Address := BitVec 64

/-- `ptr_compare`: the low words of both addresses, subtracted and taken as an `int`. -/
def ptrCompare (p1 p2 : Address) : ℤ := (p1.setWidth 32-p2.setWidth 32).toInt

def Before (a b : Address) : Prop := ptrCompare a b < 0

instance (a b : Address) : Decidable (Before a b) := inferInstanceAs (Decidable (_ < _))

/-- A comparison that `qsort` can rely on for the elements of a list. -/
structure Comparison {α : Type} (compar : α → α → ℤ) (l : List α) : Prop where
  self : ∀ a ∈ l, compar a a = 0
  swap : ∀ a ∈ l, ∀ b ∈ l, 0 < compar a b ↔ compar b a < 0
  trans : ∀ a ∈ l, ∀ b ∈ l, ∀ c ∈ l, compar a b ≤ 0 → compar b c ≤ 0 → compar a c ≤ 0

/-- What is promised of `qsort`, however it sorts: the same elements, in ascending order
where the comparison is one. -/
structure Qsort (α : Type) where
  sort : (α → α → ℤ) → List α → List α
  perm : ∀ compar l, (sort compar l).Perm l
  sorted : ∀ compar l, Comparison compar l → (sort compar l).Pairwise fun a b => compar a b ≤ 0

/-- `skirmishs_sorted`. -/
def skirmishsSorted (q : Qsort Address) (skirmishs : List Address) : List Address :=
  q.sort ptrCompare skirmishs

/-- What a call does: it takes a skirmish, with a result, or dismisses one. -/
inductive Action
  | prevail (skirmish : Address) (ret : DirectResult)
  | dismiss (skirmish : Address)
  deriving DecidableEq

/-- How a call ends. -/
inductive Outcome
  | returned (ret : DirectResult)
  | outOfBounds (index : ℕ)
  deriving DecidableEq

/-- The first loop: what it did, its counter, and `ret`. -/
def acquire (prevail : Address → DirectResult) :
    List Address → List Action × BitVec 32 × DirectResult
  | [] => ([],0,.ok)
  | s::rest =>
    if prevail s = .ok then
      let r := acquire prevail rest
      (.prevail s .ok::r.1,r.2.1+1,r.2.2)
    else ([.prevail s (prevail s)],0,prevail s)

def acquired (actions : List Action) : List Address :=
  actions.filterMap fun
    | .prevail s .ok => some s
    | _ => none

def Request (D : Set Address) (skirmishs : List Address) : Prop :=
  skirmishs.Nodup ∧ ∀ s ∈ skirmishs, s ∈ D

def Ordered (q : Qsort Address) (D : Set Address) : Prop :=
  ∃ lt : Address → Address → Prop, IsStrictOrder Address lt ∧
    (∀ a ∈ D, ∀ b ∈ D, a ≠ b → lt a b ∨ lt b a) ∧
    ∀ skirmishs, Request D skirmishs → (skirmishsSorted q skirmishs).Pairwise lt

/-- `ptr_compare` is a strict order on the skirmishs in use. -/
structure Consistent (D : Set Address) : Prop where
  swap : ∀ a ∈ D, ∀ b ∈ D, a ≠ b → (Before a b ↔ ¬ Before b a)
  trans : ∀ a ∈ D, ∀ b ∈ D, ∀ c ∈ D, Before a b → Before b c → Before a c

@[simp] theorem ptrCompare_self (a : Address) : ptrCompare a a = 0 := by
  simp [ptrCompare]

theorem not_before_self (a : Address) : ¬ Before a a := by
  simp [Before]

/-- A difference and its negative, as an `int`. -/
theorem toInt_sub_swap (x y : BitVec 32) :
    (0 < (x-y).toInt → (y-x).toInt < 0) ∧ ((x-y).toInt = 0 → (y-x).toInt = 0) := by
  have hx := x.isLt
  have hy := y.isLt
  simp only [BitVec.toInt_eq_toNat_cond,BitVec.toNat_sub]
  constructor <;> intro h <;> split_ifs at h ⊢ <;> omega

theorem before_of_pos {a b : Address} (h : 0 < ptrCompare a b) : Before b a :=
  (toInt_sub_swap _ _).1 h

theorem ptrCompare_eq_zero {a b : Address} (h : ptrCompare a b = 0) : ptrCompare b a = 0 :=
  (toInt_sub_swap _ _).2 h

namespace Consistent
variable {D : Set Address}

theorem before_of_le (h : Consistent D) {a b : Address} (ha : a ∈ D) (hb : b ∈ D) (hab : a ≠ b)
    (hle : ptrCompare a b ≤ 0) : Before a b := by
  by_contra hn
  have hzero : ptrCompare a b = 0 := by
    unfold Before at hn
    omega
  have hba : Before b a := by
    by_contra hn'
    exact hn ((h.swap a ha b hb hab).mpr hn')
  rw [Before,ptrCompare_eq_zero hzero] at hba
  exact lt_irrefl _ hba

theorem comparison (h : Consistent D) {l : List Address} (hl : ∀ a ∈ l, a ∈ D) :
    Comparison ptrCompare l where
  self a _ := ptrCompare_self a
  swap a ha b hb := by
    refine ⟨before_of_pos,fun hba => ?_⟩
    by_contra hn
    have hab : a ≠ b := by
      rintro rfl
      exact not_before_self _ hba
    have hbefore := h.before_of_le (hl a ha) (hl b hb) hab (by omega)
    exact (h.swap a (hl a ha) b (hl b hb) hab).mp hbefore hba
  trans a ha b hb c hc hab hbc := by
    by_cases hne : a = b
    · exact hne ▸ hbc
    · by_cases hne' : b = c
      · exact hne' ▸ hab
      · have hab := h.before_of_le (hl a ha) (hl b hb) hne hab
        have hbc := h.before_of_le (hl b hb) (hl c hc) hne' hbc
        exact (h.trans a (hl a ha) b (hl b hb) c (hl c hc) hab hbc).le

/-- The order in which all calls acquire their skirmishs. -/
theorem sorted (h : Consistent D) (q : Qsort Address) {skirmishs : List Address}
    (hr : Request D skirmishs) :
    (skirmishsSorted q skirmishs).Pairwise fun a b => a ∈ D ∧ b ∈ D ∧ Before a b := by
  have hperm := q.perm ptrCompare skirmishs
  have hle := q.sorted ptrCompare skirmishs (h.comparison hr.2)
  have hne : (skirmishsSorted q skirmishs).Pairwise (· ≠ ·) := hperm.nodup_iff.mpr hr.1
  refine (hle.and hne).imp_of_mem fun {a b} ha hb hab => ?_
  have haD : a ∈ D := hr.2 a (hperm.mem_iff.mp ha)
  have hbD : b ∈ D := hr.2 b (hperm.mem_iff.mp hb)
  exact ⟨haD,hbD,h.before_of_le haD hbD hab.2 hab.1⟩

theorem isStrictOrder (h : Consistent D) :
    IsStrictOrder Address fun a b => a ∈ D ∧ b ∈ D ∧ Before a b where
  irrefl a ha := not_before_self a ha.2.2
  trans a b c hab hbc :=
    ⟨hab.1,hbc.2.1,h.trans a hab.1 b hab.2.1 c hbc.2.1 hab.2.2 hbc.2.2⟩

theorem ordered (h : Consistent D) (q : Qsort Address) : Ordered q D := by
  refine ⟨fun a b => a ∈ D ∧ b ∈ D ∧ Before a b,h.isStrictOrder,fun a ha b hb hab => ?_,
    fun _ hr => h.sorted q hr⟩
  by_cases hba : Before b a
  · exact .inr ⟨hb,ha,hba⟩
  · exact .inl ⟨ha,hb,(h.swap a ha b hb hab).mpr hba⟩

end Consistent

/-- A `qsort` by insertion, which leaves elements that compare as equal in their order. -/
def insertionQsort (α : Type) : Qsort α where
  sort compar := List.insertionSort fun a b => compar a b ≤ 0
  perm compar := List.perm_insertionSort _
  sorted compar l h := by
    let r : {a // a ∈ l} → {a // a ∈ l} → Prop := fun a b => compar a b ≤ 0
    have : Std.Total r := ⟨fun a b => by
      have := h.swap b b.2 a a.2
      change compar a b ≤ 0 ∨ compar b a ≤ 0
      omega⟩
    have : IsTrans _ r := ⟨fun a b c => h.trans a a.2 b b.2 c c.2⟩
    have hs := List.pairwise_insertionSort r l.attach
    have hmap := List.map_insertionSort r (fun a b => compar a b ≤ 0) Subtype.val l.attach
      fun _ _ _ _ => Iff.rfl
    rw [List.attach_map_subtype_val] at hmap
    rw [← hmap]
    exact List.pairwise_map.mpr hs

theorem insertionQsort_pair (a b : Address) : skirmishsSorted (insertionQsort Address) [a,b] =
      if ptrCompare a b ≤ 0 then [a,b] else [b,a] := rfl

/-- Two calls for the same pair agree on its order only where `ptr_compare` is strict. -/
theorem Ordered.consistent {D : Set Address} (h : Ordered (insertionQsort Address) D) :
    Consistent D := by
  obtain ⟨lt,hlt,htotal,hsorted⟩ := h
  have hlt_of_le : ∀ {a b}, a ∈ D → b ∈ D → a ≠ b → ptrCompare a b ≤ 0 → lt a b := by
    intro a b ha hb hab hle
    have hp := hsorted [a,b] ⟨by simp [hab],by simp [ha,hb]⟩
    rw [insertionQsort_pair,if_pos hle] at hp
    simpa using hp
  have hswap : ∀ a ∈ D, ∀ b ∈ D, a ≠ b → (Before a b ↔ ¬ Before b a) := by
    intro a ha b hb hab
    refine ⟨fun h1 h2 => ?_,fun h2 => ?_⟩
    · exact asymm (r := lt) (hlt_of_le ha hb hab h1.le) (hlt_of_le hb ha hab.symm h2.le)
    · by_contra h1
      have hab0 : ptrCompare a b ≤ 0 := not_lt.mp fun hpos => h2 (before_of_pos hpos)
      have hba0 : ptrCompare b a ≤ 0 := not_lt.mp fun hpos => h1 (before_of_pos hpos)
      exact asymm (r := lt) (hlt_of_le ha hb hab hab0) (hlt_of_le hb ha hab.symm hba0)
  refine ⟨hswap,fun a ha b hb c hc hab hbc => ?_⟩
  have hne : ∀ {x y}, Before x y → x ≠ y := by
    rintro x _ hxy rfl
    exact not_before_self _ hxy
  have hac : a ≠ c := by
    rintro rfl
    exact (hswap a ha b hb (hne hab)).mp hab hbc
  rw [hswap a ha c hc hac]
  intro hca
  have hltac : lt a c := trans_of lt (hlt_of_le ha hb (hne hab) hab.le)
    (hlt_of_le hb hc (hne hbc) hbc.le)
  exact asymm (r := lt) hltac (hlt_of_le hc ha (hne hca) hca.le)

section Acquire
variable (prevail : Address → DirectResult)

theorem acquire_failed {pre post : List Address} {s : Address} (h : ∀ t ∈ pre, prevail t = .ok)
    (hs : prevail s ≠ .ok) : acquire prevail (pre++s::post) =
      ((pre.map fun t => Action.prevail t .ok)++[.prevail s (prevail s)],
        BitVec.ofNat 32 pre.length,prevail s) := by
  induction pre with
  | nil => simp [acquire,hs]
  | cons t pre ih =>
    have hpre := ih fun u hu => h u (List.mem_cons_of_mem _ hu)
    simp [acquire,h t (by simp),hpre,BitVec.ofNat_add]

end Acquire

def ring : Fin 3 → Address := ![0,0x60000000,0xC0000000]

/-- The first `m` of three callers have called, each for two of the skirmishs, and the first
`n` have acquired one. -/
def stage (m n : ℕ) (i : Fin 3) : Caller Address :=
  if i < n then ⟨[ring i,ring (i+1)],1⟩ else if i < m then ⟨[ring i,ring (i+1)],0⟩ else idle

end DirectFB.FusionSkirmish
