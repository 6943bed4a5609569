import Mathlib.Data.Option.Basic
import Mathlib.Tactic

/-! Getting an object of a pool by its id, with a reference for the caller. -/
namespace DirectFB.FusionObjectGet

/-- The results that the lock and the reference may have, and those of the function itself. -/
inductive Result
  | ok | idNotFound | dead | destroyed | locked | fusion | failure
  deriving DecidableEq

structure Answers where
  prevail : Result
  stat : Result
  up : Result

/-- The references of the objects in the pool, by their ids, and how often the caller holds the
lock of the pool. -/
structure State where
  refs : ℕ → Option ℕ
  held : ℤ

/-- `fusion_skirmish_prevail` -/
def prevail (a : Answers) (s : State) : Result × State :=
  (a.prevail,if a.prevail = .ok then {s with held := s.held+1} else s)

/-- `fusion_skirmish_dismiss` -/
def dismiss (s : State) : State := {s with held := s.held-1}

/-- `fusion_object_ref` -/
def objectRef (a : Answers) (s : State) (id refs : ℕ) : Result × State :=
  (a.up,if a.up = .ok then {s with refs := Function.update s.refs id (some (refs+1))} else s)

/-- What is returned, the object that is written to `ret_object`, and what is left. -/
structure Outcome where
  result : Result
  object : Option ℕ
  state : State

/-- The part of `fusion_object_get` for an object that was found. -/
def getFound (a : Answers) (s : State) (id refs : ℕ) : Result × State :=
  if a.stat = .ok then if refs > 0 then objectRef a s id refs else (.dead,s)
  else (a.stat,s)

/-- `fusion_object_get`. The result of the lock is what is returned if the lookup finds nothing,
and the lock is dismissed at the end in any case. -/
def objectGet (a : Answers) (s : State) (id : ℕ) : Outcome :=
  let r := prevail a s
  if r.1 = .ok then
    match r.2.refs id with
    | some refs =>
      let r := getFound a r.2 id refs
      ⟨r.1,some id,dismiss r.2⟩
    | none => ⟨r.1,none,dismiss r.2⟩
  else ⟨r.1,none,dismiss r.2⟩

structure Truthful (s : State) (id : ℕ) (o : Outcome) : Prop where
  ok : o.result = .ok ↔ ∃ refs, s.refs id = some refs ∧ o.state.refs id = some (refs+1)
  object : o.result = .ok → o.object = some id
  notFound : s.refs id = none → o.result = .idNotFound
  dead : s.refs id = some 0 → o.result = .dead
  error : o.result ≠ .ok → o.state.refs = s.refs
  others : ∀ j ≠ id, o.state.refs j = s.refs j
  held : o.state.held = s.held

section Cases

variable {a : Answers} {s : State} {id refs : ℕ}

theorem getFound_held : (getFound a s id refs).2.held = s.held := by
  unfold getFound objectRef
  split_ifs <;> rfl

theorem getFound_error (h : (getFound a s id refs).1 ≠ .ok) :
    (getFound a s id refs).2.refs = s.refs := by
  unfold getFound objectRef at h ⊢
  split_ifs with hstat hrefs hup
  · rw [if_pos hstat,if_pos hrefs] at h
    exact absurd hup h
  · rfl
  · rfl
  · rfl

theorem getFound_ok (h : (getFound a s id refs).1 = .ok) :
    (getFound a s id refs).2.refs = Function.update s.refs id (some (refs+1)) := by
  unfold getFound objectRef at h ⊢
  split_ifs with hstat hrefs hup
  · rfl
  · rw [if_pos hstat,if_pos hrefs] at h
    exact absurd h hup
  · rw [if_pos hstat,if_neg hrefs] at h
    cases h
  · rw [if_neg hstat] at h
    exact absurd h hstat

theorem getFound_dead : (getFound a s id 0).1 = .dead ↔ a.stat = .ok ∨ a.stat = .dead := by
  unfold getFound
  by_cases hstat : a.stat = .ok
  · rw [if_pos hstat,if_neg (lt_irrefl 0)]
    exact iff_of_true rfl (.inl hstat)
  · rw [if_neg hstat]
    exact (or_iff_right hstat).symm

theorem objectGet_found (hlock : a.prevail = .ok) (hfound : s.refs id = some refs) :
    objectGet a s id = ⟨(getFound a {s with held := s.held+1} id refs).1,some id,
        dismiss (getFound a {s with held := s.held+1} id refs).2⟩ := by
  unfold objectGet prevail
  simp only [hlock,if_true]
  rw [hfound]

end Cases

/-- The answer is truthful if the lock is acquired and the object exists, and if the references of
the object can be counted where it has none. -/
theorem objectGet_truthful_iff (a : Answers) (s : State) (id : ℕ) :
    Truthful s id (objectGet a s id) ↔ a.prevail = .ok ∧ (s.refs id).isSome ∧
      (s.refs id = some 0 → a.stat = .ok ∨ a.stat = .dead) := by
  by_cases hlock : a.prevail = .ok
  · cases hfound : s.refs id with
    | none =>
      refine iff_of_false (fun h => ?_) fun h => Bool.noConfusion h.2.1
      have hok : (objectGet a s id).result = .ok := by
        unfold objectGet prevail
        simp only [hlock,if_true]
        rw [hfound]
      exact absurd (hok.symm.trans (h.notFound hfound)) (by decide)
    | some refs =>
      rw [objectGet_found hlock hfound]
      constructor
      · intro h
        refine ⟨hlock,rfl,fun hzero => ?_⟩
        obtain rfl := Option.some.inj hzero
        exact getFound_dead.mp (h.dead hfound)
      · rintro ⟨-,-,hdead⟩
        refine ⟨⟨fun h => ⟨refs,hfound,?_⟩,?_⟩,fun _ => rfl,?_,?_,?_,?_,?_⟩
        · exact (congrFun (getFound_ok h) id).trans (Function.update_self ..)
        · rintro ⟨refs',hfound',hadded⟩
          by_contra h
          have hkept := congrFun (getFound_error h) id
          have := hadded.symm.trans (hkept.trans hfound')
          exact absurd (Option.some.inj this) (Nat.succ_ne_self refs')
        · exact fun h => absurd (hfound.symm.trans h) (by simp)
        · intro hzero
          obtain rfl := Option.some.inj (hfound.symm.trans hzero)
          exact getFound_dead.mpr (hdead rfl)
        · exact fun h => getFound_error h
        · intro j hj
          by_cases h : (getFound a {s with held := s.held+1} id refs).1 = .ok
          · exact (congrFun (getFound_ok h) j).trans (Function.update_of_ne hj ..)
          · exact congrFun (getFound_error h) j
        · exact (congrArg (·-1) getFound_held).trans (add_sub_cancel_right s.held 1)
  · refine iff_of_false (fun h => ?_) fun h => hlock h.1
    have hheld := h.held
    unfold objectGet prevail dismiss at hheld
    simp only [hlock,if_false] at hheld
    omega

/-- No object has the id, and the lock is acquired. -/
theorem missing_is_ok :
    ¬ ∀ (a : Answers) (s : State) (id : ℕ), Truthful s id (objectGet a s id) := by
  intro h
  exact absurd ((h ⟨.ok,.ok,.ok⟩ ⟨fun _ => none,0⟩ 1).notFound rfl) (by decide)

end DirectFB.FusionObjectGet
