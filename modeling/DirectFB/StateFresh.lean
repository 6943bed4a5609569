import DirectFB.Reaches
import DirectFB.StateFlags

/-! What the driver works from when a state is acquired: the answer that acceleration relies on and
the flags that `SetState` was given, over every run of states that share the card. -/
namespace DirectFB.StateFresh
open Function (update update_of_ne update_self)

open CardState StateAcquire Transition

/-- A card with what is remembered of its run: for each state what happened since the driver
answered for a function and since the state was last set, and the state that was last set. -/
structure Run (T S : Type*) where
  card : Card T S
  answered : T → Accel → Since
  set : T → Since
  last : Option T

inductive Event (T S : Type*)
  | set (t : T) (setter : Setter S)
  | reconfig (u : S) (numBuffers : ℕ) (w h : ℤ)
  | checkAcquire (t : T) (accel : Accel) (a : Answers)
  | release (t : T)

section Steps

variable {T S : Type*} [DecidableEq T] [DecidableEq S]

def Run.change (r : Run T S) (c : Card T S) (t : T) : Run T S :=
  let x := changes (r.card.states t) (c.states t)
  {r with
    card := c
    answered := update r.answered t fun accel => (r.answered t accel).change x
    set := update r.set t ((r.set t).change x)}

def Run.acquire (r : Run T S) (t : T) (o : Outcome T S) : Run T S :=
  let r := r.change o.card t
  let r := {r with answered := update r.answered t fun accel =>
    if accel ∈ o.answered then ⟨∅,∅⟩ else r.answered t accel}
  o.setState.elim r fun m =>
    {r with set := update r.set t ⟨∅,(r.set t).reconfigured \ m⟩, last := some t}

/-- `dfb_surface_reconfig`, which increases the serial. -/
def Run.reconfig (r : Run T S) (u : S) (numBuffers : ℕ) (w h : ℤ) : Run T S :=
  {r with
    card := {r.card with
      surfaces := update r.card.surfaces u ⟨(r.card.surfaces u).serial+1,numBuffers,w,h⟩}
    answered := fun t accel => (r.answered t accel).reconfigure (holding (r.card.states t) u)
    set := fun t => (r.set t).reconfigure (holding (r.card.states t) u)}

def step (d : Device) (r : Run T S) : Event T S → Option (Run T S)
  | .set t setter =>
    some (r.change (r.card.put t (setter.apply r.card.surfaces (r.card.states t))) t)
  | .reconfig u numBuffers w h => some (r.reconfig u numBuffers w h)
  | .checkAcquire t accel a =>
    if a.shutdown then none else (checkAcquire d r.card t accel a).map (r.acquire t)
  | .release t => (release r.card t).map fun c => r.change c t

/-- States are as `dfb_state_init` leaves them; no function was answered and no state was set. -/
structure Initial (r : Run T S) : Prop where
  states : ∀ t, ∃ opts, r.card.states t = {renderOptions := opts}
  state : r.card.state = none
  answered : ∀ t accel, r.answered t accel = ⟨Modification.all,Modification.all⟩
  set : ∀ t, r.set t = ⟨Modification.all,Modification.all⟩

def Kept (d : Device) (r : Run T S) : Event T S → Prop
  | .checkAcquire t accel a =>
    (enter d r.card.surfaces (r.card.states t) accel a).1 = true →
      Rechecks r.card.surfaces (prepare r.card.surfaces
        (enter d r.card.surfaces (r.card.states t) accel a).2) accel
  | _ => True

/-- The answer for an acquired function and the flags given to `SetState` are up to date. -/
structure Fresh (r : Run T S) (t : T) (accel : Accel) (o : Outcome T S) : Prop where
  changed : ∀ x ∈ depends accel, x ∉ ((r.acquire t o).answered t accel).changed
  reconfigured : ∀ x ∈ used (r.card.states t) accel,
    x ∉ ((r.acquire t o).answered t accel).reconfigured
  set : ∀ m ∈ o.setState, ∀ x, x ∈ ((r.change o.card t).set t).changed ∨
    x ∈ used (r.card.states t) accel ∧ x ∈ (r.set t).reconfigured → x ∈ m
  notSet : o.setState = none → r.last = some t ∧ ((r.change o.card t).set t).changed = ∅ ∧
    ∀ x ∈ used (r.card.states t) accel, x ∉ (r.set t).reconfigured

end Steps

section Locking

variable {T S : Type*} [DecidableEq T] [DecidableEq S] {c c' c'' : Card T S} {t : T}

/-- A state of which at most the accelerated functions and the flags of locks were changed. -/
structure Rest (s s' : CardState S) : Prop where
  checked : ∀ g ∈ s'.checked, g ∈ s'.accel → g ∈ s.checked ∧ g ∈ s.accel
  modified : s'.modified = s.modified
  modHw : s'.modHw = s.modHw
  surface : surfaceOf s' = surfaceOf s
  serial : serialOf s' = serialOf s
  same : ∀ x, ¬ Differs s s' x

omit [DecidableEq S] in
theorem Rest.refl (s : CardState S) : Rest s s :=
  ⟨fun _ hc ha => ⟨hc,ha⟩,rfl,rfl,rfl,rfl,fun x hx => by cases x <;> simp [Differs] at hx⟩

omit [DecidableEq S] in
theorem Rest.of (s : CardState S) {enabled checked : Finset Accel} (flags : Finset LockFlag)
    (h : ∀ g ∈ checked, g ∈ enabled → g ∈ s.checked ∧ g ∈ s.accel) :
    Rest s {s with accel := enabled, checked := checked, flags := flags} :=
  ⟨h,rfl,rfl,rfl,rfl,fun x hx => by cases x <;> simp [Differs] at hx⟩

omit [DecidableEq S] in
theorem Rest.trans {s s' s'' : CardState S} (h : Rest s s') (h' : Rest s' s'') : Rest s s'' := by
  refine ⟨fun g hc ha => ?_,h'.modified.trans h.modified,h'.modHw.trans h.modHw,
    h'.surface.trans h.surface,h'.serial.trans h.serial,
    fun x hx => (hx.or s').elim (h.same x) (h'.same x)⟩
  obtain ⟨hc,ha⟩ := h'.checked g hc ha
  exact h.checked g hc ha

omit [DecidableEq S] in
theorem Rest.flagged {s s' : CardState S} (h : Rest s s') (surfaces : S → CoreSurface) :
    Flagged surfaces s s' := by
  refine ⟨h.checked,h.modified.ge,fun x hx => absurd hx (h.same x),h.modHw,
    fun x => .inr ⟨congrFun h.surface x,congrFun h.serial x⟩,fun hs x u hu => ?_⟩
  rw [h.surface] at hu
  rw [h.serial]
  exact hs x u hu

structure Locks (t : T) (c c' : Card T S) : Prop where
  surfaces : c'.surfaces = c.surfaces
  state : c'.state = c.state
  others : ∀ t' ≠ t, c'.states t' = c.states t'
  rest : Rest (c.states t) (c'.states t)

omit [DecidableEq T] [DecidableEq S] in
theorem Locks.of_states (hsurfaces : c'.surfaces = c.surfaces) (hstate : c'.state = c.state)
    (h : c'.states = c.states) : Locks t c c' :=
  ⟨hsurfaces,hstate,fun _ _ => by rw [h],by rw [h]; exact .refl _⟩

omit [DecidableEq T] [DecidableEq S] in
theorem Locks.trans (h : Locks t c c') (h' : Locks t c' c'') : Locks t c c'' :=
  ⟨h'.surfaces.trans h.surfaces,h'.state.trans h.state,
    fun t' ht => (h'.others t' ht).trans (h.others t' ht),h.rest.trans h'.rest⟩

omit [DecidableEq S] in
@[simp] theorem put_states (c : Card T S) (t : T) (s : CardState S) : (c.put t s).states t = s := by
  simp [Card.put]

omit [DecidableEq S] in
theorem put_states_of_ne (c : Card T S) {t t' : T} (s : CardState S) (h : t' ≠ t) :
    (c.put t s).states t' = c.states t' := by
  simp [Card.put,h]

omit [DecidableEq S] in
theorem Locks.put {s : CardState S} (h : Rest (c.states t) s) : Locks t c (c.put t s) :=
  ⟨rfl,rfl,fun _ ht => put_states_of_ne c s ht,by rwa [put_states]⟩

omit [DecidableEq T] in
theorem lockBuffer_locks (c : Card T S) (t : T) (u : S) : Locks t c (c.lockBuffer u) :=
  .of_states rfl rfl rfl

omit [DecidableEq T] in
theorem unlockBuffer_locks (c : Card T S) (t : T) (u : S) : Locks t c (c.unlockBuffer u) :=
  .of_states rfl rfl rfl

omit [DecidableEq S] in
theorem setFlag_locks (c : Card T S) (t : T) (flag : LockFlag) : Locks t c (c.setFlag t flag) :=
  .put (.of (c.states t) _ fun _ hc ha => ⟨hc,ha⟩)

theorem unlockFlagged_locks {flag : LockFlag} {surface : Option S}
    (h : c.unlockFlagged t flag surface = some c') : Locks t c c' := by
  rw [Card.unlockFlagged] at h
  split_ifs at h
  · obtain ⟨u,-,rfl⟩ := Option.map_eq_some_iff.mp h
    exact (unlockBuffer_locks c t u).trans (.put (.of (c.states t) _ fun _ hc ha => ⟨hc,ha⟩))
  · cases h
    exact .of_states rfl rfl rfl

theorem unlockBuffers_locks (h : c.unlockBuffers t = some c') : Locks t c c' := by
  obtain ⟨dst,-,h⟩ := Option.bind_eq_some_iff.mp h
  obtain ⟨c₁,h₁,h⟩ := Option.bind_eq_some_iff.mp h
  obtain ⟨c₂,h₂,h₃⟩ := Option.bind_eq_some_iff.mp h
  exact (((unlockBuffer_locks c t dst).trans (unlockFlagged_locks h₁)).trans (unlockFlagged_locks h₂)).trans
    (unlockFlagged_locks h₃)

theorem release_locks (h : release c t = some c') : Locks t c c' := by
  obtain ⟨c₁,h₁,rfl⟩ := Option.map_eq_some_iff.mp h
  have h₀ : Locks t c {c with lock := c.lock-1} := .of_states rfl rfl rfl
  exact (h₀.trans (unlockBuffers_locks h₁)).trans (.of_states rfl rfl rfl)

variable {d : Device} {accel : Accel} {a : Answers} {l : List S} {b : Bool}

theorem lockSources_locks {dst : S} (h : lockSources d c t accel a dst l = some (b,c')) :
    Locks t c c' := by
  obtain ⟨src,-,h⟩ := Option.bind_eq_some_iff.mp h
  have hsys : Locks t c (if a.srcSystemonly && !d.readSysmem then c.put t {c.states t with
      accel := (c.states t).accel \ Accel.allBlit, checked := (c.states t).checked ∪ Accel.allBlit}
      else c) := by
    split_ifs
    · refine .put (.of (c.states t) _ fun g hc ha => ?_)
      obtain ⟨ha,hn⟩ := Finset.mem_sdiff.mp ha
      exact ⟨(Finset.mem_union.mp hc).resolve_right hn,ha⟩
    · exact .of_states rfl rfl rfl
  refine hsys.trans ?_
  generalize (if a.srcSystemonly && !d.readSysmem then c.put t {c.states t with
    accel := (c.states t).accel \ Accel.allBlit, checked := (c.states t).checked ∪ Accel.allBlit}
    else c) = c₀ at h
  dsimp only at h
  split at h
  · cases h
    exact .of_states rfl rfl rfl
  obtain ⟨⟨b₁,c₁⟩,h₁,h⟩ := Option.bind_eq_some_iff.mp h
  have hmask : Locks t c₀ c₁ := by
    split at h₁
    · obtain ⟨mask,-,h₁⟩ := Option.map_eq_some_iff.mp h₁
      split at h₁
      · cases h₁
        exact .of_states rfl rfl rfl
      · cases h₁
        exact ((lockBuffer_locks c₀ t src).trans (lockBuffer_locks _ t mask)).trans
          (setFlag_locks _ t _)
    · cases h₁
      exact .of_states rfl rfl rfl
  refine hmask.trans ?_
  split at h
  · cases h
    exact .of_states rfl rfl rfl
  obtain ⟨⟨b₂,c₂⟩,h₂,h⟩ := Option.map_eq_some_iff.mp h
  have hsource2 : Locks t c₁ c₂ := by
    split at h₂
    · obtain ⟨source2,-,h₂⟩ := Option.bind_eq_some_iff.mp h₂
      split at h₂
      · obtain ⟨c₃,h₃,h₂⟩ := Option.map_eq_some_iff.mp h₂
        cases h₂
        exact (unlockFlagged_locks h₃).trans (.of_states rfl rfl rfl)
      · cases h₂
        exact (lockBuffer_locks c₁ t source2).trans (setFlag_locks _ t _)
    · cases h₂
      exact .of_states rfl rfl rfl
  refine hsource2.trans ?_
  split at h
  · cases h
    exact .of_states rfl rfl rfl
  · cases h
    exact setFlag_locks _ t _

theorem lockBuffers_locks (h : lockBuffers d c t accel a l = some (b,c')) :
    Locks t c c' ∧ (b = true → accel ∈ (c.states t).accel) := by
  obtain ⟨dst,-,h⟩ := Option.bind_eq_some_iff.mp h
  split at h
  · cases h
    have hpush : Locks t c c.pushIdentity := .of_states rfl rfl rfl
    have hput : Locks t c.pushIdentity
        (c.pushIdentity.put t {c.states t with accel := ∅, checked := Accel.all}) :=
      .put (.of (c.states t) _ fun g _ ha => by simp at ha)
    exact ⟨(hpush.trans hput).trans (.of_states rfl rfl rfl),fun hb => Bool.noConfusion hb⟩
  split at h
  · cases h
    exact ⟨.of_states rfl rfl rfl,fun hb => Bool.noConfusion hb⟩
  rename_i haccel
  split at h
  · cases h
    exact ⟨.of_states rfl rfl rfl,fun hb => Bool.noConfusion hb⟩
  obtain ⟨⟨b₁,c₁⟩,h₁,h⟩ := Option.map_eq_some_iff.mp h
  refine ⟨?_,fun _ => not_not.mp haccel⟩
  have hdst : Locks t c (c.pushIdentity.lockBuffer dst) := .of_states rfl rfl rfl
  have hlock : Locks t c c₁ := by
    split at h₁
    · exact hdst.trans (lockSources_locks h₁)
    · cases h₁
      exact hdst
  refine hlock.trans ?_
  split at h
  · cases h
    exact .of_states rfl rfl rfl
  · cases h
    exact .of_states rfl rfl rfl

end Locking

section Runs

variable {T S : Type*} [DecidableEq T] [DecidableEq S] {c c' : Card T S} {t : T} {d : Device}
  {accel : Accel} {a : Answers} {o : Outcome T S} {r : Run T S}

variable {answered : Finset Accel} {set : Since}

theorem checkAcquire_cases {s' : CardState S}
    (hcheck : check c.surfaces (enter d c.surfaces (c.states t) accel a).2 accel a = (s',answered))
    (h : checkAcquire d c t accel a = some o) :
    ((enter d c.surfaces (c.states t) accel a).1 = false ∧
      o = ⟨c.put t (enter d c.surfaces (c.states t) accel a).2,∅,none,false⟩) ∨
    ((enter d c.surfaces (c.states t) accel a).1 = true ∧ ∃ c', Locks t (c.put t s') c' ∧
      (o = ⟨c',answered,none,false⟩ ∨ accel ∈ s'.accel ∧
        o = ⟨(setState c' t accel a).1,answered,(setState c' t accel a).2,true⟩)) := by
  simp only [checkAcquire] at h
  split at h
  · rename_i hr
    cases h
    exact .inl ⟨by simpa using hr,rfl⟩
  rename_i hr
  refine .inr ⟨by simpa using hr,?_⟩
  obtain ⟨l,-,h⟩ := Option.bind_eq_some_iff.mp h
  split at h
  · cases h
  have hprevail : (c.prevail l).surfaces = c.surfaces := rfl
  simp only [hprevail,hcheck] at h
  obtain ⟨⟨b,c₁⟩,h₁,h⟩ := Option.bind_eq_some_iff.mp h
  obtain ⟨hlocks,haccel⟩ := lockBuffers_locks h₁
  rw [put_states] at haccel
  have hput : Locks t (c.put t s') ((c.prevail l).put t s') := .of_states rfl rfl rfl
  have hlocked := hput.trans hlocks
  split at h
  · cases h
    exact ⟨_,hlocked,.inl rfl⟩
  rename_i hb
  split at h
  · obtain ⟨c₂,h₂,rfl⟩ := Option.map_eq_some_iff.mp h
    have hpop : Locks t c₂ c₂.popIdentity := .of_states rfl rfl rfl
    exact ⟨_,(hlocked.trans (unlockBuffers_locks h₂)).trans hpop,.inl rfl⟩
  · cases h
    have hcard : Locks t c₁ {c₁ with lock := c₁.lock+1} := .of_states rfl rfl rfl
    exact ⟨_,hlocked.trans hcard,.inr ⟨haccel (by simpa using hb),rfl⟩⟩

omit [DecidableEq S] in
theorem Inv.rest {surfaces : S → CoreSurface} {s s' : CardState S} {answered : Accel → Since} (h : Inv surfaces s answered set) (hr : Rest s s') :
    Inv surfaces s' answered set := by
  simpa using h.flagged (hr.flagged surfaces) (Finset.empty_subset _)

theorem Inv.reconfig {surfaces : S → CoreSurface} {s : CardState S} {answered : Accel → Since} (h : Inv surfaces s answered set) (u : S) (numBuffers : ℕ) (w ht : ℤ) :
    Inv (update surfaces u ⟨(surfaces u).serial+1,numBuffers,w,ht⟩) s
      (fun g => (answered g).reconfigure (holding s u)) (set.reconfigure (holding s u)) := by
  have hserial (v : S) : (surfaces v).serial ≤
      (update surfaces u ⟨(surfaces u).serial+1,numBuffers,w,ht⟩ v).serial := by
    by_cases hv : v = u
    · subst hv
      simp
    · simp [hv]
  have hold {x : Modification} (hx : outdated surfaces s x = true) : outdated
      (update surfaces u ⟨(surfaces u).serial+1,numBuffers,w,ht⟩) s x = true := by
    rw [outdated_eq,behind] at hx ⊢
    cases hu : surfaceOf s x with
    | none => simp [hu] at hx
    | some v =>
      simp only [hu,Option.elim_some,decide_eq_true_eq] at hx ⊢
      exact hx.trans_le (hserial v)
  have hnew {x : Modification} (hx : x ∈ holding s u) : outdated
      (update surfaces u ⟨(surfaces u).serial+1,numBuffers,w,ht⟩) s x = true := by
    have hu := mem_holding.mp hx
    have hle := h.synced x u hu
    rw [outdated_eq,behind,hu]
    simp only [Option.elim_some,update_self,decide_eq_true_eq]
    omega
  refine ⟨fun x v hv => (h.synced x v hv).trans (hserial v),h.changed,fun g hc ha x hx hm => ?_,
    h.pending,fun x hx => ?_⟩
  · rcases Finset.mem_union.mp hm with hm | hm
    · exact (h.reconfigured g hc ha x hx hm).imp_right hold
    · exact .inr (hnew hm)
  · rcases Finset.mem_union.mp hx with hx | hx
    · exact (h.pendingSurface x hx).imp_right (Or.imp_right hold)
    · exact .inr (.inr (hnew hx))

structure RunInv (r : Run T S) : Prop where
  states : ∀ t, Inv r.card.surfaces (r.card.states t) (r.answered t) (r.set t)
  last : ∀ t, r.card.state = some t → r.last = some t

omit [DecidableEq T] [DecidableEq S] in
theorem Initial.inv (h : Initial r) : RunInv r := by
  refine ⟨fun t => ?_,fun t ht => ?_⟩
  · obtain ⟨opts,hs⟩ := h.states t
    rw [hs]
    refine ⟨fun x u hu => ?_,fun g hc => ?_,fun g hc => ?_,fun x _ => ?_,fun x _ => ?_⟩
    · cases x <;> simp [surfaceOf] at hu
    · simp at hc
    · simp at hc
    · simp
    · simp
  · simp [h.state] at ht

theorem acquire_answered (r : Run T S) (t : T) (o : Outcome T S) :
    (r.acquire t o).answered = update r.answered t (afterAnswers (fun g =>
      (r.answered t g).change (changes (r.card.states t) (o.card.states t))) o.answered) := by
  obtain ⟨c,answered,setState,acquired⟩ := o
  cases setState <;> funext t' <;> by_cases ht : t' = t
  all_goals simp [Run.acquire,Run.change,update,ht]
  all_goals rfl

theorem acquire_card (r : Run T S) (t : T) (o : Outcome T S) : (r.acquire t o).card = o.card := by
  obtain ⟨c,answered,setState,acquired⟩ := o
  cases setState <;> rfl

theorem RunInv.change (h : RunInv r) (hsurfaces : c.surfaces = r.card.surfaces)
    (hstate : c.state = r.card.state) (hothers : ∀ t' ≠ t, c.states t' = r.card.states t')
    (hflagged : Flagged r.card.surfaces (r.card.states t) (c.states t)) :
    RunInv (r.change c t) := by
  refine ⟨fun t' => ?_,fun t' ht => h.last t' (hstate ▸ ht)⟩
  by_cases ht : t' = t
  · subst ht
    simp only [Run.change,update_self,hsurfaces]
    exact (h.states t').flagged hflagged fun x hx => hflagged.changes x (mem_changes.mp hx)
  · simp only [Run.change,update_of_ne ht,hsurfaces,hothers t' ht]
    exact h.states t'

omit [DecidableEq S] in
/-- What `SetState` leaves of a state whose flags were moved. -/
theorem setState_cases (c : Card T S) (t : T) (accel : Accel) (a : Answers) :
    (setState c t accel a).1.surfaces = c.surfaces ∧ (setState c t accel a).1.state = some t ∧
    (∀ t' ≠ t, (setState c t accel a).1.states t' = c.states t') ∧
    (∀ x, ¬ Differs (c.states t) ((setState c t accel a).1.states t) x) ∧
    ((setState c t accel a).2 = none ∧ c.state = some t ∧ (c.states t).modHw = ∅ ∧
      Rest {c.states t with modified := ∅} ((setState c t accel a).1.states t) ∨
    ∃ m, (setState c t accel a).2 = some m ∧ (c.states t).modHw ⊆ m ∧
      Rest {c.states t with modified := ∅, modHw := a.hw} ((setState c t accel a).1.states t)) := by
  have hd (s : CardState S) (m hw : Finset Modification) (set : Finset Accel) (x : Modification) :
      ¬ Differs s {s with modified := m, modHw := hw, set := set} x := by
    cases x <;> simp [Differs]
  have hrest (s : CardState S) (set : Finset Accel) : Rest s {s with set := set} :=
    ⟨fun _ hc ha => ⟨hc,ha⟩,rfl,rfl,rfl,rfl,fun x => hd s s.modified s.modHw set x⟩
  simp only [setState]
  by_cases hstate : c.state = some t
  · simp only [hstate,ne_eq,not_true_eq_false,if_false]
    split_ifs with hset
    · refine ⟨rfl,rfl,fun t' ht => put_states_of_ne _ _ ht,fun x => ?_,
        .inr ⟨_,rfl,Finset.subset_union_left,?_⟩⟩
      · rw [put_states]
        exact hd _ _ _ _ x
      · rw [put_states]
        exact hrest _ _
    · rw [not_or,not_not,Finset.union_eq_empty] at hset
      refine ⟨rfl,rfl,fun t' ht => put_states_of_ne _ _ ht,fun x => ?_,
        .inl ⟨rfl,trivial,hset.1.1,?_⟩⟩
      · rw [put_states]
        exact hd _ _ _ (c.states t).set x
      · rw [put_states,hset.1.1,hset.1.2]
        refine ⟨fun _ hc ha => ⟨hc,ha⟩,rfl,by simp,rfl,rfl,fun x => ?_⟩
        exact hd _ _ _ (c.states t).set x
  · simp only [ne_eq,hstate,not_false_eq_true,if_true]
    rw [if_pos (.inr (Finset.notMem_empty _))]
    refine ⟨rfl,rfl,fun t' ht => put_states_of_ne _ _ ht,fun x => ?_,
      .inr ⟨_,rfl,fun x hx => ?_,?_⟩⟩
    · rw [put_states]
      exact hd _ _ _ _ x
    · exact Finset.mem_union_left _ (Finset.mem_union_left _ hx)
    · rw [put_states]
      exact hrest _ _

theorem used_subset_depends {S : Type*} (s : CardState S) (accel : Accel) :
    used s accel ⊆ depends accel := by
  intro x hx
  rw [used,sources] at hx
  rw [depends]
  split_ifs at hx ⊢
  all_goals
    simp only [Finset.mem_insert,Finset.mem_union,Finset.mem_singleton,Finset.notMem_empty] at hx ⊢
    tauto

/-- An acquisition that gets to the checks: what is known when the buffers are locked. -/
structure Entered (r : Run T S) (t : T) (accel : Accel) (c' : Card T S) (s' : CardState S)
    (x : Finset Modification) (answered : Finset Accel) : Prop where
  locks : Locks t (r.card.put t s') c'
  inv : Inv r.card.surfaces s' (afterAnswers (fun g => (r.answered t g).change x) answered)
    ((r.set t).change x)
  modified : s'.modified = ∅
  checked : accel ∈ s'.checked
  current : ∀ y ∈ used (r.card.states t) accel, outdated r.card.surfaces s' y = false

theorem RunInv.entered (h : RunInv r) {s' : CardState S}
    (hcheck : check r.card.surfaces (enter d r.card.surfaces (r.card.states t) accel a).2 accel a =
      (s',answered))
    (hre : Rechecks r.card.surfaces (prepare r.card.surfaces
      (enter d r.card.surfaces (r.card.states t) accel a).2) accel)
    (hlocks : Locks t (r.card.put t s') c') {sₙ : CardState S}
    (hsame : ∀ x, ¬ Differs (c'.states t) sₙ x) :
    Entered r t accel c' s' (changes (r.card.states t) sₙ) answered := by
  have hs : Clipped r.card.surfaces (r.card.states t)
      (enter d r.card.surfaces (r.card.states t) accel a).2 := enter_clipped d _ accel a
  have hprep := hs.trans (prepare_clipped _)
  have hrest := hlocks.rest
  rw [put_states] at hrest
  have hs' : s' = (check r.card.surfaces
      (enter d r.card.surfaces (r.card.states t) accel a).2 accel a).1 := by
    rw [hcheck]
  have hchecked (x : Modification) : ¬ Differs (prepare r.card.surfaces
      (enter d r.card.surfaces (r.card.states t) accel a).2) s' x := by
    rw [hs']
    exact (check_spec (h.states t) hs.toFlagged hre (Finset.empty_subset _) a).same x
  have hx : changes (r.card.states t) sₙ ⊆ (prepare r.card.surfaces
      (enter d r.card.surfaces (r.card.states t) accel a).2).modified := by
    intro x hx
    rcases (mem_changes.mp hx).or (prepare r.card.surfaces
      (enter d r.card.surfaces (r.card.states t) accel a).2) with hx | hx
    · exact hprep.changes x hx
    · rcases hx.or s' with hx | hx
      · exact absurd hx (hchecked x)
      · exact ((hx.or (c'.states t)).elim (hrest.same x) (hsame x)).elim
  have hspec := check_spec (h.states t) hs.toFlagged hre hx a
  rw [hcheck] at hspec
  refine ⟨hlocks,hspec.inv,hspec.modified,hspec.checked,fun y hy => hspec.current y ?_⟩
  rwa [used_eq (fun hd => by simpa using hprep.only _ hd)]

omit [DecidableEq S] in
theorem Inv.setState {surfaces : S → CoreSurface} {s s' : CardState S} {answered : Accel → Since} (h : Inv surfaces s answered set) (hmod : s.modified = ∅)
    {hw m : Finset Modification} (hm : s.modHw ⊆ m)
    (hr : Rest {s with modified := ∅, modHw := hw} s') :
    Inv surfaces s' answered ⟨∅,set.reconfigured \ m⟩ := by
  have hout (x : Modification) : outdated surfaces {s with modified := ∅, modHw := hw} x =
      outdated surfaces s x := by
    cases x <;> rfl
  refine Inv.rest ⟨fun x u hu => ?_,fun g hc ha x hx hy => ?_,fun g hc ha x hx hy => ?_,
    fun x hx => by simp at hx,fun x hx => ?_⟩ hr
  · have hs := h.synced x u
    cases x <;> exact hs hu
  · have := h.changed g hc ha x hx hy
    simp [hmod] at this
  · rw [hout]
    refine .inr ((h.reconfigured g hc ha x hx hy).resolve_left ?_)
    simp [hmod]
  · obtain ⟨hx,hn⟩ := Finset.mem_sdiff.mp hx
    rw [hout]
    rcases h.pendingSurface x hx with hx | hx | hx
    · simp [hmod] at hx
    · exact absurd (hm hx) hn
    · exact .inr (.inr hx)

theorem acquire_last (r : Run T S) (t : T) (o : Outcome T S) :
    (r.acquire t o).last = if o.setState.isSome then some t else r.last := by
  obtain ⟨c,answered,setState,acquired⟩ := o
  cases setState <;> rfl

theorem acquire_set (r : Run T S) (t : T) (o : Outcome T S) :
    (r.acquire t o).set = update r.set t (o.setState.elim
      ((r.set t).change (changes (r.card.states t) (o.card.states t)))
      fun m => ⟨∅,(r.set t).reconfigured \ m⟩) := by
  obtain ⟨c,answered,setState,acquired⟩ := o
  cases setState <;> funext t' <;> by_cases ht : t' = t
  all_goals simp [Run.acquire,Run.change,update,ht]
  all_goals rfl

omit [DecidableEq S] in
theorem Entered.rest {s' sₙ : CardState S} {x : Finset Modification}
    (h : Entered r t accel c' s' x answered) (hr : Rest (c'.states t) sₙ) :
    Inv r.card.surfaces sₙ (afterAnswers (fun g => (r.answered t g).change x) answered)
      ((r.set t).change x) := by
  have hrest := h.locks.rest
  rw [put_states] at hrest
  exact h.inv.rest (hrest.trans hr)

theorem RunInv.acquire_failed (h : RunInv r) {s' : CardState S}
    (he : Entered r t accel c' s' (changes (r.card.states t) (c'.states t)) answered) :
    RunInv (r.acquire t ⟨c',answered,none,false⟩) := by
  refine ⟨fun t' => ?_,fun t' ht => ?_⟩
  · rw [acquire_card,acquire_answered,acquire_set]
    have hsurfaces : c'.surfaces = r.card.surfaces := he.locks.surfaces
    simp only [hsurfaces]
    by_cases ht : t' = t
    · subst ht
      simp only [update_self]
      exact he.rest (.refl _)
    · simp only [update_of_ne ht]
      rw [he.locks.others t' ht,put_states_of_ne _ _ ht]
      exact h.states t'
  · rw [acquire_last]
    exact h.last t' (he.locks.state ▸ ht)

theorem RunInv.acquire_set (h : RunInv r) {s' : CardState S}
    (he : Entered r t accel c' s'
      (changes (r.card.states t) ((setState c' t accel a).1.states t)) answered) :
    RunInv (r.acquire t ⟨(setState c' t accel a).1,answered,(setState c' t accel a).2,true⟩) := by
  obtain ⟨hsurfaces,hstate,hothers,-,hset⟩ := setState_cases c' t accel a
  have hmod : (c'.states t).modified = ∅ := by
    rw [he.locks.rest.modified,put_states,he.modified]
  have hinv := he.rest (.refl _)
  refine ⟨fun t' => ?_,fun t' ht => ?_⟩
  · rw [acquire_card,acquire_answered,StateFresh.acquire_set]
    simp only [hsurfaces,he.locks.surfaces]
    by_cases ht : t' = t
    · subst ht
      simp only [update_self]
      rcases hset with ⟨hnone,-,-,hr⟩ | ⟨m,hm,hsub,hr⟩
      · rw [hnone]
        refine hinv.rest (.trans ?_ hr)
        have hsame : {c'.states t' with modified := ∅} = c'.states t' := by rw [← hmod]
        rw [hsame]
        exact .refl _
      · rw [hm]
        exact hinv.setState hmod hsub hr
    · simp only [update_of_ne ht]
      rw [hothers t' ht,he.locks.others t' ht,put_states_of_ne _ _ ht]
      exact h.states t'
  · rw [acquire_card,hstate] at ht
    obtain rfl : t = t' := Option.some.inj ht
    rw [acquire_last]
    split_ifs with hsome
    · rfl
    · rcases hset with ⟨-,hcard,-⟩ | ⟨m,hm,-⟩
      · exact h.last t (he.locks.state ▸ hcard)
      · simp [hm] at hsome

/-- An acquisition within the condition keeps the invariant. -/
theorem RunInv.acquire (h : RunInv r) (hkept : Kept d r (.checkAcquire t accel a))
    (ho : checkAcquire d r.card t accel a = some o) : RunInv (r.acquire t o) := by
  obtain ⟨⟨s',answered⟩,hcheck⟩ : ∃ q, check r.card.surfaces
    (enter d r.card.surfaces (r.card.states t) accel a).2 accel a = q := ⟨_,rfl⟩
  rcases checkAcquire_cases hcheck ho with ⟨-,rfl⟩ | ⟨henter,c',hlocks,hout⟩
  · have hchange : r.acquire t ⟨r.card.put t (enter d r.card.surfaces (r.card.states t) accel a).2,
        ∅,none,false⟩ = r.change (r.card.put t
        (enter d r.card.surfaces (r.card.states t) accel a).2) t := by
      simp [Run.acquire]
    rw [hchange]
    refine h.change rfl rfl (fun t' ht => put_states_of_ne _ _ ht) ?_
    rw [put_states]
    exact (enter_clipped d _ accel a).toFlagged
  · rcases hout with rfl | ⟨-,rfl⟩
    · exact h.acquire_failed (h.entered hcheck (hkept henter) hlocks (Rest.refl _).same)
    · exact h.acquire_set
        (h.entered hcheck (hkept henter) hlocks (setState_cases c' t accel a).2.2.2.1)

theorem step_inv {r' : Run T S} {e : Event T S} (h : RunInv r) (hkept : Kept d r e)
    (hs : step d r e = some r') : RunInv r' := by
  cases e with
  | set t setter =>
    obtain rfl := Option.some.inj hs
    refine h.change rfl rfl (fun t' ht => put_states_of_ne _ _ ht) ?_
    rw [put_states]
    exact setter.apply_flagged _
  | reconfig u numBuffers w ht =>
    obtain rfl := Option.some.inj hs
    exact ⟨fun t => (h.states t).reconfig u numBuffers w ht,h.last⟩
  | checkAcquire t accel a =>
    rw [step] at hs
    split_ifs at hs
    obtain ⟨o,ho,rfl⟩ := Option.map_eq_some_iff.mp hs
    exact h.acquire hkept ho
  | release t =>
    obtain ⟨c',hc,rfl⟩ := Option.map_eq_some_iff.mp hs
    have hlocks := release_locks hc
    exact h.change hlocks.surfaces hlocks.state hlocks.others (hlocks.rest.flagged _)

/-- The driver never works from a stale state, in runs in which no answer is left for a source that
is found to be behind. -/
theorem driver_fresh (d : Device) (r : Run T S) (hr : Reaches (step d) (Kept d) Initial r) (t : T)
    (accel : Accel) (a : Answers) (o : Outcome T S) (hkept : Kept d r (.checkAcquire t accel a))
    (ho : checkAcquire d r.card t accel a = some o) (hacquired : o.acquired = true) :
    Fresh r t accel o := by
  have h : RunInv r := hr.invariant _ (fun _ => Initial.inv) fun _ _ _ => step_inv
  obtain ⟨⟨s',answered⟩,hcheck⟩ : ∃ q, check r.card.surfaces
    (enter d r.card.surfaces (r.card.states t) accel a).2 accel a = q := ⟨_,rfl⟩
  rcases checkAcquire_cases hcheck ho with ⟨-,rfl⟩ | ⟨henter,c',hlocks,rfl | ⟨haccel,rfl⟩⟩
  · exact Bool.noConfusion hacquired
  · exact Bool.noConfusion hacquired
  obtain ⟨-,-,-,hsame,hset⟩ := setState_cases c' t accel a
  have he := h.entered hcheck (hkept henter) hlocks hsame
  have hhw : (c'.states t).modHw = s'.modHw := by
    rw [hlocks.rest.modHw,put_states]
  have hpend {x : Modification} (hx : x ∈ ((r.set t).change (changes (r.card.states t)
      ((setState c' t accel a).1.states t))).changed ∨
      x ∈ used (r.card.states t) accel ∧ x ∈ (r.set t).reconfigured) : x ∈ (c'.states t).modHw := by
    rw [hhw]
    rcases hx with hx | ⟨hu,hx⟩
    · exact (he.inv.pending x hx).resolve_left (by simp [he.modified])
    · rcases he.inv.pendingSurface x hx with hx | hx | hx
      · simp [he.modified] at hx
      · exact hx
      · simp [he.current x hu] at hx
  refine ⟨fun x hx => ?_,fun x hx => ?_,fun m hm x hx => ?_,fun hnone => ?_⟩
  · rw [acquire_answered,update_self]
    intro hy
    have := he.inv.changed accel he.checked haccel x hx hy
    simp [he.modified] at this
  · rw [acquire_answered,update_self]
    intro hy
    have := he.inv.reconfigured accel he.checked haccel x (used_subset_depends _ _ hx) hy
    simp [he.modified,he.current x hx] at this
  · rcases hset with ⟨hnone,-⟩ | ⟨m',hm',hsub,-⟩
    · rw [hnone] at hm
      simp at hm
    · obtain rfl : m' = m := Option.some.inj (hm'.symm.trans hm)
      have hx' : x ∈ ((r.set t).change (changes (r.card.states t)
          ((setState c' t accel a).1.states t))).changed ∨
          x ∈ used (r.card.states t) accel ∧ x ∈ (r.set t).reconfigured := by
        simpa [Run.change] using hx
      exact hsub (hpend hx')
  · rcases hset with ⟨-,hcard,hempty,-⟩ | ⟨m,hm,-⟩
    · have hno (x : Modification) : x ∉ (c'.states t).modHw := by simp [hempty]
      refine ⟨h.last t (hlocks.state ▸ hcard),?_,fun x hu hx => hno x (hpend (.inr ⟨hu,hx⟩))⟩
      refine Finset.eq_empty_of_forall_notMem fun x hx => hno x (hpend (.inl ?_))
      simpa [Run.change] using hx
    · exact absurd (hm.symm.trans hnone) (by simp)

end Runs

def device : Device := ⟨false,true,true,true,true⟩

def start : Run Unit Bool where
  card := ⟨fun _ => {},fun _ => ⟨0,1,10,10⟩,none,fun _ => 0,fun _ => 0,0,0⟩
  answered := fun _ _ => ⟨Modification.all,Modification.all⟩
  set := fun _ => ⟨Modification.all,Modification.all⟩
  last := none

theorem start_initial : Initial start := ⟨fun _ => ⟨0,rfl⟩,rfl,fun _ _ => rfl,fun _ => rfl⟩

def firstBlit : List (Event Unit Bool) :=
  [.set () (.destination (some false) true),.set () (.source (some true) true),
    .checkAcquire () .blit {added := {.blit}},.release ()]

def moved : Run Unit Bool :=
  (exec (step device) start [.set () (.destination (some false) true),
    .set () (.source (some true) true),.reconfig false 1 20 20]).getD start

def blitted : Outcome Unit Bool :=
  (checkAcquire device moved.card () .blit {added := {.blit}}).getD ⟨moved.card,∅,none,false⟩

theorem moved_reaches : Reaches (step device) (Kept device) Initial moved := by
  refine Reaches.exec_of (.init start_initial) (fun e he u => ?_)
    (rfl : exec (step device) start [.set () (.destination (some false) true),
      .set () (.source (some true) true),.reconfig false 1 20 20] = some moved)
  simp only [List.mem_cons,List.not_mem_nil,or_false] at he
  rcases he with rfl | rfl | rfl <;> trivial

theorem driver_fresh_blit : Fresh moved () .blit blitted := by
  refine driver_fresh device moved moved_reaches () .blit {added := {.blit}} blitted ?_ rfl rfl
  intro _ x hx ho
  refine absurd ho ?_
  revert x
  decide

def reconfigured : Run Unit Bool :=
  (exec (step device) start (firstBlit++[.reconfig true 1 20 20])).getD start

theorem reconfigured_exec :
    exec (step device) start (firstBlit++[.reconfig true 1 20 20]) = some reconfigured := rfl

/-- The next blit relies on the answer for the source as it was. -/
theorem stale_answer : ¬ ∀ (T S : Type) (_ : DecidableEq T) (_ : DecidableEq S) (d : Device)
    (r : Run T S), Reaches (step d) (fun _ _ => True) Initial r → ∀ t accel a o,
    checkAcquire d r.card t accel a = some o → o.acquired = true → Fresh r t accel o := by
  intro h
  have hr := Reaches.exec (.init start_initial) (fun _ _ => trivial) reconfigured_exec
  obtain ⟨o,ho⟩ : ∃ o, checkAcquire device reconfigured.card () .blit {} = some o := ⟨_,rfl⟩
  have hacquired : o.acquired = true := by
    cases ho
    rfl
  have hfresh := h Unit Bool _ _ device reconfigured hr () .blit {} o ho hacquired
  have hmem : Modification.source ∈ ((reconfigured.acquire () o).answered () .blit).reconfigured := by
    cases ho
    decide
  exact hfresh.reconfigured .source (by decide) hmem

end DirectFB.StateFresh
