import DirectFB.Reaches

/-! Interlocks of the accesses to surface memory by software and by the graphics card: who is
granted access waits for the operations of the other and has the caches flushed. -/
namespace DirectFB.Interlocks
open Function (update update_of_ne update_self)
open Transition

inductive AccessorID
  | cpu | gpu
  deriving DecidableEq

/-- The bits `CSAF_READ` and `CSAF_WRITE`. -/
structure AccessFlags where
  read : Bool := false
  write : Bool := false
  deriving DecidableEq

def AccessFlags.union (f g : AccessFlags) : AccessFlags := ⟨f.read || g.read,f.write || g.write⟩

/-- A graphics state takes its buffer locks, issues operations, or has its buffers still to be
unlocked. -/
inductive Phase
  | locking | active | released
  deriving DecidableEq

structure Holder (α : Type*) where
  dst : α
  sources : List α
  phase : Phase

/-- The fields of the allocations, the graphics states between acquire and release, and the lock of
the card. Operations are numbered by their serial: how many were issued, up to which one was waited,
up to which one when the read cache was flushed, and the last to write and to read each allocation.
An allocation is in `touched` if software was granted access to it since the texture cache was
flushed. -/
structure State (α σ : Type*) where
  accessed : AccessorID → α → AccessFlags
  gfxSerial : α → ℕ
  locked : α → ℕ
  states : List σ
  holder : σ → Option (Holder α)
  card : Option σ
  issued : ℕ
  done : ℕ
  flushed : ℕ
  lastWrite : α → ℕ
  lastRead : α → ℕ
  touched : α → Bool

variable {α σ : Type*} [DecidableEq α]

def Holder.allocations (h : Holder α) : List α := h.dst::h.sources

/-- `dfb_surface_allocation_locks`: those of graphics states and all others. -/
def State.locks (x : State α σ) (a : α) : ℕ :=
  x.locked a+(x.states.map fun s => ((x.holder s).map fun h => h.allocations.count a).getD 0).sum

def State.setAccessed (x : State α σ) (i : AccessorID) (a : α) (f : AccessFlags) : State α σ :=
  {x with accessed := update x.accessed i (update (x.accessed i) a f)}

/-- `dfb_gfxcard_wait_serial` -/
def State.waitSerial (x : State α σ) (a : α) : State α σ := {x with done := max x.done (x.gfxSerial a)}

def State.flushReadCache (x : State α σ) : State α σ := {x with flushed := x.done}

def State.flushTextureCache (x : State α σ) : State α σ := {x with touched := fun _ => false}

def afterWrite (x : State α σ) (a : α) (locks : ℕ) : State α σ :=
  if (x.accessed .gpu a).write then
    let x := (x.waitSerial a).flushReadCache
    if locks = 0 then x.setAccessed .gpu a {} else x
  else x

def afterRead (x : State α σ) (a : α) (access : AccessFlags) (locks : ℕ) : State α σ :=
  if access.write ∧ (x.accessed .gpu a).read then
    let x := x.waitSerial a
    if locks = 0 then x.setAccessed .gpu a {x.accessed .gpu a with read := false} else x
  else x

def afterSoftware (x : State α σ) (a : α) (locks : ℕ) : State α σ :=
  if (x.accessed .cpu a).read ∨ (x.accessed .cpu a).write then
    let x := x.flushTextureCache
    if locks = 0 then x.setAccessed .cpu a {} else x
  else x

def State.collect (x : State α σ) (a : α) (i : AccessorID) (access : AccessFlags) : State α σ :=
  x.setAccessed i a ((x.accessed i a).union access)

/-- `manage_interlocks`, for the number of locks that is seen at first. -/
def manageInterlocks (x : State α σ) (a : α) (i : AccessorID) (access : AccessFlags) (locks : ℕ) :
    State α σ :=
  match i with
  | .cpu =>
    let x := (afterRead (afterWrite x a locks) a access locks).collect a .cpu access
    {x with touched := update x.touched a true}
  | .gpu => (if access.read ∨ access.write then afterSoftware x a locks else x).collect a .gpu access

def Waits (x : State α σ) (a : α) (access : AccessFlags) : Prop :=
  (x.accessed .gpu a).write = true ∨ access.write = true ∧ (x.accessed .gpu a).read = true

instance (x : State α σ) (a : α) (access : AccessFlags) : Decidable (Waits x a access) :=
  inferInstanceAs (Decidable (_ ∨ _))

section Steps

variable [DecidableEq σ]

def State.setHolder (x : State α σ) (s : σ) (h : Option (Holder α)) : State α σ :=
  {x with holder := update x.holder s h, states := x.states.insert s}

/-- `dfb_gfxcard_state_release`, up to the unlocking of the buffers. The serial is stored for the
destination only. -/
def storeSerial (x : State α σ) (s : σ) (h : Holder α) : State α σ :=
  {x with gfxSerial := update x.gfxSerial h.dst x.issued, card := none}.setHolder s
    (some {h with phase := .released})

def operate (x : State α σ) (h : Holder α) : State α σ :=
  {x with
    issued := x.issued+1
    lastWrite := update x.lastWrite h.dst (x.issued+1)
    lastRead := fun a => if a ∈ h.sources then x.issued+1 else x.lastRead a}

inductive Event (α σ : Type*)
  | lock (a : α) (i : AccessorID) (access : AccessFlags) (locks : ℕ)
  | unlock (a : α)
  | lockDestination (s : σ) (a : α) (read : Bool)
  | lockSource (s : σ) (a : α)
  | lockCard (s : σ)
  | operate (s : σ)
  | storeSerial (s : σ)
  | unlockBuffers (s : σ)

/-- Locks that are seen before a wait may be gone after it. An access reads or writes. -/
def step (x : State α σ) : Event α σ → Option (State α σ)
  | .lock a i access locks =>
    if (access.read ∨ access.write) ∧ x.locks a ≤ locks ∧
        (i = .cpu → Waits x a access → x.card = none) then
      let x := manageInterlocks x a i access locks
      some {x with locked := update x.locked a (x.locked a+1)}
    else none
  | .unlock a =>
    if 0 < x.locked a then some {x with locked := update x.locked a (x.locked a-1)}
    else none
  | .lockDestination s a read => match x.holder s with
    | none => some ((manageInterlocks x a .gpu ⟨read,true⟩ (x.locks a)).setHolder s
        (some ⟨a,[],.locking⟩))
    | some _ => none
  | .lockSource s a => match x.holder s with
    | some ⟨dst,sources,.locking⟩ =>
      some ((manageInterlocks x a .gpu ⟨true,false⟩ (x.locks a)).setHolder s
        (some ⟨dst,sources++[a],.locking⟩))
    | _ => none
  | .lockCard s => match x.holder s with
    | some ⟨dst,sources,.locking⟩ =>
      if x.card = none then
        some ({x with card := some s}.setHolder s (some ⟨dst,sources,.active⟩))
      else none
    | _ => none
  | .operate s => match x.holder s with
    | some ⟨dst,sources,.active⟩ => some (operate x ⟨dst,sources,.active⟩)
    | _ => none
  | .storeSerial s => match x.holder s with
    | some ⟨dst,sources,.active⟩ => some (storeSerial x s ⟨dst,sources,.active⟩)
    | _ => none
  | .unlockBuffers s => match x.holder s with
    | some ⟨_,_,.active⟩ => none
    | some _ => some (x.setHolder s none)
    | none => none

end Steps

def Initial (x : State α σ) : Prop :=
  x = ⟨fun _ _ => {},fun _ => 0,fun _ => 0,[],fun _ => none,none,0,0,0,fun _ => 0,fun _ => 0,
    fun _ => false⟩

section Invariant

variable {x y : State α σ} {a b : α} {locks : ℕ}

/-- Operations that the card may still be writing with are remembered, by the bits, the serial or
the state that issues them. -/
structure Inv (x : State α σ) : Prop where
  known : ∀ a, (x.accessed .gpu a).write = false →
    x.lastWrite a ≤ x.flushed ∧ x.gfxSerial a ≤ x.done
  flushed : x.flushed ≤ x.done
  issued : ∀ a, x.lastWrite a ≤ x.issued
  stored : ∀ a, x.lastWrite a ≤ x.gfxSerial a ∨
    ∃ s h, x.holder s = some h ∧ h.phase = .active ∧ h.dst = a
  states : ∀ s h, x.holder s = some h → s ∈ x.states
  written : ∀ s h, x.holder s = some h → h.phase ≠ .released → (x.accessed .gpu h.dst).write = true
  card : ∀ s h, x.holder s = some h → h.phase = .active → x.card = some s
  touched : ∀ a, x.touched a = true →
    (x.accessed .cpu a).read = true ∨ (x.accessed .cpu a).write = true

theorem locks_pos {s : σ} {h : Holder α} (hs : x.holder s = some h) (hin : s ∈ x.states)
    (ha : a ∈ h.allocations) : 0 < x.locks a := by
  have hone : 0 < ((x.holder s).map fun h => h.allocations.count a).getD 0 := by
    rw [hs]
    exact List.count_pos_iff.mpr ha
  refine Nat.lt_add_left _ (hone.trans_le ?_)
  exact List.single_le_sum (fun _ _ => Nat.zero_le _) _ (List.mem_map_of_mem hin)

@[simp] theorem setAccessed_self (x : State α σ) (i : AccessorID) (a : α) (f : AccessFlags) :
    (x.setAccessed i a f).accessed i a = f := by
  simp [State.setAccessed]

theorem setAccessed_of_ne (x : State α σ) (i : AccessorID) (f : AccessFlags) (h : b ≠ a) :
    (x.setAccessed i a f).accessed i b = x.accessed i b := by
  simp [State.setAccessed,h]

@[simp] theorem setAccessed_other {i j : AccessorID} (hij : j ≠ i) (x : State α σ) (a : α)
    (f : AccessFlags) : (x.setAccessed i a f).accessed j = x.accessed j := by
  simp [State.setAccessed,hij]

/-- A bit that says that the card has written goes when the card is known to be done and no state is
about to write. -/
theorem Inv.setAccessed (h : Inv x) {i : AccessorID} {f : AccessFlags}
    (hknown : i = .gpu → f.write = false → x.lastWrite a ≤ x.flushed ∧ x.gfxSerial a ≤ x.done)
    (hheld : i = .gpu → f.write = false → ∀ s h, x.holder s = some h → h.phase ≠ .released →
      h.dst ≠ a)
    (htouched : i = .cpu → x.touched a = true → f.read = true ∨ f.write = true) :
    Inv (x.setAccessed i a f) := by
  refine ⟨fun b hb => ?_,h.flushed,h.issued,h.stored,h.states,fun s r hs hr => ?_,h.card,
    fun b hb => ?_⟩
  · by_cases hi : i = .gpu
    · subst hi
      by_cases hba : b = a
      · subst hba
        rw [setAccessed_self] at hb
        exact hknown rfl hb
      · rw [setAccessed_of_ne _ _ _ hba] at hb
        exact h.known b hb
    · rw [setAccessed_other (Ne.symm hi)] at hb
      exact h.known b hb
  · by_cases hi : i = .gpu
    · subst hi
      by_cases hra : r.dst = a
      · rw [hra,setAccessed_self]
        by_contra hf
        exact hheld rfl (by simpa using hf) s r hs hr hra
      · rw [setAccessed_of_ne _ _ _ hra]
        exact h.written s r hs hr
    · rw [setAccessed_other (Ne.symm hi)]
      exact h.written s r hs hr
  · by_cases hi : i = .cpu
    · subst hi
      by_cases hba : b = a
      · subst hba
        rw [setAccessed_self]
        exact htouched rfl hb
      · rw [setAccessed_of_ne _ _ _ hba]
        exact h.touched b hb
    · rw [setAccessed_other (Ne.symm hi)]
      exact h.touched b hb

theorem Inv.unheld (h : Inv x) (hlocks : x.locks a = 0) (s : σ) (r : Holder α)
    (hs : x.holder s = some r) : r.dst ≠ a := by
  intro hra
  have hpos := locks_pos hs (h.states s r hs) (a := a) (by rw [← hra]; exact List.mem_cons_self)
  omega

omit [DecidableEq α] in
theorem waitSerial_inv (h : Inv x) (a : α) : Inv (x.waitSerial a) :=
  ⟨fun b hb => ⟨(h.known b hb).1,(h.known b hb).2.trans (le_max_left _ _)⟩,
    h.flushed.trans (le_max_left _ _),h.issued,h.stored,h.states,h.written,h.card,h.touched⟩

omit [DecidableEq α] in
theorem flushReadCache_inv (h : Inv x) : Inv x.flushReadCache :=
  ⟨fun b hb => ⟨(h.known b hb).1.trans h.flushed,(h.known b hb).2⟩,le_rfl,h.issued,h.stored,
    h.states,h.written,h.card,h.touched⟩

omit [DecidableEq α] in
theorem flushTextureCache_inv (h : Inv x) : Inv x.flushTextureCache :=
  ⟨h.known,h.flushed,h.issued,h.stored,h.states,h.written,h.card,fun _ hb => (nomatch hb)⟩

omit [DecidableEq α] in
theorem Inv.stored_free (h : Inv x) (hcard : x.card = none) (a : α) :
    x.lastWrite a ≤ x.gfxSerial a := by
  rcases h.stored a with hle | ⟨s,r,hs,hr,-⟩
  · exact hle
  · rw [h.card s r hs hr] at hcard
    cases hcard

theorem afterWrite_inv (h : Inv x) (hlocks : x.locks a ≤ locks)
    (hcard : (x.accessed .gpu a).write = true → x.card = none) :
    Inv (afterWrite x a locks) ∧ x.lastWrite a ≤ (afterWrite x a locks).flushed ∧
    x.gfxSerial a ≤ (afterWrite x a locks).done ∧ x.done ≤ (afterWrite x a locks).done := by
  unfold afterWrite
  split_ifs with hw hzero
  · have hstored := h.stored_free (hcard hw) a
    have hwaited : Inv (x.waitSerial a).flushReadCache := flushReadCache_inv (waitSerial_inv h a)
    have hlast : x.lastWrite a ≤ max x.done (x.gfxSerial a) := hstored.trans (le_max_right _ _)
    refine ⟨hwaited.setAccessed (fun _ _ => ⟨hlast,le_max_right _ _⟩)
      (fun _ _ s r hs _ => h.unheld (by omega) s r hs) (fun hi => (nomatch hi)),hlast,
      le_max_right _ _,le_max_left _ _⟩
  · have hstored := h.stored_free (hcard hw) a
    exact ⟨flushReadCache_inv (waitSerial_inv h a),hstored.trans (le_max_right _ _),
      le_max_right _ _,le_max_left _ _⟩
  · have hknown := h.known a (by simpa using hw)
    exact ⟨h,hknown.1,hknown.2,le_rfl⟩

theorem afterRead_inv (h : Inv x) (a : α) (access : AccessFlags) (locks : ℕ) :
    Inv (afterRead x a access locks) ∧ x.done ≤ (afterRead x a access locks).done ∧
    (afterRead x a access locks).flushed = x.flushed := by
  unfold afterRead
  split_ifs with hr hzero
  · refine ⟨(waitSerial_inv h a).setAccessed (fun _ hw => (waitSerial_inv h a).known a hw)
      (fun _ hw s r hs hp hra => ?_) (fun hi => (nomatch hi)),le_max_left _ _,rfl⟩
    have hwritten := h.written s r hs hp
    rw [hra] at hwritten
    exact absurd (hwritten.symm.trans hw) (by decide)
  · exact ⟨waitSerial_inv h a,le_max_left _ _,rfl⟩
  · exact ⟨h,le_rfl,rfl⟩

theorem afterSoftware_inv (h : Inv x) (a : α) (locks : ℕ) :
    Inv (afterSoftware x a locks) ∧ (afterSoftware x a locks).touched a = false := by
  unfold afterSoftware
  split_ifs with hc hzero
  · exact ⟨(flushTextureCache_inv h).setAccessed (fun hi => (nomatch hi)) (fun hi => (nomatch hi))
      (fun _ ht => (nomatch ht)),rfl⟩
  · exact ⟨flushTextureCache_inv h,rfl⟩
  · refine ⟨h,?_⟩
    by_contra ht
    exact hc (h.touched a (by simpa using ht))

theorem collect_inv (h : Inv x) (a : α) (i : AccessorID) (access : AccessFlags) :
    Inv (x.collect a i access) := by
  refine h.setAccessed (fun hi hw => ?_) (fun hi hw s r hs hp hra => ?_) (fun hi ht => ?_) <;>
    subst hi
  · rw [AccessFlags.union,Bool.or_eq_false_iff] at hw
    exact h.known a hw.1
  · rw [AccessFlags.union,Bool.or_eq_false_iff] at hw
    have hwritten := h.written s r hs hp
    rw [hra] at hwritten
    exact absurd (hwritten.symm.trans hw.1) (by decide)
  · rcases h.touched a ht with hr | hw
    · exact .inl (by rw [AccessFlags.union,hr]; rfl)
    · exact .inr (by rw [AccessFlags.union,hw]; rfl)

def Same (x y : State α σ) : Prop :=
  y.gfxSerial = x.gfxSerial ∧ y.locked = x.locked ∧ y.states = x.states ∧ y.holder = x.holder ∧
  y.card = x.card ∧ y.issued = x.issued ∧ y.lastWrite = x.lastWrite ∧ y.lastRead = x.lastRead

theorem manageInterlocks_same (x : State α σ) (a : α) (i : AccessorID) (access : AccessFlags)
    (locks : ℕ) : Same x (manageInterlocks x a i access locks) := by
  unfold manageInterlocks afterRead afterWrite afterSoftware
  cases i <;> dsimp only <;> split_ifs <;> exact ⟨rfl,rfl,rfl,rfl,rfl,rfl,rfl,rfl⟩

theorem manageInterlocks_done_le (x : State α σ) (a : α) (i : AccessorID) (access : AccessFlags)
    (locks : ℕ) : (manageInterlocks x a i access locks).done ≤ max x.done (x.gfxSerial a) := by
  have hmax : max (max x.done (x.gfxSerial a)) (x.gfxSerial a) ≤ max x.done (x.gfxSerial a) :=
    max_le le_rfl (le_max_right _ _)
  unfold manageInterlocks afterRead afterWrite afterSoftware
  cases i <;> dsimp only <;> split_ifs
  all_goals first
    | exact le_max_left _ _
    | exact le_rfl
    | exact hmax

/-- Software is granted access when what the card has written is waited for and not in the read
cache. -/
theorem manageInterlocks_cpu (h : Inv x) {access : AccessFlags}
    (haccess : access.read = true ∨ access.write = true) (hlocks : x.locks a ≤ locks)
    (hcard : Waits x a access → x.card = none) :
    Inv (manageInterlocks x a .cpu access locks) ∧
    x.lastWrite a ≤ (manageInterlocks x a .cpu access locks).flushed ∧
    x.gfxSerial a ≤ (manageInterlocks x a .cpu access locks).done ∧
    x.done ≤ (manageInterlocks x a .cpu access locks).done := by
  obtain ⟨hwrite,hflushed,hserial,hdone⟩ := afterWrite_inv h hlocks fun hw => hcard (.inl hw)
  obtain ⟨hread,hdone',hflushed'⟩ := afterRead_inv hwrite a access locks
  have hcollect := collect_inv hread a .cpu access
  refine ⟨⟨hcollect.known,hcollect.flushed,hcollect.issued,hcollect.stored,hcollect.states,
    hcollect.written,hcollect.card,fun b hb => ?_⟩,hflushed.trans hflushed'.ge,hserial.trans hdone',
    hdone.trans hdone'⟩
  by_cases hba : b = a
  · subst hba
    change ((State.collect _ b .cpu access).accessed .cpu b).read = true ∨
      ((State.collect _ b .cpu access).accessed .cpu b).write = true
    rw [State.collect,setAccessed_self]
    rcases haccess with hr | hw
    · exact .inl (by rw [AccessFlags.union,hr,Bool.or_true])
    · exact .inr (by rw [AccessFlags.union,hw,Bool.or_true])
  · exact hcollect.touched b ((update_of_ne hba _ _).symm.trans hb)

theorem manageInterlocks_gpu (h : Inv x) (access : AccessFlags)
    (haccess : access.read = true ∨ access.write = true) (a : α) (locks : ℕ) :
    Inv (manageInterlocks x a .gpu access locks) ∧
    (manageInterlocks x a .gpu access locks).touched a = false := by
  obtain ⟨hsoftware,htouched⟩ := afterSoftware_inv h a locks
  unfold manageInterlocks
  dsimp only
  rw [if_pos haccess]
  exact ⟨collect_inv hsoftware a .gpu access,htouched⟩

end Invariant

section Run

variable [DecidableEq σ] {x y : State α σ} {a : α}

omit [DecidableEq α] in
theorem setHolder_inv (h : Inv x) {s : σ} {new : Option (Holder α)}
    (hnew : ∀ r, new = some r → (r.phase ≠ .released → (x.accessed .gpu r.dst).write = true) ∧
      (r.phase = .active → x.card = some s))
    (hold : ∀ r, x.holder s = some r → r.phase = .active → ∃ t, new = some t ∧ t.phase = .active ∧
      t.dst = r.dst) : Inv (x.setHolder s new) := by
  refine ⟨h.known,h.flushed,h.issued,fun b => ?_,fun t r ht => ?_,fun t r ht => ?_,fun t r ht => ?_,
    h.touched⟩
  · refine (h.stored b).imp_right fun ⟨t,r,ht,hr,hb⟩ => ?_
    by_cases hts : t = s
    · subst hts
      obtain ⟨u,hu,hactive,hdst⟩ := hold r ht hr
      exact ⟨t,u,(update_self _ _ _).trans hu,hactive,hdst.trans hb⟩
    · exact ⟨t,r,(update_of_ne hts _ _).trans ht,hr,hb⟩
  · by_cases hts : t = s
    · subst hts
      exact List.mem_insert_self
    · rw [State.setHolder] at ht
      dsimp only at ht
      rw [update_of_ne hts] at ht
      exact List.mem_insert_of_mem (h.states t r ht)
  all_goals
    rw [State.setHolder] at ht
    dsimp only at ht
    by_cases hts : t = s
    · subst hts
      rw [update_self] at ht
      first
        | exact (hnew r ht).1
        | exact (hnew r ht).2
    · rw [update_of_ne hts] at ht
      first
        | exact h.written t r ht
        | exact h.card t r ht

def Kept (x : State α σ) : Event α σ → Prop
  | .lock a .cpu access _ => access.write = true →
    x.lastRead a ≤ x.gfxSerial a ∨ x.lastRead a ≤ x.done
  | _ => True

def GrantsCard (e : Event α σ) (a : α) : Prop :=
  (∃ access locks, e = .lock a .gpu access locks) ∨ (∃ s read, e = .lockDestination s a read) ∨
  ∃ s, e = .lockSource s a

/-- Who is granted access has waited for the other, and the caches are flushed. -/
structure Interlocked (x : State α σ) (e : Event α σ) (y : State α σ) : Prop where
  read : ∀ a access locks, e = .lock a .cpu access locks → access.read = true →
    x.lastWrite a ≤ y.done ∧ x.lastWrite a ≤ y.flushed
  write : ∀ a access locks, e = .lock a .cpu access locks → access.write = true →
    x.lastWrite a ≤ y.done ∧ x.lastRead a ≤ y.done
  card : ∀ a, GrantsCard e a → y.touched a = false

theorem storeSerial_inv (h : Inv x) {s : σ} {r : Holder α} (hs : x.holder s = some r)
    (hr : r.phase = .active) : Inv (storeSerial x s r) := by
  have hwritten := h.written s r hs (by rw [hr]; decide)
  have hcard := h.card s r hs hr
  have hserial : (storeSerial x s r).gfxSerial r.dst = x.issued := update_self _ _ _
  have hserials (b : α) (hb : b ≠ r.dst) : (storeSerial x s r).gfxSerial b = x.gfxSerial b :=
    update_of_ne hb _ _
  have hholder : (storeSerial x s r).holder s = some {r with phase := .released} :=
    update_self _ _ _
  have hholders (t : σ) (ht : t ≠ s) : (storeSerial x s r).holder t = x.holder t :=
    update_of_ne ht _ _
  refine ⟨fun b hb => ⟨(h.known b hb).1,?_⟩,h.flushed,h.issued,fun b => .inl ?_,fun t u ht => ?_,
    fun t u ht hu => ?_,fun t u ht hu => ?_,h.touched⟩
  · have hbr : b ≠ r.dst := fun hbr => by
      rw [hbr] at hb
      exact absurd (hwritten.symm.trans hb) (by decide)
    rw [hserials b hbr]
    exact (h.known b hb).2
  · by_cases hbr : b = r.dst
    · rw [hbr,hserial]
      exact h.issued _
    · rw [hserials b hbr]
      rcases h.stored b with hle | ⟨t,u,ht,hu,hub⟩
      · exact hle
      · have hts : t = s := Option.some.inj ((h.card t u ht hu).symm.trans hcard)
        rw [hts,hs] at ht
        obtain rfl := Option.some.inj ht
        exact absurd hub.symm hbr
  · by_cases hts : t = s
    · rw [hts]
      exact List.mem_insert_self
    · rw [hholders t hts] at ht
      exact List.mem_insert_of_mem (h.states t u ht)
  · by_cases hts : t = s
    · rw [hts,hholder] at ht
      obtain rfl := Option.some.inj ht
      exact absurd rfl hu
    · rw [hholders t hts] at ht
      exact h.written t u ht hu
  · by_cases hts : t = s
    · rw [hts,hholder] at ht
      obtain rfl := Option.some.inj ht
      cases hu
    · rw [hholders t hts] at ht
      exact absurd (Option.some.inj ((h.card t u ht hu).symm.trans hcard)) hts

omit [DecidableEq σ] in
theorem operate_inv (h : Inv x) {s : σ} {r : Holder α} (hs : x.holder s = some r)
    (hr : r.phase = .active) : Inv (operate x r) := by
  have hwritten := h.written s r hs (by rw [hr]; decide)
  have hwrite : (operate x r).lastWrite r.dst = x.issued+1 := update_self _ _ _
  have hwrites (b : α) (hb : b ≠ r.dst) : (operate x r).lastWrite b = x.lastWrite b :=
    update_of_ne hb _ _
  refine ⟨fun b hb => ⟨?_,(h.known b hb).2⟩,h.flushed,fun b => ?_,fun b => ?_,h.states,h.written,
    h.card,h.touched⟩
  · have hbr : b ≠ r.dst := fun hbr => by
      rw [hbr] at hb
      exact absurd (hwritten.symm.trans hb) (by decide)
    rw [hwrites b hbr]
    exact (h.known b hb).1
  · by_cases hbr : b = r.dst
    · rw [hbr,hwrite]
      exact le_rfl
    · rw [hwrites b hbr]
      exact (h.issued b).trans (Nat.le_succ _)
  · by_cases hbr : b = r.dst
    · exact .inr ⟨s,r,hs,hr,hbr.symm⟩
    · rw [hwrites b hbr]
      exact h.stored b

theorem step_inv {e : Event α σ} (h : Inv x) (hs : step x e = some y) : Inv y := by
  cases e with
  | lock a i access locks =>
    obtain ⟨⟨haccess,hlocks,hcard⟩,hs⟩ := Option.ite_none_right_eq_some.mp hs
    obtain rfl := Option.some.inj hs
    have hinv : Inv (manageInterlocks x a i access locks) := by
      cases i with
      | cpu => exact (manageInterlocks_cpu h haccess hlocks (hcard rfl)).1
      | gpu => exact (manageInterlocks_gpu h access haccess a locks).1
    exact ⟨hinv.known,hinv.flushed,hinv.issued,hinv.stored,hinv.states,hinv.written,hinv.card,
      hinv.touched⟩
  | unlock a =>
    obtain ⟨-,hs⟩ := Option.ite_none_right_eq_some.mp hs
    obtain rfl := Option.some.inj hs
    exact ⟨h.known,h.flushed,h.issued,h.stored,h.states,h.written,h.card,h.touched⟩
  | lockDestination s a read =>
    simp only [step] at hs
    split at hs
    next hnone =>
      obtain rfl := Option.some.inj hs
      have hinv := (manageInterlocks_gpu h ⟨read,true⟩ (.inr rfl) a (x.locks a)).1
      obtain ⟨-,-,-,hholder,-⟩ := manageInterlocks_same x a .gpu ⟨read,true⟩ (x.locks a)
      refine setHolder_inv hinv ?_ fun r hr => ?_
      · rintro r ⟨⟩
        refine ⟨fun _ => ?_,fun hr => (nomatch hr)⟩
        simp [manageInterlocks,State.collect,AccessFlags.union]
      · rw [hholder,hnone] at hr
        cases hr
    next => cases hs
  | lockSource s a =>
    simp only [step] at hs
    split at hs
    next dst sources hholds =>
      obtain rfl := Option.some.inj hs
      have hinv := (manageInterlocks_gpu h ⟨true,false⟩ (.inl rfl) a (x.locks a)).1
      obtain ⟨-,-,-,hholder,-⟩ := manageInterlocks_same x a .gpu ⟨true,false⟩ (x.locks a)
      rw [← hholder] at hholds
      refine setHolder_inv hinv ?_ fun r hr => ?_
      · rintro r ⟨⟩
        exact ⟨fun _ => hinv.written s ⟨dst,sources,.locking⟩ hholds (fun h => (nomatch h)),
          fun hr => (nomatch hr)⟩
      · obtain rfl := Option.some.inj (hholds.symm.trans hr)
        exact fun hr => (nomatch hr)
    next => cases hs
  | lockCard s =>
    simp only [step] at hs
    split at hs
    next dst sources hholds =>
      obtain ⟨hfree,hs⟩ := Option.ite_none_right_eq_some.mp hs
      obtain rfl := Option.some.inj hs
      have hinv : Inv {x with card := some s} := by
        refine ⟨h.known,h.flushed,h.issued,h.stored,h.states,h.written,fun t r ht hr => ?_,h.touched⟩
        rw [h.card t r ht hr] at hfree
        cases hfree
      refine setHolder_inv hinv ?_ fun r hr => ?_
      · rintro r ⟨⟩
        exact ⟨fun _ => h.written s ⟨dst,sources,.locking⟩ hholds (fun h => (nomatch h)),
          fun _ => rfl⟩
      · obtain rfl := Option.some.inj (hholds.symm.trans hr)
        exact fun hr => (nomatch hr)
    next => cases hs
  | operate s =>
    simp only [step] at hs
    split at hs
    next hholds =>
      obtain rfl := Option.some.inj hs
      exact operate_inv h hholds rfl
    next => cases hs
  | storeSerial s =>
    simp only [step] at hs
    split at hs
    next hholds =>
      obtain rfl := Option.some.inj hs
      exact storeSerial_inv h hholds rfl
    next => cases hs
  | unlockBuffers s =>
    simp only [step] at hs
    split at hs
    next => cases hs
    next r hnot hholds =>
      obtain rfl := Option.some.inj hs
      refine setHolder_inv h (fun _ hr => (nomatch hr)) fun t ht hactive => ?_
      obtain ⟨dst,sources,phase⟩ := t
      obtain rfl : phase = .active := hactive
      exact (hnot dst sources (Option.some.inj (hholds.symm.trans ht))).elim
    next => cases hs

theorem step_interlocked {e : Event α σ} (h : Inv x) (hk : Kept x e) (hs : step x e = some y) :
    Interlocked x e y := by
  have hcpu : ∀ a access locks, e = .lock a .cpu access locks →
      x.lastWrite a ≤ y.flushed ∧ x.gfxSerial a ≤ y.done ∧ x.done ≤ y.done := by
    rintro a access locks rfl
    obtain ⟨⟨haccess,hlocks,hcard⟩,hs⟩ := Option.ite_none_right_eq_some.mp hs
    obtain rfl := Option.some.inj hs
    exact (manageInterlocks_cpu h haccess hlocks (hcard rfl)).2
  have hflushed := (step_inv h hs).flushed
  refine ⟨fun a access locks he _ => ?_,fun a access locks he hw => ?_,fun a he => ?_⟩
  · obtain ⟨hwrite,-,-⟩ := hcpu a access locks he
    exact ⟨hwrite.trans hflushed,hwrite⟩
  · obtain ⟨hwrite,hserial,hdone⟩ := hcpu a access locks he
    refine ⟨hwrite.trans hflushed,?_⟩
    subst he
    rcases hk hw with hread | hread
    · exact hread.trans hserial
    · exact hread.trans hdone
  · rcases he with ⟨access,locks,rfl⟩ | ⟨s,read,rfl⟩ | ⟨s,rfl⟩
    · obtain ⟨⟨haccess,-,-⟩,hs⟩ := Option.ite_none_right_eq_some.mp hs
      obtain rfl := Option.some.inj hs
      exact (manageInterlocks_gpu h access haccess a locks).2
    · simp only [step] at hs
      split at hs
      next =>
        obtain rfl := Option.some.inj hs
        exact (manageInterlocks_gpu h _ (.inr rfl) a (x.locks a)).2
      next => cases hs
    · simp only [step] at hs
      split at hs
      next =>
        obtain rfl := Option.some.inj hs
        exact (manageInterlocks_gpu h _ (.inl rfl) a (x.locks a)).2
      next => cases hs

theorem reaches_inv {ok : State α σ → Event α σ → Prop} (h : Reaches step ok Initial x) : Inv x := by
  refine h.invariant Inv (fun s hs => ?_) fun s e t hinv _ hs => step_inv hinv hs
  obtain rfl := hs
  exact ⟨fun _ _ => ⟨le_rfl,le_rfl⟩,le_rfl,fun _ => le_rfl,fun _ => .inl le_rfl,
    fun _ _ hr => (nomatch hr),fun _ _ hr => (nomatch hr),fun _ _ hr => (nomatch hr),
    fun _ ht => (nomatch ht)⟩

theorem Interlocked.kept {e : Event α σ} (hs : step x e = some y) (h : Interlocked x e y) :
    Kept x e := by
  cases e with
  | lock a i access locks =>
    cases i with
    | cpu =>
      intro hw
      have hread := (h.write a access locks rfl hw).2
      obtain ⟨-,hs⟩ := Option.ite_none_right_eq_some.mp hs
      obtain rfl := Option.some.inj hs
      exact (le_max_iff.mp (hread.trans (manageInterlocks_done_le x a .cpu access locks))).symm
    | gpu => exact trivial
  | unlock | lockDestination | lockSource | lockCard | operate | storeSerial | unlockBuffers =>
    exact trivial

/-- In every run exactly the steps that are kept grant access only to who has waited for the
other. -/
theorem accesses_interlocked {ok : State α σ → Event α σ → Prop} (h : Reaches step ok Initial x)
    {e : Event α σ} (hs : step x e = some y) : Interlocked x e y ↔ Kept x e :=
  ⟨Interlocked.kept hs,fun hk => step_interlocked (reaches_inv h) hk hs⟩

end Run

def blit : List (Event Bool Unit) :=
  [.lockDestination () false false,.lockSource () true,.lockCard (),.operate (),.storeSerial (),
    .unlockBuffers ()]

def untouched : State Bool Unit :=
  ⟨fun _ _ => {},fun _ => 0,fun _ => 0,[],fun _ => none,none,0,0,0,fun _ => 0,fun _ => 0,
    fun _ => false⟩

def blitted : State Bool Unit := (exec step untouched blit).getD untouched

theorem blitted_reached {ok : State Bool Unit → Event Bool Unit → Prop} (hok : ∀ x e, ok x e) :
    Reaches step ok Initial blitted := by
  have hblit : exec step untouched blit = some blitted := rfl
  exact Reaches.exec (.init rfl) hok hblit

/-- Who writes to the destination of a blit waits for it. -/
theorem destination_waited : ∃ y, step blitted (.lock false .cpu ⟨false,true⟩ 0) = some y ∧
    blitted.lastWrite false = 1 ∧ 1 ≤ y.done ∧
    Interlocked blitted (.lock false .cpu ⟨false,true⟩ 0) y := by
  have hinterlocked : Interlocked blitted (.lock false .cpu ⟨false,true⟩ 0) _ :=
    (accesses_interlocked (blitted_reached fun _ _ => trivial) rfl).mpr fun _ => .inr (by decide)
  exact ⟨_,rfl,rfl,by decide,hinterlocked⟩

/-- Who writes to the source of a blit does not. -/
theorem source_not_waited : ∃ y, Reaches step (fun _ _ => True) Initial blitted ∧
    step blitted (.lock true .cpu ⟨false,true⟩ 0) = some y ∧ blitted.lastRead true = 1 ∧
    y.done = 0 ∧ ¬ Interlocked blitted (.lock true .cpu ⟨false,true⟩ 0) y := by
  refine ⟨_,blitted_reached fun _ _ => trivial,rfl,by decide,by decide,fun h => ?_⟩
  exact absurd (h.write true ⟨false,true⟩ 0 rfl rfl).2 (by decide)

end DirectFB.Interlocks
