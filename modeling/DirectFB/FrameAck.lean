import DirectFB.Reaches

/-! Frame acknowledgement: the clients of a surface acknowledge the flips that were announced,
and the surface keeps the lowest count they acknowledged. -/
namespace DirectFB.FrameAck
open Transition

/-- The `flip_count` of a `CoreSurfaceClient`, and the flip that it stands for, which is counted
without a wrap. -/
structure Client where
  flipCount : UInt32
  flip : ℕ

/-- The counters of a `CoreSurface`, with the flips that they stand for, and the counts that
`dfb_surface_notify_frame` announced. -/
structure Surface (κ : Type*) where
  flips : UInt32
  flipsAcked : UInt32
  clients : List κ
  client : κ → Client
  announced : List UInt32
  flip : ℕ
  flipAcked : ℕ

variable {κ : Type*} [DecidableEq κ]

/-- The counting in `dfb_surface_flip_buffers`. -/
def flipBuffers (s : Surface κ) (swap : Bool) : Surface κ :=
  if swap then s else {s with flips := s.flips+1, flip := s.flip+1}

/-- `flips_acked` is set, and announced. -/
def acknowledge (s : Surface κ) (count : UInt32) (flip : ℕ) : Surface κ :=
  {s with flipsAcked := count, flipAcked := flip, announced := s.announced++[count]}

/-- The end of `dfb_surface_dispatch_update`, which is left if the event is not dispatched. -/
def dispatchUpdate (s : Surface κ) (dispatched : Bool) : Surface κ :=
  if dispatched ∧ s.clients = [] then acknowledge s s.flips s.flip else s

/-- `dfb_surface_client_create` -/
def createClient (s : Surface κ) (c : κ) : Surface κ :=
  {s with clients := s.clients++[c], client := Function.update s.client c ⟨0,0⟩}

/-- `surface_client_destructor` -/
def destroyClient (s : Surface κ) (c : κ) : Surface κ := {s with clients := s.clients.erase c}

def setCount (s : Surface κ) (c : κ) (flip : ℕ) : Surface κ :=
  {s with client := Function.update s.client c ⟨UInt32.ofNat flip,flip⟩}

/-- One round of the loop in `FrameAck`. -/
def lower (s : Surface κ) (lowest : Client) (c : κ) : Client :=
  if (s.client c).flipCount < lowest.flipCount then s.client c else lowest

/-- `FrameAck`, of a client for the count of a flip. -/
def frameAck (s : Surface κ) (c : κ) (flip : ℕ) : Surface κ :=
  let t := setCount s c flip
  let lowest := t.clients.foldl (lower t) ⟨0xffffffff,flip⟩
  if lowest.flipCount > t.flipsAcked then acknowledge t lowest.flipCount lowest.flip else t

inductive Event (κ : Type*)
  | flip (swap : Bool)
  | update (dispatched : Bool)
  | create (c : κ)
  | destroy (c : κ)
  | ack (c : κ) (flip : ℕ)

/-- Clients do not acknowledge a flip before one that they have acknowledged. -/
def step (s : Surface κ) : Event κ → Option (Surface κ)
  | .flip swap => some (flipBuffers s swap)
  | .update dispatched => some (dispatchUpdate s dispatched)
  | .create c => if c ∉ s.clients then some (createClient s c) else none
  | .destroy c => if c ∈ s.clients then some (destroyClient s c) else none
  | .ack c flip =>
    if c ∈ s.clients ∧ (s.client c).flip ≤ flip then some (frameAck s c flip) else none

def init (s : Surface κ) : Prop :=
  s.flips = 0 ∧ s.flipsAcked = 0 ∧ s.clients = [] ∧ s.announced = [] ∧ s.flip = 0 ∧ s.flipAcked = 0

def Ordered (s : Surface κ) : Prop :=
  (∀ c ∈ s.clients, s.flipsAcked < (s.client c).flipCount ↔ s.flipAcked < (s.client c).flip) ∧
  ∀ c ∈ s.clients, ∀ d ∈ s.clients,
    (s.client c).flipCount < (s.client d).flipCount ↔ (s.client c).flip < (s.client d).flip

def Kept (s : Surface κ) : Event κ → Prop
  | .update dispatched => dispatched = true → s.clients = [] → s.flipAcked ≤ s.flip
  | .destroy c => s.clients.erase c ≠ [] →
      ∃ d ∈ s.clients.erase c, (s.client d).flip ≤ s.flipAcked
  | .ack c flip => Ordered (setCount s c flip)
  | _ => True

/-- The counts are those of the flips they stand for, and some client is no further than what is
acknowledged. -/
structure Inv (s : Surface κ) : Prop where
  flips : s.flips = UInt32.ofNat s.flip
  flipsAcked : s.flipsAcked = UInt32.ofNat s.flipAcked
  client : ∀ c ∈ s.clients, (s.client c).flipCount = UInt32.ofNat (s.client c).flip
  nodup : s.clients.Nodup
  slowest : s.clients ≠ [] → ∃ c ∈ s.clients, (s.client c).flip ≤ s.flipAcked

section Lowest
variable {s : Surface κ}

omit [DecidableEq κ] in
theorem foldl_lower (s : Surface κ) (l : List κ) (start : Client) :
    (l.foldl (lower s) start = start ∨ ∃ c ∈ l, l.foldl (lower s) start = s.client c) ∧
    (l.foldl (lower s) start).flipCount ≤ start.flipCount ∧
    ∀ c ∈ l, (l.foldl (lower s) start).flipCount ≤ (s.client c).flipCount := by
  induction l generalizing start with
  | nil => exact ⟨.inl rfl,UInt32.le_refl _,fun c hc => absurd hc List.not_mem_nil⟩
  | cons c l ih =>
    obtain ⟨hfound,hstart,hall⟩ := ih (lower s start c)
    have hlower : lower s start c = start ∧ ¬(s.client c).flipCount < start.flipCount ∨
        lower s start c = s.client c ∧ (s.client c).flipCount < start.flipCount := by
      unfold lower
      split_ifs with h
      · exact .inr ⟨rfl,h⟩
      · exact .inl ⟨rfl,h⟩
    rw [List.foldl_cons]
    rcases hlower with ⟨he,hlt⟩ | ⟨he,hlt⟩
    · rw [he] at hfound hstart hall ⊢
      refine ⟨hfound.imp_right fun ⟨d,hd,hdl⟩ => ⟨d,List.mem_cons_of_mem _ hd,hdl⟩,hstart,
        fun d hd => ?_⟩
      rcases List.mem_cons.mp hd with rfl | hd
      · exact UInt32.le_trans hstart (UInt32.not_lt.mp hlt)
      · exact hall d hd
    · rw [he] at hfound hstart hall ⊢
      refine ⟨.inr ?_,UInt32.le_trans hstart (UInt32.le_of_lt hlt),fun d hd => ?_⟩
      · rcases hfound with h | ⟨d,hd,hdl⟩
        · exact ⟨c,List.mem_cons_self,h⟩
        · exact ⟨d,List.mem_cons_of_mem _ hd,hdl⟩
      · rcases List.mem_cons.mp hd with rfl | hd
        · exact hstart
        · exact hall d hd

theorem lowest_spec (c : κ) (hc : c ∈ s.clients) (flip : ℕ) :
    ∃ d ∈ s.clients, s.clients.foldl (lower (setCount s c flip)) ⟨0xffffffff,flip⟩ =
        (setCount s c flip).client d ∧
      ∀ e ∈ s.clients, ((setCount s c flip).client d).flipCount ≤
        ((setCount s c flip).client e).flipCount := by
  have hself : (setCount s c flip).client c = ⟨UInt32.ofNat flip,flip⟩ :=
    Function.update_self c _ s.client
  obtain ⟨hfound,-,hall⟩ := foldl_lower (setCount s c flip) s.clients ⟨0xffffffff,flip⟩
  rcases hfound with hstart | ⟨d,hd,hfound⟩
  · -- every count is 0xffffffff, that of the client itself as well
    have hmax : (0xffffffff : UInt32) ≤ UInt32.ofNat flip := by
      have h := hall c hc
      rw [hstart,hself] at h
      exact h
    have heq : (0xffffffff : UInt32) = UInt32.ofNat flip := by
      refine UInt32.le_antisymm hmax ?_
      have hlt := (UInt32.ofNat flip).toNat_lt
      exact UInt32.le_iff_toNat_le.mpr (by simp; omega)
    refine ⟨c,hc,?_,fun e he => ?_⟩
    · rw [hstart,hself,heq]
    · have h := hall e he
      rw [hstart] at h
      rw [hself]
      exact UInt32.le_trans (UInt32.le_of_eq heq.symm) h
  · refine ⟨d,hd,hfound,fun e he => ?_⟩
    have h := hall e he
    rwa [hfound] at h

end Lowest

section Run
variable {s t : Surface κ}

theorem inv_frameAck (h : Inv s) {c : κ} (hc : c ∈ s.clients) {flip : ℕ}
    (hordered : Ordered (setCount s c flip)) :
    Inv (frameAck s c flip) ∧ s.flipAcked ≤ (frameAck s c flip).flipAcked := by
  obtain ⟨d,hd,hlowest,hleast⟩ := lowest_spec c hc flip
  obtain ⟨hacked,hclients⟩ := hordered
  -- the client with the lowest count is the slowest one
  have hslowest : ∀ e ∈ s.clients, ((setCount s c flip).client d).flip ≤
      ((setCount s c flip).client e).flip := fun e he =>
    not_lt.mp fun hlt => UInt32.not_lt.mpr (hleast e he) ((hclients e he d hd).mpr hlt)
  have hcount : ∀ e ∈ s.clients, ((setCount s c flip).client e).flipCount =
      UInt32.ofNat ((setCount s c flip).client e).flip := by
    intro e he
    change (Function.update s.client c _ e).flipCount =
      UInt32.ofNat (Function.update s.client c _ e).flip
    rw [Function.update_apply]
    split_ifs
    · rfl
    · exact h.client e he
  unfold frameAck
  dsimp only
  change Inv (if (s.clients.foldl (lower (setCount s c flip)) ⟨0xffffffff,flip⟩).flipCount >
    s.flipsAcked then _ else _) ∧ s.flipAcked ≤ (if (s.clients.foldl
    (lower (setCount s c flip)) ⟨0xffffffff,flip⟩).flipCount > s.flipsAcked then _ else _ :
      Surface κ).flipAcked
  have hfound : (setCount s c flip).clients.foldl (lower (setCount s c flip)) ⟨0xffffffff,flip⟩ =
      (setCount s c flip).client d := hlowest
  rw [hfound,hlowest]
  by_cases hadvance : s.flipsAcked < ((setCount s c flip).client d).flipCount
  · rw [if_pos hadvance]
    refine ⟨⟨h.flips,hcount d hd,hcount,h.nodup,fun _ => ⟨d,hd,le_rfl⟩⟩,?_⟩
    exact ((hacked d hd).mp hadvance).le
  · rw [if_neg hadvance]
    refine ⟨⟨h.flips,h.flipsAcked,hcount,h.nodup,fun _ => ⟨d,hd,?_⟩⟩,le_rfl⟩
    exact not_lt.mp fun hlt => hadvance ((hacked d hd).mpr hlt)

theorem inv_step (h : Inv s) {e : Event κ} (hkept : Kept s e) (hs : step s e = some t) :
    Inv t ∧ s.flipAcked ≤ t.flipAcked := by
  cases e with
  | flip swap =>
    obtain rfl := Option.some.inj hs
    unfold flipBuffers
    split_ifs
    · exact ⟨h,le_rfl⟩
    · refine ⟨{h with flips := ?_},le_rfl⟩
      change s.flips+1 = UInt32.ofNat (s.flip+1)
      rw [h.flips,UInt32.ofNat_add]
      rfl
  | update dispatched =>
    obtain rfl := Option.some.inj hs
    unfold dispatchUpdate
    split_ifs with hnone
    · exact ⟨{h with
        flipsAcked := h.flips
        slowest := fun hne => absurd hnone.2 hne},hkept hnone.1 hnone.2⟩
    · exact ⟨h,le_rfl⟩
  | create c =>
    change (if c ∉ s.clients then some (createClient s c) else none) = some t at hs
    split_ifs at hs with hc
    obtain rfl := Option.some.inj hs
    have hold : ∀ d ∈ s.clients, (createClient s c).client d = s.client d := fun d hd =>
      Function.update_of_ne (fun he : d = c => hc (he ▸ hd)) _ _
    have hnew : (createClient s c).client c = ⟨0,0⟩ := Function.update_self c _ s.client
    refine ⟨⟨h.flips,h.flipsAcked,fun d hd => ?_,?_,fun _ => ⟨c,?_,?_⟩⟩,le_rfl⟩
    · rcases List.mem_append.mp hd with hd | hd
      · rw [hold d hd]
        exact h.client d hd
      · obtain rfl := List.mem_singleton.mp hd
        rw [hnew]
        rfl
    · exact List.nodup_append.mpr ⟨h.nodup,List.nodup_singleton c,fun d hd e he hde =>
        hc (List.mem_singleton.mp he ▸ hde ▸ hd)⟩
    · exact List.mem_append_right _ (List.mem_singleton_self c)
    · rw [hnew]
      exact Nat.zero_le _
  | destroy c =>
    change (if c ∈ s.clients then some (destroyClient s c) else none) = some t at hs
    split_ifs at hs with hc
    obtain rfl := Option.some.inj hs
    exact ⟨⟨h.flips,h.flipsAcked,fun d hd => h.client d (List.mem_of_mem_erase hd),
      h.nodup.erase c,hkept⟩,le_rfl⟩
  | ack c flip =>
    change (if c ∈ s.clients ∧ (s.client c).flip ≤ flip then some (frameAck s c flip)
      else none) = some t at hs
    split_ifs at hs with hc
    obtain rfl := Option.some.inj hs
    exact inv_frameAck h hc.1 hkept

theorem announced_step {e : Event κ} (hs : step s e = some t) :
    (t.announced = s.announced ∧ t.flipAcked = s.flipAcked ∧ t.flipsAcked = s.flipsAcked) ∨
      t.announced = s.announced++[t.flipsAcked] := by
  cases e with
  | flip swap =>
    obtain rfl := Option.some.inj hs
    unfold flipBuffers
    split_ifs <;> exact .inl ⟨rfl,rfl,rfl⟩
  | update dispatched =>
    obtain rfl := Option.some.inj hs
    unfold dispatchUpdate
    split_ifs
    · exact .inr rfl
    · exact .inl ⟨rfl,rfl,rfl⟩
  | create c =>
    change (if c ∉ s.clients then some (createClient s c) else none) = some t at hs
    split_ifs at hs
    obtain rfl := Option.some.inj hs
    exact .inl ⟨rfl,rfl,rfl⟩
  | destroy c =>
    change (if c ∈ s.clients then some (destroyClient s c) else none) = some t at hs
    split_ifs at hs
    obtain rfl := Option.some.inj hs
    exact .inl ⟨rfl,rfl,rfl⟩
  | ack c flip =>
    change (if c ∈ s.clients ∧ (s.client c).flip ≤ flip then some (frameAck s c flip)
      else none) = some t at hs
    split_ifs at hs
    obtain rfl := Option.some.inj hs
    unfold frameAck
    dsimp only
    split_ifs
    · exact .inr rfl
    · exact .inl ⟨rfl,rfl,rfl⟩

omit [DecidableEq κ] in
theorem init_inv (h : init s) : Inv s := by
  obtain ⟨hflips,hacked,hclients,-,hflip,hflipAcked⟩ := h
  refine ⟨?_,?_,?_,?_,?_⟩
  · rw [hflips,hflip]
    rfl
  · rw [hacked,hflipAcked]
    rfl
  · simp [hclients]
  · rw [hclients]
    exact List.nodup_nil
  · exact fun hne => absurd hclients hne

/-- What is acknowledged is at least what the slowest client acknowledged, or all that was
flipped where an update finds no client. It never moves back, and each advance is announced. -/
theorem flips_acked_kept (h : Reaches step Kept init s) :
    (s.flips = UInt32.ofNat s.flip ∧ s.flipsAcked = UInt32.ofNat s.flipAcked) ∧
    (s.clients ≠ [] → ∃ c ∈ s.clients, (s.client c).flip ≤ s.flipAcked) ∧
    (s.clients = [] → (dispatchUpdate s true).flipsAcked = s.flips ∧
      (dispatchUpdate s true).flipAcked = s.flip) ∧
    ∀ e t, Kept s e → step s e = some t → s.flipAcked ≤ t.flipAcked ∧
      (t.announced = s.announced ∧ t.flipAcked = s.flipAcked ∧ t.flipsAcked = s.flipsAcked ∨
        t.announced = s.announced++[t.flipsAcked]) := by
  have hinv : Inv s := h.invariant Inv (fun _ => init_inv) fun _ _ _ hi hk hs => (inv_step hi hk hs).1
  refine ⟨⟨hinv.flips,hinv.flipsAcked⟩,hinv.slowest,fun hnone => ?_,fun e t hkept hs => ?_⟩
  · unfold dispatchUpdate
    rw [if_pos ⟨rfl,hnone⟩]
    exact ⟨rfl,rfl⟩
  · exact ⟨(inv_step hinv hkept hs).2,announced_step hs⟩

def start : Surface (Fin 2) where
  flips := 0
  flipsAcked := 0
  clients := []
  client := fun _ => ⟨0,0⟩
  announced := []
  flip := 0
  flipAcked := 0

theorem init_start : init start := ⟨rfl,rfl,rfl,rfl,rfl,rfl⟩

/-- Two clients acknowledge a flip, the second one after the first. -/
theorem two_clients_acked : ∃ s : Surface (Fin 2), Reaches step Kept init s ∧
    s.flipsAcked = 1 ∧ s.announced = [1] ∧ ∃ c ∈ s.clients, (s.client c).flip ≤ s.flipAcked := by
  have h0 : Reaches step Kept init start := .init init_start
  have h1 := h0.step (Event.create 0) trivial rfl
  have h2 := h1.step (Event.create 1) trivial rfl
  have h3 := h2.step (Event.flip false) trivial rfl
  have h4 := h3.step (Event.ack 0 1) (show Ordered _ from ⟨by decide,by decide⟩) rfl
  have h5 := h4.step (Event.ack 1 1) (show Ordered _ from ⟨by decide,by decide⟩) rfl
  exact ⟨_,h5,rfl,rfl,(flips_acked_kept h5).2.1 (by decide)⟩

/-- The client that has acknowledged nothing is removed. Nothing is acknowledged for the one
that remains, and has acknowledged the flip. -/
theorem slowest_client_destroyed : ∃ s, exec step start
    [.create 0,.create 1,.flip false,.ack 0 1,.destroy 1] = some s ∧ s.clients = [0] ∧
    (s.client 0).flipCount = 1 ∧ s.flipsAcked = 0 ∧ s.announced = [] ∧
    ∀ c ∈ s.clients, ¬(s.client c).flip ≤ s.flipAcked :=
  ⟨_,rfl,rfl,rfl,rfl,rfl,by decide⟩

end Run

end DirectFB.FrameAck
