import DirectFB.KeyFixup

/-! The bits of modifier keys over runs of key events, and how the held ones are released. -/
namespace DirectFB.KeyFixup

def Device.Held (d : Device) (b : Bool × Modifier) : Prop :=
  b.2 ∈ if b.1 then d.modifiersR else d.modifiersL

instance (d : Device) (b : Bool × Modifier) : Decidable (d.Held b) :=
  inferInstanceAs (Decidable (_ ∈ _))

/-- The modifier key that an event is about. -/
def KeyEvent.bit (ev : KeyEvent) : Option (Bool × Modifier) := bitOf ev.keyId ev.keySymbol

/-- Every event of a run with what is dispatched for it. -/
def Device.run : Device → List KeyEvent → Device × List KeyEvent
  | d, [] => (d,[])
  | d, ev :: evs =>
    let r := d.fixupKeyEvent ev
    ((r.1.run evs).1,r.2 :: (r.1.run evs).2)

/-- The last of the events with the key, if any, is a press. -/
def lastPressed (b : Bool × Modifier) (evs : List KeyEvent) (before : Bool) : Bool :=
  evs.foldl (fun pressed ev => if ev.bit = some b then ev.press else pressed) before

/-- `release_key`, where `junk` is the memory that the event is made in. -/
def releaseKey (junk : KeyEvent) (id : ℕ) : KeyEvent :=
  if keyType id = 0xf600 then {junk with press := false, flags := {.keyId}, keyId := id}
  else {junk with press := false, flags := {.keySymbol}, keySymbol := id}

/-- What `flush_keys` looks at and releases, one after the other. -/
def flushOrder : List ((Bool × Modifier) × ℕ) :=
  [((false,.alt),0xf635),((false,.control),0xf633),((false,.hyper),0xf63b),
  ((false,.metaKey),0xf637),((false,.shift),0xf631),((false,.super),0xf639),
  ((true,.altgr),altGr),((true,.alt),0xf636),((true,.control),0xf634),((true,.hyper),0xf63c),
  ((true,.metaKey),0xf638),((true,.shift),0xf632),((true,.super),0xf63a)]

/-- `flush_keys` over a list of keys, with what is dispatched. -/
def Device.flush (junk : ℕ → KeyEvent) : Device → List ((Bool × Modifier) × ℕ) →
    Device × List KeyEvent
  | d, [] => (d,[])
  | d, (b,id) :: keys =>
    if d.Held b then
      let r := d.fixupKeyEvent (releaseKey (junk id) id)
      ((r.1.flush junk keys).1,r.2 :: (r.1.flush junk keys).2)
    else d.flush junk keys

/-- The identifier of a modifier key comes with the symbol of a modifier. -/
def Device.Steady (d : Device) (ev : KeyEvent) : Prop :=
  d.Looks ev ∧ (bitOf (d.idOf ev) (d.symbolOf ev) ≠ none → keyType (d.symbolOf ev) = modifierType)

def Device.SteadyRun : Device → List KeyEvent → Prop
  | _, [] => True
  | d, ev :: evs => d.Steady ev ∧ (d.fixupKeyEvent ev).1.SteadyRun evs

/-- The release of each held key is translated to that key. -/
def Device.Frees (junk : ℕ → KeyEvent) : Device → List ((Bool × Modifier) × ℕ) → Prop
  | _, [] => True
  | d, (b,id) :: keys =>
    if d.Held b then
      let ev := releaseKey (junk id) id
      d.Steady ev ∧ ¬d.Loses ev ∧ bitOf (d.idOf ev) (d.symbolOf ev) = some b ∧
        (d.fixupKeyEvent ev).1.Frees junk keys
    else d.Frees junk keys

/-- No modifier is held after the flush, which releases those that were held before. -/
structure Device.Flushed (d : Device) (junk : ℕ → KeyEvent) : Prop where
  left : (d.flush junk flushOrder).1.modifiersL = ∅
  right : (d.flush junk flushOrder).1.modifiersR = ∅
  released : ∀ ev ∈ (d.flush junk flushOrder).2, ev.press = false
  exact_held : ∃ bits : List (Bool × Modifier),
    (d.flush junk flushOrder).2.map (·.bit) = bits.map some ∧ bits.Nodup ∧ ∀ b, b ∈ bits ↔ d.Held b

theorem bitOf_combine (id last symbol : ℕ) : bitOf id (combine last symbol) = bitOf id symbol := by
  obtain h | h := combine_cases last symbol
  · rw [h]
  · have h₁ : symbol ≠ altGr := fun he => absurd (he ▸ h.1) (by decide)
    have h₂ : combine last symbol ≠ altGr := fun he => absurd (he ▸ h.2) (by decide)
    simp [bitOf,h₁,h₂]

variable {d : Device} {ev : KeyEvent} {b : Bool × Modifier}

theorem updateModifiers_held
    (h : ev.bit ≠ none → keyType ev.keySymbol = modifierType) (b : Bool × Modifier) :
    (d.updateModifiers ev).Held b ↔ if ev.bit = some b then ev.press = true else d.Held b := by
  unfold KeyEvent.bit at *
  unfold Device.updateModifiers
  cases hb : bitOf ev.keyId ev.keySymbol with
  | none => simp
  | some k =>
    rw [if_pos (h (by simp [hb]))]
    obtain ⟨_ | _,m⟩ := k <;> obtain ⟨_ | _,m'⟩ := b <;> cases ev.press <;>
      by_cases hm : m' = m <;> simp [Device.Held,hm,eq_comm (a := m)]

theorem updateLocks_held (d : Device) (ev : KeyEvent) (b : Bool × Modifier) :
    (d.updateLocks ev).Held b ↔ d.Held b := by
  unfold Device.updateLocks
  split_ifs <;> rfl

theorem updateSymbol_held (d : Device) (ev : KeyEvent) (b : Bool × Modifier) :
    (d.updateSymbol ev).Held b ↔ d.Held b := by
  unfold Device.updateSymbol
  dsimp only
  split_ifs <;> rfl

theorem fixup_held (d : Device) (ev : KeyEvent) (b : Bool × Modifier) :
    (d.fixupKeyEvent ev).1.Held b ↔ (d.updateModifiers (d.complete ev).2).Held b := by
  obtain ⟨entries,he⟩ := complete_device d ev
  simp only [Device.fixupKeyEvent,he,updateSymbol_held,updateLocks_held,updateModifiers_entries]
  rfl

theorem fixup_bit (d : Device) (ev : KeyEvent) :
    (d.fixupKeyEvent ev).2.bit = (d.complete ev).2.bit := by
  rw [fixup_event]
  exact bitOf_combine _ _ _

/-- One event changes the bit of its own key only. -/
theorem fixup_step (h : d.Steady ev) (b : Bool × Modifier) : (d.fixupKeyEvent ev).1.Held b ↔
      if (d.fixupKeyEvent ev).2.bit = some b then (d.fixupKeyEvent ev).2.press = true
      else d.Held b := by
  rw [fixup_held,fixup_bit,updateModifiers_held,fixup_event]
  rw [complete_event h.1]
  unfold KeyEvent.bit
  dsimp only
  split_ifs with hl
  · exact fun hb => absurd rfl hb
  · exact h.2

theorem run_held {evs : List KeyEvent} (h : d.SteadyRun evs) (b : Bool × Modifier) :
    (d.run evs).1.Held b ↔ lastPressed b (d.run evs).2 (d.Held b) = true := by
  induction evs generalizing d with
  | nil => simp [Device.run,lastPressed]
  | cons ev evs ih =>
    have hstep := fixup_step h.1 b
    rw [Device.run,ih h.2]
    simp only [lastPressed,List.foldl_cons]
    congr! 2
    split_ifs with hb <;> simp_all

theorem release_press (junk : KeyEvent) (id : ℕ) : (releaseKey junk id).press = false := by
  unfold releaseKey
  split_ifs <;> rfl

/-- The release of a held key clears its bit and no other. -/
theorem release_step (h : d.Steady ev)
    (hl : ¬d.Loses ev) (hb : bitOf (d.idOf ev) (d.symbolOf ev) = some b) (hp : ev.press = false) :
    (d.fixupKeyEvent ev).2.bit = some b ∧ (d.fixupKeyEvent ev).2.press = false ∧
      ∀ k, (d.fixupKeyEvent ev).1.Held k ↔ k ≠ b ∧ d.Held k := by
  have hbit : (d.fixupKeyEvent ev).2.bit = some b := by
    rw [fixup_bit,complete_event h.1,if_neg hl]
    exact hb
  have hpress : (d.fixupKeyEvent ev).2.press = false := by
    rw [fixup_event,complete_event h.1]
    exact hp
  refine ⟨hbit,hpress,fun k => ?_⟩
  rw [fixup_step h,hbit,hpress]
  by_cases hk : b = k <;> simp [hk,eq_comm (a := k)]

theorem flush_spec {junk : ℕ → KeyEvent} {keys : List ((Bool × Modifier) × ℕ)}
    (h : d.Frees junk keys) (hn : (keys.map Prod.fst).Nodup) :
    (d.flush junk keys).2.map (·.bit) = ((keys.map Prod.fst).filter (d.Held ·)).map some ∧
      (∀ ev ∈ (d.flush junk keys).2, ev.press = false) ∧
      ∀ k, (d.flush junk keys).1.Held k ↔ k ∉ keys.map Prod.fst ∧ d.Held k := by
  induction keys generalizing d with
  | nil => simp [Device.flush]
  | cons key keys ih =>
    obtain ⟨b,id⟩ := key
    obtain ⟨hb,hn⟩ := List.nodup_cons.mp hn
    unfold Device.Frees at h
    unfold Device.flush
    by_cases hd : d.Held b
    · rw [if_pos hd] at h ⊢
      obtain ⟨hs,hl,hbit,hrest⟩ := h
      obtain ⟨h₁,h₂,h₃⟩ := release_step hs hl hbit (release_press _ _)
      obtain ⟨ih₁,ih₂,ih₃⟩ := ih hrest hn
      have hsame : (keys.map Prod.fst).filter
          ((d.fixupKeyEvent (releaseKey (junk id) id)).1.Held ·) =
          (keys.map Prod.fst).filter (d.Held ·) :=
        List.filter_congr fun k hk => by
          have : k ≠ b := fun he => hb (he ▸ hk)
          simp [h₃,this]
      refine ⟨?_,?_,fun k => ?_⟩
      · simp [h₁,ih₁,hsame,hd]
      · simpa [h₂] using ih₂
      · rw [ih₃,h₃]
        simp only [List.map_cons,List.mem_cons]
        tauto
    · rw [if_neg hd] at h ⊢
      obtain ⟨ih₁,ih₂,ih₃⟩ := ih h hn
      refine ⟨by simp [ih₁,hd],ih₂,fun k => ?_⟩
      rw [ih₃,List.map_cons,List.mem_cons]
      by_cases hk : k = b <;> simp_all

theorem mem_flushOrder {id symbol : ℕ} (h : bitOf id symbol = some b) :
    b ∈ flushOrder.map Prod.fst := by
  obtain ⟨k,hk,rfl⟩ := Option.map_eq_some_iff.mp h
  have htable : ∀ x ∈ modifierKeys, x.2 ∈ flushOrder.map Prod.fst := by decide
  split_ifs
  · decide
  · exact htable _ (mem_of_lookup hk)

theorem lastPressed_other (hb : b ∉ flushOrder.map Prod.fst)
    (evs : List KeyEvent) (before : Bool) : lastPressed b evs before = before := by
  induction evs generalizing before with
  | nil => rfl
  | cons ev evs ih =>
    unfold lastPressed
    rw [List.foldl_cons,if_neg fun h : ev.bit = some b => hb (mem_flushOrder h)]
    exact ih before

/-- In every run of such events the bits follow the last event of each key, and a flush where the
releases reach the held keys leaves no bit. -/
theorem modifiers_follow (d : Device) (junk : ℕ → KeyEvent) (evs : List KeyEvent)
    (hleft : d.modifiersL = ∅) (hright : d.modifiersR = ∅) (h : d.SteadyRun evs) :
    (∀ b, (d.run evs).1.Held b ↔ lastPressed b (d.run evs).2 false = true) ∧
      ((d.run evs).1.Frees junk flushOrder → (d.run evs).1.Flushed junk) := by
  have hnone (b : Bool × Modifier) : ¬d.Held b := by
    simp [Device.Held,hleft,hright]
  have hrun (b : Bool × Modifier) :
      (d.run evs).1.Held b ↔ lastPressed b (d.run evs).2 false = true := by
    rw [run_held h,decide_eq_false (hnone b)]
  refine ⟨hrun,fun hf => ?_⟩
  have hall (b : Bool × Modifier) (hb : (d.run evs).1.Held b) : b ∈ flushOrder.map Prod.fst := by
    by_contra hno
    simp [hrun,lastPressed_other hno] at hb
  obtain ⟨h₁,h₂,h₃⟩ := flush_spec hf (by decide)
  have hclear (b : Bool × Modifier) : ¬((d.run evs).1.flush junk flushOrder).1.Held b :=
    fun hb => ((h₃ b).mp hb).1 (hall b ((h₃ b).mp hb).2)
  exact {
    left := Finset.eq_empty_of_forall_notMem fun m => hclear (false,m)
    right := Finset.eq_empty_of_forall_notMem fun m => hclear (true,m)
    released := h₂
    exact_held := ⟨_,h₁,List.Nodup.filter _ (by decide),fun b => by simpa using hall b⟩}

theorem shift_flushed :
    let shift : KeyEvent := {press := true, flags := {.keyId}, keyId := 0xf631}
    ((({} : Device).run [shift]).1.Held (false,.shift) ↔
      lastPressed (false,.shift) (({} : Device).run [shift]).2 false = true) ∧
      (({} : Device).run [shift]).1.Flushed fun _ => shift := by
  intro shift
  have h := modifiers_follow {} (fun _ => shift) [shift] rfl rfl ⟨⟨.inl rfl,by decide⟩,trivial⟩
  refine ⟨h.1 _,h.2 ?_⟩
  unfold flushOrder
  iterate 4 rw [Device.Frees,if_neg (by decide)]
  rw [Device.Frees,if_pos (by decide)]
  refine ⟨⟨.inl (List.isEmpty_iff.mp (by decide)),by decide⟩,by decide,by decide,?_⟩
  iterate 8 rw [Device.Frees,if_neg (by decide)]
  trivial

/-- The symbol of the right Alt key is not in the keymap. Its release is dispatched without an
identifier, and the modifier stays. -/
theorem altgr_stuck : ¬∀ (d : Device) (junk : ℕ → KeyEvent) (evs : List KeyEvent),
      d.modifiersL = ∅ → d.modifiersR = ∅ →
      (∀ b, (d.run evs).1.Held b ↔ lastPressed b (d.run evs).2 false = true) ∧
        (d.run evs).1.Flushed junk := by
  intro h
  have := (h {entries := [{code := 0, identifier := 0xf602, base := 0x62}]}
    (fun _ => {press := true, flags := ∅})
    [{press := true, flags := {.keyId,.keySymbol}, keyId := 0xf636, keySymbol := altGr}]
    rfl rfl).2.right
  revert this
  decide

end DirectFB.KeyFixup
