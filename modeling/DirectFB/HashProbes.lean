import DirectFB.DirectHash
import DirectFB.ProbingRoom

/-! Every walk over the hash table of libdirect ends as long as an empty slot is left, whatever is
inserted and however often. -/
namespace DirectFB.DirectHash.Probes
open Probing Transition

variable {V : Type*} {hash t : DirectHash V} {key : UInt64} {value : V} {mem : Bool}

def step (hash : DirectHash V) : Event V → Option (DirectHash V)
  | .insert key value mem => (hash.insert key value mem).map Prod.snd
  | .remove key => (hash.remove key).map Prod.snd
  | .lookup key => (hash.lookup key).map fun _ => hash

def Ends (hash : DirectHash V) (e : Event V) : Prop :=
  ∃ t, step hash e = some t ∧ Slot.empty ∈ t.table

def Fits (hash : DirectHash V) : Event V → Prop
  | .insert key _ mem => hash.crowded = true → mem = true → maxSize ≤ hash.size →
      hash.count < maxSize ∧
      (hash.count+1 < maxSize ∨ ∃ e, Slot.live e ∈ hash.table ∧ hasKey key e = true)
  | _ => True

structure Sound (hash : DirectHash V) : Prop where
  length_eq : hash.table.length = hash.size
  size_ge : minSize ≤ hash.size
  counted : Counted home hash.table hash.count hash.removed

theorem Sound.empty_mem_iff (h : Sound hash) :
    Slot.empty ∈ hash.table ↔ hash.count+hash.removed < hash.size := by
  rw [h.counted.empty_mem_iff,h.length_eq]

theorem Sound.init (size : ℤ) : Sound (init size : DirectHash V) where
  length_eq := by simp [table,DirectHash.init]
  size_ge := by
    simp only [DirectHash.init]
    split_ifs <;> omega
  counted := .replicate home _

theorem Sound.allocated (h : Sound hash) : Sound {hash with elements := some hash.table} :=
  ⟨h.length_eq,h.size_ge,h.counted⟩

theorem home_eq_of_hasKey {e : DirectHashElement V} (h : hasKey key e = true) :
    home e = key.toNat := by
  obtain rfl : e.key = key := by simpa [hasKey] using h
  rfl

theorem store_isSome (hempty : Slot.empty ∈ hash.table) (key : UInt64) (value : V) :
    ∃ r t, hash.store key value = some (r,t) := by
  obtain ⟨q,hq⟩ := find_isSome (Slot.stopsInsert (hasKey key)) key.toNat hempty rfl
  rw [DirectHash.store,hq]
  exact ⟨_,_,rfl⟩

/-- What an insertion comes to: the key was there, or its element has taken the place of a tombstone
or an empty slot. -/
inductive Stored (hash : DirectHash V) (key : UInt64) (t : DirectHash V) : Prop
  | known : t = hash → (∃ e, Slot.live e ∈ hash.table ∧ hasKey key e = true) → Stored hash key t
  | reused : t.size = hash.size → 0 < hash.removed →
    t.count+t.removed = hash.count+hash.removed → Stored hash key t
  | added : t.size = hash.size → t.count = hash.count+1 → t.removed = hash.removed →
    (Clear hash.table (hasKey key) key.toNat →
      ∀ e, Slot.live e ∈ hash.table → hasKey key e = false) → Stored hash key t

theorem Sound.store (h : Sound hash) {r : DirectResult}
    (hstore : hash.store key value = some (r,t)) : Sound t ∧ Stored hash key t := by
  obtain ⟨q,hq,-⟩ := Option.map_eq_some_iff.mp hstore
  obtain ⟨-,-,-,⟨s,hs,hstop⟩,-⟩ := find_eq_some.mp hq
  cases s with
  | live e =>
    obtain rfl : hash = t := by
      simp only [DirectHash.store,hq,hs,Option.map_some,Option.some.injEq,Prod.mk.injEq] at hstore
      exact hstore.2
    exact ⟨h,.known rfl ⟨e,List.mem_of_getElem? hs,hstop⟩⟩
  | removed =>
    have hpos := countP_pos Slot.isRemoved hs rfl
    rw [h.counted.removed_eq] at hpos
    rw [store_free hq (.inr hs) value] at hstore
    cases hstore
    refine ⟨⟨by simpa using h.length_eq,h.size_ge,?_⟩,.reused rfl hpos ?_⟩
    · simpa [hs] using @Counted.refill _ home _ _ _ _ ⟨key,value⟩ _ h.counted hq hs
    · simp [hs]
      omega
  | empty =>
    rw [store_free hq (.inl hs) value] at hstore
    cases hstore
    refine ⟨⟨by simpa using h.length_eq,h.size_ge,?_⟩,.added rfl rfl (by simp [hs])
      fun hclear e he => ?_⟩
    · simpa [hs] using @Counted.fill _ home _ _ _ _ ⟨key,value⟩ _ h.counted hq hs
    · rcases h.counted.reach.insert_walk hclear (fun _ => home_eq_of_hasKey) hq with
        ⟨a,ha,-⟩ | ⟨-,hnone⟩
      · rw [hs] at ha
        cases ha
      · exact hnone e he

/-- A key that is in the array or has a slot to spare leaves an empty one. -/
theorem Sound.store_ends (h : Sound hash) (hremoved : hash.removed = 0) :
    (∃ r t, hash.store key value = some (r,t) ∧ Slot.empty ∈ t.table) ↔ hash.count < hash.size ∧
      (hash.count+1 < hash.size ∨ ∃ e, Slot.live e ∈ hash.table ∧ hasKey key e = true) := by
  constructor
  · rintro ⟨r,t,hstore,hempty⟩
    obtain ⟨ht,hstored⟩ := h.store hstore
    rw [ht.empty_mem_iff] at hempty
    cases hstored with
    | known heq hknown =>
      subst heq
      exact ⟨by omega,.inr hknown⟩
    | reused _ hpos _ => omega
    | added hsize hcount hrem _ => exact ⟨by omega,.inl (by omega)⟩
  · rintro ⟨hlt,hroom⟩
    have hempty : Slot.empty ∈ hash.table := h.empty_mem_iff.mpr (by omega)
    obtain ⟨r,t,hstore⟩ := store_isSome hempty key value
    obtain ⟨ht,hstored⟩ := h.store hstore
    refine ⟨r,t,hstore,ht.empty_mem_iff.mpr ?_⟩
    cases hstored with
    | known heq _ =>
      subst heq
      omega
    | reused hsize hpos hsum => omega
    | added hsize hcount hrem hnone =>
      rcases hroom with hroom | ⟨e,he,hkey⟩
      · omega
      · have hclear : Clear hash.table (hasKey key) key.toNat :=
          clear_of_no_removed (h.counted.removed_eq.trans hremoved) _
        rw [hnone hclear e he] at hkey
        cases hkey

theorem Sound.grow (h : Sound hash) (ht : hash.grow = some t) :
    Sound t ∧ t.size = hash.grownSize ∧ t.count = hash.count ∧ t.removed = 0 ∧
      ∀ e, Slot.live e ∈ t.table ↔ Slot.live e ∈ hash.table := by
  obtain ⟨elements,he,rfl⟩ := Option.map_eq_some_iff.mp ht
  obtain ⟨hcounted,hlen,hmem⟩ := h.counted.rehash he
  have hmin : minSize ≤ hash.grownSize := by
    simp only [grownSize]
    split_ifs <;> omega
  exact ⟨⟨hlen,hmin,hcounted⟩,rfl,rfl,rfl,hmem⟩

theorem Sound.grow_isSome (h : Sound hash) (hle : hash.count ≤ hash.grownSize) :
    ∃ t, hash.grow = some t := by
  obtain ⟨elements,he⟩ := (h.counted.rehash_iff (n := hash.grownSize)).mpr hle
  rw [DirectHash.grow,he]
  exact ⟨_,rfl⟩

theorem Sound.grow_store_ends (h : Sound hash) :
    (∃ r t, hash.grow.bind (fun u => u.store key value) = some (r,t) ∧ Slot.empty ∈ t.table) ↔
      hash.count < hash.grownSize ∧ (hash.count+1 < hash.grownSize ∨
        ∃ e, Slot.live e ∈ hash.table ∧ hasKey key e = true) := by
  constructor
  · rintro ⟨r,t,hstore,hempty⟩
    obtain ⟨u,hu,hstore⟩ := Option.bind_eq_some_iff.mp hstore
    obtain ⟨hsound,hsize,hcount,hrem,hmem⟩ := h.grow hu
    have hends := (hsound.store_ends hrem).mp ⟨r,t,hstore,hempty⟩
    simpa only [hsize,hcount,hmem] using hends
  · rintro ⟨hlt,hroom⟩
    obtain ⟨u,hu⟩ := h.grow_isSome hlt.le
    obtain ⟨hsound,hsize,hcount,hrem,hmem⟩ := h.grow hu
    have hends := (@Sound.store_ends _ u key value hsound hrem).mpr
      (by simpa only [hsize,hcount,hmem] using ⟨hlt,hroom⟩)
    rw [hu]
    exact hends

theorem Sound.insert (h : Sound hash) {r : DirectResult}
    (hinsert : hash.insert key value mem = some (r,t)) : Sound t := by
  simp only [DirectHash.insert] at hinsert
  split_ifs at hinsert with hnew hcrowded hmem
  · cases hinsert
    exact h
  · obtain ⟨u,hu,hstore⟩ := Option.bind_eq_some_iff.mp hinsert
    exact ((h.allocated.grow hu).1.store hstore).1
  · cases hinsert
    exact h.allocated
  · exact (h.allocated.store hinsert).1

/-- An insertion ends and leaves an empty slot just where it fits. -/
theorem Sound.insert_ends (h : Sound hash) (hempty : Slot.empty ∈ hash.table) :
    (∃ r t, hash.insert key value mem = some (r,t) ∧ Slot.empty ∈ t.table) ↔
      Fits hash (.insert key value mem) := by
  have hroom := h.empty_mem_iff.mp hempty
  have hsize := h.size_ge
  simp only [DirectHash.insert]
  split_ifs with hnew hcrowded hmem
  · exact iff_of_true ⟨_,_,rfl,hempty⟩ fun _ hmem => by simp [hnew.2] at hmem
  · have hgrow := @Sound.grow_store_ends _ _ key value h.allocated
    refine hgrow.trans ?_
    rcases Nat.lt_or_ge hash.size maxSize with hlt | hge
    · have hgrown := spacedPrimesClosest_gt hlt
      rw [grownSize_eq]
      refine iff_of_true ⟨by dsimp only; omega,.inl (by dsimp only; omega)⟩ fun _ _ hmax => ?_
      omega
    · rw [grownSize_eq,spacedPrimesClosest_of_ge hge]
      exact ⟨fun hc _ _ _ => hc,fun hfits => hfits hcrowded hmem hge⟩
  · exact iff_of_true ⟨_,_,rfl,hempty⟩ fun _ hm => absurd hm hmem
  · refine iff_of_true ?_ fun hc => absurd hc hcrowded
    have hallocated := h.allocated
    obtain ⟨r,t,hstore⟩ := @store_isSome _ {hash with elements := some hash.table} hempty key value
    obtain ⟨ht,hstored⟩ := hallocated.store hstore
    refine ⟨r,t,hstore,ht.empty_mem_iff.mpr ?_⟩
    simp only [crowded,decide_eq_true_eq,minSize] at hcrowded hsize
    cases hstored with
    | known heq _ =>
      subst heq
      exact hroom
    | reused hs hpos hsum =>
      dsimp only at hs hpos hsum
      omega
    | added hs hcount hrem _ =>
      dsimp only at hs hcount hrem
      omega

theorem locateKey_isSome {elements : List (Slot (DirectHashElement V))}
    (hempty : Slot.empty ∈ elements) (key : UInt64) : ∃ pos, locateKey elements key = some pos := by
  obtain ⟨q,hq⟩ := find_isSome (Slot.stopsLookup (hasKey key)) key.toNat hempty rfl
  rw [locateKey,hq]
  exact ⟨_,rfl⟩

theorem locateKey_live {elements : List (Slot (DirectHashElement V))} {pos : ℕ}
    (h : locateKey elements key = some (some pos)) : ∃ e, elements[pos]? = some (.live e) := by
  obtain ⟨q,-,hq⟩ := Option.map_eq_some_iff.mp h
  split_ifs at hq with hlive
  obtain rfl := Option.some.inj hq
  obtain ⟨s,hs,hl⟩ := (Option.any_eq_true _ _).mp hlive
  cases s with
  | live e => exact ⟨e,hs⟩
  | empty => cases hl
  | removed => cases hl

theorem Sound.remove (h : Sound hash) (hempty : Slot.empty ∈ hash.table) (key : UInt64) :
    ∃ r t, hash.remove key = some (r,t) ∧ Sound t ∧ Slot.empty ∈ t.table := by
  cases he : hash.elements with
  | none => exact ⟨_,_,by rw [DirectHash.remove,he],h,hempty⟩
  | some elements =>
    obtain rfl := table_of_some he
    obtain ⟨pos,hpos⟩ := locateKey_isSome hempty key
    cases pos with
    | none => exact ⟨.itemNotFound,_,by rw [DirectHash.remove,he]; simp [hpos],h,hempty⟩
    | some pos =>
      obtain ⟨e,hlive⟩ := locateKey_live hpos
      have hsound : Sound ⟨hash.size,hash.count-1,hash.removed+1,
          some (hash.table.set pos .removed)⟩ :=
        ⟨by simpa using h.length_eq,h.size_ge,h.counted.mark hlive⟩
      have hcount := countP_pos Slot.isLive hlive rfl
      rw [h.counted.count_eq] at hcount
      have hroom := h.empty_mem_iff.mp hempty
      refine ⟨.ok,_,by rw [DirectHash.remove,he]; simp [hpos],hsound,hsound.empty_mem_iff.mpr ?_⟩
      dsimp only
      omega

/-- A call ends and leaves an empty slot just where it fits. -/
theorem Sound.ends_iff (h : Sound hash) (hempty : Slot.empty ∈ hash.table) (e : Event V) :
    Ends hash e ↔ Fits hash e := by
  cases e with
  | insert key value mem =>
    rw [← h.insert_ends hempty]
    constructor
    · rintro ⟨t,ht,hleft⟩
      obtain ⟨⟨r,t'⟩,hinsert,rfl⟩ := Option.map_eq_some_iff.mp ht
      exact ⟨r,t',hinsert,hleft⟩
    · rintro ⟨r,t,ht,hleft⟩
      exact ⟨t,by simp [Probes.step,ht],hleft⟩
  | remove key =>
    obtain ⟨r,t,ht,-,hleft⟩ := h.remove hempty key
    exact iff_of_true ⟨t,by simp [Probes.step,ht],hleft⟩ trivial
  | lookup key =>
    refine iff_of_true ⟨hash,?_,hempty⟩ trivial
    cases he : hash.elements with
    | none => simp [Probes.step,DirectHash.lookup,he]
    | some elements =>
      obtain ⟨pos,hpos⟩ := locateKey_isSome (table_of_some he ▸ hempty) key
      simp [Probes.step,DirectHash.lookup,he,hpos]

theorem Sound.step (h : Sound hash) (hempty : Slot.empty ∈ hash.table) {e : Event V}
    (ht : step hash e = some t) : Sound t := by
  cases e with
  | insert key value mem =>
    obtain ⟨⟨r,t'⟩,hinsert,rfl⟩ := Option.map_eq_some_iff.mp ht
    exact h.insert hinsert
  | remove key =>
    obtain ⟨r,t',hremove,hsound,-⟩ := h.remove hempty key
    rw [Probes.step,hremove] at ht
    obtain rfl := Option.some.inj ht
    exact hsound
  | lookup key =>
    obtain ⟨v,-,rfl⟩ := Option.map_eq_some_iff.mp ht
    exact h

theorem reaches_sound {size : ℤ} (h : Reaches Probes.step Fits (fun s => s = init size) hash) :
    Sound hash ∧ Slot.empty ∈ hash.table := by
  refine h.invariant (fun s => Sound s ∧ Slot.empty ∈ s.table) ?_ ?_
  · rintro _ rfl
    refine ⟨.init size,(Sound.init size).empty_mem_iff.mpr ?_⟩
    have := (Sound.init size : Sound (init size : DirectHash V)).size_ge
    simp only [init,minSize] at this ⊢
    omega
  · rintro s e t ⟨hs,hempty⟩ hfits ht
    obtain ⟨t',ht',hleft⟩ := (hs.ends_iff hempty e).mpr hfits
    obtain rfl : t = t' := Option.some.inj (ht.symm.trans ht')
    exact ⟨hs.step hempty ht,hleft⟩

end DirectFB.DirectHash.Probes
