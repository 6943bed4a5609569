import DirectFB.DirectMap
import DirectFB.HashProbes

/-! Every walk over the map of libdirect ends as long as an empty slot is left and positions are
within `int`, whatever the functions of its user compare. -/
namespace DirectFB.DirectMap.Probes
open Probing Transition

variable {Key Obj : Type*}

/-- The calls of a user. The answers to `iterate` may depend on the objects shown before. -/
inductive Event (Key Obj : Type*)
  | insert (key : Key) (object : Obj) (mem : Bool)
  | remove (key : Key)
  | lookup (key : Key)
  | iterate (answer : List Obj → Obj → DirectEnumerationResult)

def step [DecidableEq Obj] (f : MapFuncs Key Obj) (map : DirectMap Obj) :
    Event Key Obj → Option (DirectMap Obj)
  | .insert key object mem => (map.insert f key object mem).map Prod.snd
  | .remove key => (map.remove f key).map Prod.snd
  | .lookup key => (map.lookup f key).map fun _ => map
  | .iterate answer => some (map.iterate (watch answer) ([],[])).1

/-- There is an empty slot, and the positions are within `int`. -/
structure Probeable (map : DirectMap Obj) : Prop where
  size_le : map.size ≤ intMax+1
  empty_mem : Slot.empty ∈ map.entries

def Ends [DecidableEq Obj] (f : MapFuncs Key Obj) (map : DirectMap Obj) (e : Event Key Obj) : Prop :=
  ∃ t, step f map e = some t ∧ Probeable t

def Reusable (f : MapFuncs Key Obj) (map : DirectMap Obj) (key : Key) : Prop :=
  ∃ i < map.entries.length,
    (∀ j < i, map.entries[((f.hash key).toNat+j)%map.entries.length]? ≠ some .empty) ∧
    (map.entries[((f.hash key).toNat+i)%map.entries.length]? = some .removed ∨
      ∃ e, map.entries[((f.hash key).toNat+i)%map.entries.length]? = some (.live e) ∧
        isMatch f key e = true)

/-- Where the array is to grow, it grows to one with an empty slot besides that of the object, and
its positions within `int`; without memory for that it has another empty slot or does not need it.
-/
def Fits (f : MapFuncs Key Obj) (map : DirectMap Obj) : Event Key Obj → Prop
  | .insert key _ true => map.crowded = true → map.grownSize ≤ intMax+1 ∧
      map.count < map.grownSize ∧ (map.count+1 < map.grownSize ∨
        ∃ e, Slot.live e ∈ map.entries ∧ isMatch f key e = true)
  | .insert key _ false => map.crowded = true →
      map.count+map.removed+1 < map.size ∨ Reusable f map key
  | _ => True

structure Sound (map : DirectMap Obj) : Prop where
  length_eq : map.entries.length = map.size
  counted : Counted home map.entries map.count map.removed

variable {f : MapFuncs Key Obj} {map t : DirectMap Obj} {key : Key} {object : Obj}

theorem Sound.empty_mem_iff (h : Sound map) :
    Slot.empty ∈ map.entries ↔ map.count+map.removed < map.size := by
  rw [h.counted.empty_mem_iff,h.length_eq]

theorem home_eq_of_isMatch {e : MapEntry Obj} (h : isMatch f key e = true) :
    home e = (f.hash key).toNat := by
  have heq : e.hash = f.hash key := by
    simp only [isMatch,Bool.and_eq_true,beq_iff_eq] at h
    exact h.1
  rw [home,heq]

theorem Sound.reusable (h : Sound map)
    (hknown : ∃ e, Slot.live e ∈ map.entries ∧ isMatch f key e = true) : Reusable f map key := by
  obtain ⟨e,he,hmatch⟩ := hknown
  obtain ⟨q,hq⟩ := List.mem_iff_getElem?.mp he
  obtain ⟨i,hi,rfl,hbefore⟩ := h.counted.reach.reach q e hq
  rw [home_eq_of_isMatch hmatch] at hq hbefore
  exact ⟨i,hi,hbefore,.inr ⟨e,hq,hmatch⟩⟩

theorem Sound.reusable_iff (h : Sound map) (hremoved : map.removed = 0) : Reusable f map key ↔
    ∃ e, Slot.live e ∈ map.entries ∧ isMatch f key e = true := by
  refine ⟨?_,h.reusable⟩
  rintro ⟨i,-,-,hrem | ⟨e,he,hmatch⟩⟩
  · have := countP_pos Slot.isRemoved hrem rfl
    rw [h.counted.removed_eq] at this
    omega
  · exact ⟨e,List.mem_of_getElem? he,hmatch⟩

section Insert

variable [DecidableEq Obj]

/-- What an insertion comes to: the map is left alone, a tombstone is taken, or an empty slot is. -/
inductive Stored (f : MapFuncs Key Obj) (map : DirectMap Obj) (key : Key) (t : DirectMap Obj) : Prop
  | known : t = map → Reusable f map key → Stored f map key t
  | reused : t.size = map.size → t.count+t.removed = map.count+map.removed →
    Reusable f map key → Stored f map key t
  | added : t.size = map.size → t.count = map.count+1 → t.removed = map.removed →
    ¬ Reusable f map key → Stored f map key t

variable {r : DirectResult} {n : ℕ}

theorem Sound.store (h : Sound map) (hle : map.size ≤ intMax+1)
    (hstore : map.store f key object = some (r,t)) : Sound t ∧ Stored f map key t := by
  obtain ⟨q,hwalk,-⟩ := Option.map_eq_some_iff.mp hstore
  have hq := (walk_eq_find h.length_eq hle _ _).symm.trans hwalk
  obtain ⟨i,hi,rfl,⟨s,hs,hstop⟩,hbefore⟩ := find_eq_some.mp hq
  have hfull (j : ℕ) (hj : j < i) :
      map.entries[((f.hash key).toNat+j)%map.entries.length]? ≠ some .empty := by
    intro he
    have := hbefore j hj _ he
    cases this
  cases s with
  | live e =>
    obtain rfl : map = t := by
      simp only [DirectMap.store,hwalk,hs,Option.map_some,Option.some.injEq,Prod.mk.injEq] at hstore
      exact hstore.2
    exact ⟨h,.known rfl ⟨i,hi,hfull,.inr ⟨e,hs,hstop⟩⟩⟩
  | removed =>
    have hpos := countP_pos Slot.isRemoved hs rfl
    rw [h.counted.removed_eq] at hpos
    rw [store_free hwalk (.inr hs)] at hstore
    cases hstore
    refine ⟨⟨by simpa using h.length_eq,?_⟩,.reused rfl ?_ ⟨i,hi,hfull,.inl hs⟩⟩
    · simpa [hs] using @Counted.refill _ home _ _ _ _ ⟨f.hash key,object⟩ _ h.counted hq hs
    · simp [hs]
      omega
  | empty =>
    rw [store_free hwalk (.inl hs)] at hstore
    cases hstore
    refine ⟨⟨by simpa using h.length_eq,?_⟩,.added rfl rfl (by simp [hs]) ?_⟩
    · simpa [hs] using @Counted.fill _ home _ _ _ _ ⟨f.hash key,object⟩ _ h.counted hq hs
    · rintro ⟨k,-,hk,hkstop⟩
      rcases Nat.lt_trichotomy k i with hlt | rfl | hgt
      · rcases hkstop with hrem | ⟨e,he,hmatch⟩
        · have := hbefore k hlt _ hrem
          cases this
        · have := hbefore k hlt _ he
          simp [Slot.stopsInsert,hmatch] at this
      · rw [hs] at hkstop
        simp at hkstop
      · exact hk i hgt hs

/-- An insertion into an array that is not made larger. -/
theorem Sound.store_ends (h : Sound map) (hle : map.size ≤ intMax+1) :
    (∃ r t, map.store f key object = some (r,t) ∧ Probeable t) ↔ Slot.empty ∈ map.entries ∧
      (map.count+map.removed+1 < map.size ∨ Reusable f map key) := by
  constructor
  · rintro ⟨r,t,hstore,hsize,hempty⟩
    obtain ⟨ht,hstored⟩ := h.store hle hstore
    rw [ht.empty_mem_iff] at hempty
    rw [h.empty_mem_iff]
    cases hstored with
    | known heq hreuse =>
      subst heq
      exact ⟨hempty,.inr hreuse⟩
    | reused hs hsum hreuse => exact ⟨by omega,.inr hreuse⟩
    | added hs hcount hrem _ => exact ⟨by omega,.inl (by omega)⟩
  · rintro ⟨hempty,hroom⟩
    obtain ⟨q,hq⟩ := find_isSome (Slot.stopsInsert (isMatch f key)) (f.hash key).toNat hempty rfl
    have hwalk := (walk_eq_find h.length_eq hle _ _).trans hq
    obtain ⟨r,t,hstore⟩ : ∃ r t, map.store f key object = some (r,t) := by
      rw [DirectMap.store,hwalk]
      exact ⟨_,_,rfl⟩
    obtain ⟨ht,hstored⟩ := h.store hle hstore
    rw [h.empty_mem_iff] at hempty
    refine ⟨r,t,hstore,?_⟩
    cases hstored with
    | known heq _ =>
      subst heq
      exact ⟨hle,h.empty_mem_iff.mpr hempty⟩
    | reused hs hsum _ => exact ⟨by omega,ht.empty_mem_iff.mpr (by omega)⟩
    | added hs hcount hrem hno =>
      have := hroom.resolve_right hno
      exact ⟨by omega,ht.empty_mem_iff.mpr (by omega)⟩

omit [DecidableEq Obj] in
theorem Sound.resizeMap (h : Sound map)
    (ht : map.resizeMap n true = some (r,t)) : Sound t ∧ t.size = n ∧ t.count = map.count ∧
      t.removed = 0 ∧ ∀ e, Slot.live e ∈ t.entries ↔ Slot.live e ∈ map.entries := by
  obtain ⟨entries,he,heq⟩ := Option.map_eq_some_iff.mp ht
  cases heq
  obtain ⟨hcounted,hlen,hmem⟩ := h.counted.rehash he
  exact ⟨⟨hlen,hcounted⟩,rfl,rfl,rfl,hmem⟩

omit [DecidableEq Obj] in
theorem Sound.resizeMap_isSome (h : Sound map) (hle : map.count ≤ n) :
    ∃ t, map.resizeMap n true = some (.ok,t) := by
  obtain ⟨entries,he⟩ := (h.counted.rehash_iff (n := n)).mpr hle
  exact ⟨_,by rw [DirectMap.resizeMap,if_pos rfl,he]; rfl⟩

theorem store_size (hstore : map.store f key object = some (r,t)) :
    t.size = map.size := by
  obtain ⟨q,-,hq⟩ := Option.map_eq_some_iff.mp hstore
  split at hq <;> cases hq <;> rfl

theorem Sound.resize_store_ends (h : Sound map) : (∃ r t,
      (map.resizeMap n true).bind (fun u => u.2.store f key object) = some (r,t) ∧ Probeable t) ↔
    n ≤ intMax+1 ∧ map.count < n ∧ (map.count+1 < n ∨
      ∃ e, Slot.live e ∈ map.entries ∧ isMatch f key e = true) := by
  constructor
  · rintro ⟨r,t,hstore,hprobe⟩
    obtain ⟨⟨r',u⟩,hu,hstore⟩ := Option.bind_eq_some_iff.mp hstore
    obtain ⟨hsound,hsize,hcount,hrem,hsame⟩ := h.resizeMap hu
    have hn : n ≤ intMax+1 := by
      have := hprobe.size_le
      rwa [store_size hstore,hsize] at this
    obtain ⟨hempty,hroom⟩ := (hsound.store_ends (hsize.trans_le hn)).mp ⟨r,t,hstore,hprobe⟩
    rw [hsound.empty_mem_iff] at hempty
    rw [hsound.reusable_iff hrem] at hroom
    refine ⟨hn,by omega,hroom.imp (fun hroom => by omega) fun ⟨e,he,hmatch⟩ => ?_⟩
    exact ⟨e,(hsame e).mp he,hmatch⟩
  · rintro ⟨hn,hlt,hroom⟩
    obtain ⟨u,hu⟩ := h.resizeMap_isSome hlt.le
    obtain ⟨hsound,hsize,hcount,hrem,hsame⟩ := h.resizeMap hu
    rw [hu]
    refine (hsound.store_ends (hsize.trans_le hn)).mpr ⟨hsound.empty_mem_iff.mpr (by omega),?_⟩
    rw [hsound.reusable_iff hrem]
    refine hroom.imp (fun hroom => by omega) fun ⟨e,he,hmatch⟩ => ⟨e,(hsame e).mpr he,hmatch⟩

/-- An insertion ends and leaves an empty slot just where it fits. -/
theorem Sound.insert_ends (h : Sound map) (hsize : 2 ≤ map.size) (hprobe : Probeable map)
    (mem : Bool) : (∃ r t, map.insert f key object mem = some (r,t) ∧ Probeable t) ↔
      Fits f map (.insert key object mem) := by
  have hroom := h.empty_mem_iff.mp hprobe.empty_mem
  rw [DirectMap.insert]
  split_ifs with hcrowded
  · cases mem with
    | true =>
      refine h.resize_store_ends.trans ?_
      exact ⟨fun hc _ => hc,fun hfits => hfits hcrowded⟩
    | false =>
      have hstore : (∃ r t, (map.resizeMap map.grownSize false).bind
          (fun u => u.2.store f key object) = some (r,t) ∧ Probeable t) ↔ _ :=
        h.store_ends hprobe.size_le
      refine hstore.trans ⟨fun hc _ => hc.2,fun hfits => ⟨hprobe.empty_mem,hfits hcrowded⟩⟩
  · have hfits : Fits f map (.insert key object mem) := by
      cases mem <;> exact fun hc => absurd hc hcrowded
    refine iff_of_true ((h.store_ends hprobe.size_le).mpr ⟨hprobe.empty_mem,.inl ?_⟩) hfits
    simp only [crowded,decide_eq_true_eq] at hcrowded
    omega

omit [DecidableEq Obj] in
theorem Sound.pos_of_reusable (h : Sound map) (hreuse : Reusable f map key) :
    0 < map.count+map.removed := by
  rw [← h.counted.count_eq,← h.counted.removed_eq]
  obtain ⟨i,-,-,hrem | ⟨e,he,-⟩⟩ := hreuse
  · have := countP_pos Slot.isRemoved hrem rfl
    omega
  · have := countP_pos Slot.isLive he rfl
    omega

theorem Sound.store_pos (h : Sound map) (hle : map.size ≤ intMax+1)
    (hstore : map.store f key object = some (r,t)) : Sound t ∧ 0 < t.count+t.removed := by
  obtain ⟨ht,hstored⟩ := h.store hle hstore
  refine ⟨ht,?_⟩
  cases hstored with
  | known heq hreuse =>
    subst heq
    exact h.pos_of_reusable hreuse
  | reused _ hsum hreuse => exact hsum ▸ h.pos_of_reusable hreuse
  | added _ hcount _ _ => omega

/-- What an insertion leaves is sound, and has a second slot besides the empty one. -/
theorem Sound.insert (h : Sound map) (hprobe : Probeable map) {mem : Bool}
    (hinsert : map.insert f key object mem = some (r,t)) (ht : Probeable t) :
    Sound t ∧ 2 ≤ t.size := by
  have hpos : Sound t ∧ 0 < t.count+t.removed := by
    rw [DirectMap.insert] at hinsert
    split_ifs at hinsert with hcrowded
    · obtain ⟨⟨r',u⟩,hu,hstore⟩ := Option.bind_eq_some_iff.mp hinsert
      have hle := ht.size_le
      rw [store_size hstore] at hle
      cases mem with
      | true => exact (h.resizeMap hu).1.store_pos hle hstore
      | false =>
        cases hu
        exact h.store_pos hle hstore
    · exact h.store_pos hprobe.size_le hinsert
  have hroom := hpos.1.empty_mem_iff.mp ht.empty_mem
  exact ⟨hpos.1,by omega⟩

end Insert

/-- A slot that is marked as removed. -/
theorem Sound.mark (h : Sound map) (hprobe : Probeable map) {pos : ℕ} {e : MapEntry Obj}
    (hlive : map.entries[pos]? = some (.live e)) :
    Sound ⟨map.size,map.count-1,map.removed+1,map.entries.set pos .removed⟩ ∧
    Probeable ⟨map.size,map.count-1,map.removed+1,map.entries.set pos .removed⟩ := by
  have hsound : Sound ⟨map.size,map.count-1,map.removed+1,map.entries.set pos .removed⟩ :=
    ⟨by simpa using h.length_eq,h.counted.mark hlive⟩
  have hcount := countP_pos Slot.isLive hlive rfl
  rw [h.counted.count_eq] at hcount
  have hroom := h.empty_mem_iff.mp hprobe.empty_mem
  refine ⟨hsound,hprobe.size_le,hsound.empty_mem_iff.mpr ?_⟩
  dsimp only
  omega

theorem Sound.locateEntry (h : Sound map) (hprobe : Probeable map) (f : MapFuncs Key Obj)
    (key : Key) : ∃ pos, map.locateEntry f key = some pos ∧
      ∀ p ∈ pos, ∃ e, map.entries[p]? = some (.live e) := by
  obtain ⟨q,hq⟩ := find_isSome (Slot.stopsLookup (isMatch f key)) (f.hash key).toNat
    hprobe.empty_mem rfl
  have hwalk := (walk_eq_find h.length_eq hprobe.size_le _ _).trans hq
  refine ⟨_,by rw [DirectMap.locateEntry,hwalk]; rfl,fun p hp => ?_⟩
  simp only [Option.mem_def,Option.ite_none_right_eq_some,Option.some.injEq] at hp
  obtain ⟨hlive,rfl⟩ := hp
  obtain ⟨s,hs,hl⟩ := (Option.any_eq_true _ _).mp hlive
  cases s with
  | live e => exact ⟨e,hs⟩
  | empty => cases hl
  | removed => cases hl

theorem Sound.remove (h : Sound map) (hprobe : Probeable map) (f : MapFuncs Key Obj) (key : Key) :
    ∃ r t, map.remove f key = some (r,t) ∧ Sound t ∧ Probeable t ∧ t.size = map.size := by
  obtain ⟨pos,hpos,hlive⟩ := h.locateEntry hprobe f key
  cases pos with
  | none => exact ⟨.itemNotFound,map,by simp [DirectMap.remove,hpos],h,hprobe,rfl⟩
  | some pos =>
    obtain ⟨e,he⟩ := hlive pos rfl
    obtain ⟨hsound,hleft⟩ := h.mark hprobe he
    exact ⟨.ok,_,by simp [DirectMap.remove,hpos],hsound,hleft,rfl⟩

theorem Sound.iterateFrom (answer : List Obj → Obj → DirectEnumerationResult) (n i : ℕ)
    (ctx : List Obj × List Obj) (h : Sound map) (hprobe : Probeable map) :
    Sound (iterateFrom (watch answer) n i map ctx).1 ∧
    Probeable (iterateFrom (watch answer) n i map ctx).1 ∧
    (iterateFrom (watch answer) n i map ctx).1.size = map.size := by
  induction n generalizing i map ctx with
  | zero => exact ⟨h,hprobe,rfl⟩
  | succ n ih =>
    rw [DirectMap.iterateFrom]
    cases hi : map.entries[i]? with
    | none => exact ih _ _ h hprobe
    | some slot =>
      cases slot with
      | empty => exact ih _ _ h hprobe
      | removed => exact ih _ _ h hprobe
      | live e =>
        cases ha : answer ctx.1 e.object with
        | ok => simpa [watch,ha] using ih (i+1) (e.object::ctx.1,ctx.2) h hprobe
        | cancel => simpa [watch,ha] using ⟨h,hprobe⟩
        | remove =>
          obtain ⟨hsound,hleft⟩ := h.mark hprobe hi
          simpa [watch,ha] using ih (i+1) (e.object::ctx.1,e.object::ctx.2) hsound hleft

section Runs

variable [DecidableEq Obj]

structure Kept (map : DirectMap Obj) : Prop where
  sound : Sound map
  size_ge : 2 ≤ map.size
  probeable : Probeable map

/-- A call ends and leaves an empty slot just where it fits. -/
theorem Kept.ends_iff (h : Kept map) (e : Event Key Obj) : Ends f map e ↔ Fits f map e := by
  obtain ⟨hsound,hsize,hprobe⟩ := h
  cases e with
  | insert key object mem =>
    rw [← hsound.insert_ends hsize hprobe]
    constructor
    · rintro ⟨t,ht,hleft⟩
      obtain ⟨⟨r,t'⟩,hinsert,rfl⟩ := Option.map_eq_some_iff.mp ht
      exact ⟨r,t',hinsert,hleft⟩
    · rintro ⟨r,t,ht,hleft⟩
      exact ⟨t,by simp [step,ht],hleft⟩
  | remove key =>
    obtain ⟨r,t,ht,-,hleft,-⟩ := hsound.remove hprobe f key
    exact iff_of_true ⟨t,by simp [step,ht],hleft⟩ trivial
  | lookup key =>
    obtain ⟨pos,hpos,-⟩ := hsound.locateEntry hprobe f key
    exact iff_of_true ⟨map,by simp [step,DirectMap.lookup,hpos],hprobe⟩ trivial
  | iterate answer =>
    exact iff_of_true ⟨_,rfl,(hsound.iterateFrom answer _ _ _ hprobe).2.1⟩ trivial

theorem Kept.step (h : Kept map) {e : Event Key Obj} (ht : step f map e = some t)
    (hleft : Probeable t) : Kept t := by
  obtain ⟨hsound,hsize,hprobe⟩ := h
  cases e with
  | insert key object mem =>
    obtain ⟨⟨r,t'⟩,hinsert,rfl⟩ := Option.map_eq_some_iff.mp ht
    obtain ⟨hs,hn⟩ := hsound.insert hprobe hinsert hleft
    exact ⟨hs,hn,hleft⟩
  | remove key =>
    obtain ⟨r,t',hremove,hs,-,hn⟩ := hsound.remove hprobe f key
    rw [Probes.step,hremove] at ht
    obtain rfl := Option.some.inj ht
    exact ⟨hs,hn ▸ hsize,hleft⟩
  | lookup key =>
    obtain ⟨v,-,rfl⟩ := Option.map_eq_some_iff.mp ht
    exact ⟨hsound,hsize,hprobe⟩
  | iterate answer =>
    obtain rfl := Option.some.inj ht
    obtain ⟨hs,-,hn⟩ := hsound.iterateFrom answer map.size 0 ([],[]) hprobe
    exact ⟨hs,hn.symm ▸ hsize,hleft⟩

omit [DecidableEq Obj] in
theorem kept_create {initialSize : UInt32} (h : initialSize.toNat ≤ intMax+1) :
    Kept (create initialSize : DirectMap Obj) := by
  have hsize : 3 ≤ (DirectMap.create initialSize : DirectMap Obj).size ∧
      (DirectMap.create initialSize : DirectMap Obj).size ≤ intMax+1 := by
    simp only [DirectMap.create]
    split_ifs with hlt
    · simp [intMax]
    · rw [UInt32.lt_iff_toNat_lt] at hlt
      exact ⟨by simpa using hlt,h⟩
  have hsound : Sound (DirectMap.create initialSize : DirectMap Obj) :=
    ⟨by simp [DirectMap.create],.replicate home _⟩
  refine ⟨hsound,by omega,hsize.2,hsound.empty_mem_iff.mpr ?_⟩
  exact lt_of_lt_of_le (by decide : 0+0 < 3) hsize.1

theorem reaches_kept {initialSize : UInt32} (hsize : initialSize.toNat ≤ intMax+1)
    (h : Reaches (Probes.step f) (Fits f) (fun s => s = create initialSize) map) : Kept map := by
  refine h.invariant Kept ?_ ?_
  · rintro _ rfl
    exact kept_create hsize
  · rintro s e t hs hfits ht
    obtain ⟨t',ht',hleft⟩ := (hs.ends_iff e).mpr hfits
    obtain rfl : t = t' := Option.some.inj (ht.symm.trans ht')
    exact hs.step ht hleft

/-- In runs whose insertions all fit, the hash and the map have an empty slot, and a call's walks
end and leave one just where it fits again. -/
theorem probes_end :
    (∀ (V : Type*) (size : ℤ) (hash : DirectHash V), Reaches DirectHash.Probes.step
        DirectHash.Probes.Fits (fun s => s = DirectHash.init size) hash →
      Slot.empty ∈ hash.table ∧
        ∀ e, DirectHash.Probes.Ends hash e ↔ DirectHash.Probes.Fits hash e) ∧
    ∀ (f : MapFuncs Key Obj) (initialSize : UInt32), initialSize.toNat ≤ intMax+1 →
      ∀ map, Reaches (Probes.step f) (Fits f) (fun s => s = create initialSize) map →
        Slot.empty ∈ map.entries ∧ ∀ e, Ends f map e ↔ Fits f map e := by
  refine ⟨fun V size hash h => ?_,fun f initialSize hsize map h => ?_⟩
  · obtain ⟨hsound,hempty⟩ := DirectHash.Probes.reaches_sound h
    exact ⟨hempty,hsound.ends_iff hempty⟩
  · have hkept := reaches_kept hsize h
    exact ⟨hkept.probeable.empty_mem,hkept.ends_iff⟩

/-- One element was inserted into each. -/
theorem probes_end_inserted :
    (∃ hash : DirectHash Bool, hash.count = 1 ∧ Slot.empty ∈ hash.table ∧
      ∀ e, DirectHash.Probes.Ends hash e ↔ DirectHash.Probes.Fits hash e) ∧
    ∃ map : DirectMap (ℕ × ℕ), map.count = 1 ∧ Slot.empty ∈ map.entries ∧
      ∀ e, Ends numbered map e ↔ Fits numbered map e := by
  obtain ⟨hhash,hmap⟩ := @probes_end ℕ (ℕ × ℕ) _
  have hr := hhash Bool 0 _ (.step (.insert 5 true true) (.init rfl)
    (fun h => absurd h (by decide)) rfl)
  have hr' := hmap numbered 37 (by decide) _ (.step (.insert 0 (0,0) true) (.init rfl)
    (fun h => absurd h (by decide)) rfl)
  exact ⟨⟨_,rfl,hr.1,hr.2⟩,_,rfl,hr'.1,hr'.2⟩

/-- Without memory to grow, a map of three slots is filled up, and a lookup does not end. -/
theorem probes_fill_up : ¬ ∀ (f : MapFuncs ℕ (ℕ × ℕ)) (initialSize : UInt32)
    (map : DirectMap (ℕ × ℕ)),
      Reaches (Probes.step f) (fun _ _ => True) (fun s => s = create initialSize) map →
        Slot.empty ∈ map.entries ∧ ∀ e, ∃ t, Probes.step f map e = some t := by
  intro h
  have hr : Reaches (Probes.step numbered) (fun _ _ => True) (fun s => s = create 3)
      ⟨3,3,0,[.live ⟨0,(0,0)⟩,.live ⟨1,(1,1)⟩,.live ⟨2,(2,2)⟩]⟩ :=
    Reaches.exec (.init rfl) (fun _ _ => trivial)
      (rfl : exec (Probes.step numbered) (create 3) [.insert 0 (0,0) true,.insert 1 (1,1) false,
        .insert 2 (2,2) false] = some ⟨3,3,0,[.live ⟨0,(0,0)⟩,.live ⟨1,(1,1)⟩,.live ⟨2,(2,2)⟩]⟩)
  have hempty := (h numbered 3 _ hr).1
  revert hempty
  decide

end Runs

end DirectFB.DirectMap.Probes
