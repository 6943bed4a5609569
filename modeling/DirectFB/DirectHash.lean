import DirectFB.Reaches
import DirectFB.Probing
import DirectFB.Types

/-! The hash table of libdirect: linear probing over a lazily allocated array,
where a removed element leaves a marker behind. -/
namespace DirectFB
open Function (update update_eq_self)
open Probing Transition

structure DirectHashElement (V : Type*) where
  key : UInt64
  value : V
  deriving DecidableEq

structure DirectHash (V : Type*) where
  size : ℕ
  count : ℕ
  removed : ℕ
  elements : Option (List (Slot (DirectHashElement V)))
  deriving DecidableEq

namespace DirectHash

def primes : List ℕ :=
  [11,19,37,73,109,163,251,367,557,823,1237,1861,2777,4177,6247,9371,14057,21089,31627,47431,
    71143,106721,160073,240101,360163,540217,810343,1215497,1823231,2734867,4102283,6153409,
    9230113,13845163]

def minSize : ℕ := 11
def maxSize : ℕ := 13845163

/-- The first prime above `num`, or the last one of the table. -/
def spacedPrimesClosest (num : ℕ) : ℕ := (primes.find? fun p => num < p).getD (primes.getLastD 0)

variable {V : Type*}

def home (e : DirectHashElement V) : ℕ := e.key.toNat
def hasKey (key : UInt64) (e : DirectHashElement V) : Bool := e.key == key

/-- `direct_hash_init` on zeroed memory. -/
def init (size : ℤ) : DirectHash V where
  size := if size < minSize then minSize else size.toNat
  count := 0
  removed := 0
  elements := none

def table (hash : DirectHash V) : List (Slot (DirectHashElement V)) :=
  hash.elements.getD (List.replicate hash.size .empty)

@[simp] theorem table_some (size count removed : ℕ) (elements : List (Slot (DirectHashElement V))) :
    table ⟨size,count,removed,some elements⟩ = elements := rfl

/-- `none` inside for the position -1. -/
def locateKey (elements : List (Slot (DirectHashElement V))) (key : UInt64) : Option (Option ℕ) :=
  (find elements (Slot.stopsLookup (hasKey key)) key.toNat).map fun pos =>
    if (elements[pos]?).any Slot.isLive then some pos else none

def crowded (hash : DirectHash V) : Bool := hash.size/2 < hash.count+hash.removed

def grownSize (hash : DirectHash V) : ℕ :=
  let size := spacedPrimesClosest hash.size
  let size := if size > maxSize then maxSize else size
  if size < minSize then minSize else size

def grow (hash : DirectHash V) : Option (DirectHash V) :=
  (rehash home hash.table (List.replicate hash.grownSize .empty)).map fun elements =>
    ⟨hash.grownSize,hash.count,0,some elements⟩

/-- The walk of an insertion over an array that is large enough. -/
def store (hash : DirectHash V) (key : UInt64) (value : V) : Option (DirectResult × DirectHash V) :=
  (find hash.table (Slot.stopsInsert (hasKey key)) key.toNat).map fun pos =>
    match hash.table[pos]? with
    | some (Slot.live _) => (.bug,hash)
    | slot =>
      (.ok,⟨hash.size,hash.count+1,if slot.any Slot.isRemoved then hash.removed-1 else hash.removed,
        some (hash.table.set pos (.live ⟨key,value⟩))⟩)

/-- `mem` tells whether memory is available to the call, which asks for it once
at most: the array is empty when it is new. -/
def insert (hash : DirectHash V) (key : UInt64) (value : V) (mem : Bool) :
    Option (DirectResult × DirectHash V) :=
  if hash.elements = none ∧ mem = false then some (.noLocalMemory,hash)
  else
    let hash := {hash with elements := some hash.table}
    if hash.crowded then
      if mem then hash.grow.bind fun hash => hash.store key value
      else some (.noLocalMemory,hash)
    else hash.store key value

def remove (hash : DirectHash V) (key : UInt64) : Option (DirectResult × DirectHash V) :=
  match hash.elements with
  | none => some (.bufferEmpty,hash)
  | some elements =>
    (locateKey elements key).map fun
    | none => (.itemNotFound,hash)
    | some pos =>
      (.ok,⟨hash.size,hash.count-1,hash.removed+1,some (elements.set pos .removed)⟩)

/-- NULL is `none` inside. -/
def lookup (hash : DirectHash V) (key : UInt64) : Option (Option V) :=
  match hash.elements with
  | none => some none
  | some elements =>
    (locateKey elements key).map fun pos => pos.bind fun pos =>
      (elements[pos]?).bind fun slot => slot.entry?.map DirectHashElement.value

theorem consistent : Consistent UInt64.toNat (home : DirectHashElement V → ℕ) hasKey where
  home_eq k a h := by
    obtain rfl : a.key = k := by simpa [hasKey] using h
    rfl
  same_key k k' a h h' b := by
    obtain rfl : a.key = k := by simpa [hasKey] using h
    obtain rfl : a.key = k' := by simpa [hasKey] using h'
    rfl

theorem spacedPrimesClosest_gt {num : ℕ} (h : num < maxSize) : num < spacedPrimesClosest num := by
  cases hp : primes.find? fun p => num < p with
  | none =>
    have := List.find?_eq_none.mp hp maxSize (by decide)
    simp [h] at this
  | some p => simpa [spacedPrimesClosest,hp] using List.find?_some hp

theorem spacedPrimesClosest_mem (num : ℕ) : spacedPrimesClosest num ∈ primes := by
  cases hp : primes.find? fun p => num < p with
  | none => rw [spacedPrimesClosest,hp]; decide
  | some p => simpa [spacedPrimesClosest,hp] using List.mem_of_find?_eq_some hp

theorem spacedPrimesClosest_of_ge {num : ℕ} (h : maxSize ≤ num) :
    spacedPrimesClosest num = maxSize := by
  have hle : ∀ p ∈ primes, p ≤ maxSize := by decide
  have hp : (primes.find? fun p => num < p) = none :=
    List.find?_eq_none.mpr fun p hp => by simpa using (hle p hp).trans h
  rw [spacedPrimesClosest,hp]
  rfl

theorem grownSize_eq (hash : DirectHash V) : hash.grownSize = spacedPrimesClosest hash.size := by
  have hb : ∀ p ∈ primes, minSize ≤ p ∧ p ≤ maxSize := by decide
  have := hb _ (spacedPrimesClosest_mem hash.size)
  simp only [grownSize]
  split_ifs <;> omega

structure Inv (hash : DirectHash V) (spec : UInt64 → Option V) : Prop where
  length_eq : hash.table.length = hash.size
  size_ge : minSize ≤ hash.size
  stores : Stores home hasKey DirectHashElement.value hash.table spec
  count_eq : hash.table.countP Slot.isLive = hash.count
  removed_eq : hash.table.countP Slot.isRemoved = hash.removed
  room : hash.count+hash.removed < hash.size

variable {hash : DirectHash V} {spec : UInt64 → Option V}

theorem Inv.init (size : ℤ) : Inv (init size : DirectHash V) fun _ => none where
  length_eq := by simp [table,DirectHash.init]
  size_ge := by
    simp only [DirectHash.init]
    split_ifs <;> omega
  stores := Stores.replicate_empty home hasKey _ _
  count_eq := by simp [table,DirectHash.init,List.countP_replicate]
  removed_eq := by simp [table,DirectHash.init,List.countP_replicate]
  room := by
    simp only [DirectHash.init]
    split_ifs <;> simp only [minSize] at * <;> omega

theorem Inv.allocated (h : Inv hash spec) : Inv {hash with elements := some hash.table} spec :=
  ⟨h.length_eq,h.size_ge,h.stores,h.count_eq,h.removed_eq,h.room⟩

theorem Inv.empty_mem (h : Inv hash spec) : Slot.empty ∈ hash.table :=
  Probing.empty_mem (by rw [h.count_eq,h.removed_eq,h.length_eq]; exact h.room)

theorem Inv.locateKey (h : Inv hash spec) (key : UInt64) :
    (spec key = none ∧ locateKey hash.table key = some none) ∨
      ∃ q a, locateKey hash.table key = some (some q) ∧ hash.table[q]? = some (.live a) ∧
        hasKey key a = true ∧ spec key = some a.value := by
  obtain ⟨q,hq,⟨a,ha,hm,hv⟩ | ⟨he,hnone⟩⟩ := h.stores.lookup consistent h.empty_mem key
  · exact .inr ⟨q,a,by simp [DirectHash.locateKey,hq,ha],ha,hm,hv⟩
  · exact .inl ⟨hnone,by simp [DirectHash.locateKey,hq,he]⟩

theorem Inv.spec_eq_none (h : Inv hash spec) (he : hash.elements = none) : spec = fun _ => none := by
  funext key
  refine (h.stores.none_iff key).mpr fun a ha => ?_
  simp [table,he,List.mem_replicate] at ha

theorem table_of_some {elements : List (Slot (DirectHashElement V))}
    (he : hash.elements = some elements) : hash.table = elements := by
  simp [table,he]

theorem Inv.lookup (h : Inv hash spec) (key : UInt64) : hash.lookup key = some (spec key) := by
  cases he : hash.elements with
  | none => simp [DirectHash.lookup,he,h.spec_eq_none he]
  | some elements =>
    rcases h.locateKey key with ⟨hnone,hl⟩ | ⟨q,a,hl,hq,-,hv⟩
    · simp [DirectHash.lookup,he,← table_of_some he,hl,hnone]
    · simp [DirectHash.lookup,he,← table_of_some he,hl,hq,hv,Slot.entry?]

theorem ite_hasKey {key : UInt64} {a : DirectHashElement V} (h : hasKey key a = true)
    (v : Option V) (spec : UInt64 → Option V) :
    (fun k => if hasKey k a then v else spec k) = update spec key v := by
  funext k
  obtain rfl : a.key = key := by simpa [hasKey] using h
  by_cases hk : k = a.key
  · simp [hasKey,hk]
  · simp [hasKey,hk,Ne.symm hk]

/-- A removal answers whether the key was there and takes it out. -/
theorem Inv.remove (h : Inv hash spec) (key : UInt64) :
    ∃ r t, hash.remove key = some (r,t) ∧ (r = .ok ↔ spec key ≠ none) ∧
      Inv t (update spec key none) := by
  have hsame (hk : spec key = none) : update spec key none = spec := by
    rw [← hk,update_eq_self]
  cases he : hash.elements with
  | none =>
    have hk : spec key = none := by rw [h.spec_eq_none he]
    exact ⟨.bufferEmpty,hash,by simp [DirectHash.remove,he],by simp [hk],by rwa [hsame hk]⟩
  | some elements =>
    rcases h.locateKey key with ⟨hnone,hl⟩ | ⟨q,a,hl,hq,hm,hv⟩
    · rw [table_of_some he] at hl
      exact ⟨.itemNotFound,hash,by simp [DirectHash.remove,he,hl],by simp [hnone],
        by rwa [hsame hnone]⟩
    · refine ⟨.ok,⟨hash.size,hash.count-1,hash.removed+1,some (hash.table.set q .removed)⟩,?_,
        by simp [hv],?_⟩
      · rw [table_of_some he] at hl ⊢
        simp [DirectHash.remove,he,hl]
      · have hpos := countP_pos Slot.isLive hq rfl
        rw [h.count_eq] at hpos
        have hroom := h.room
        have hstores := h.stores.remove hq hm
        rw [ite_hasKey hm] at hstores
        exact ⟨by simpa using h.length_eq,h.size_ge,hstores,
          by simp [countP_set hq,h.count_eq],
          by simp [countP_set hq,h.removed_eq],
          by simp only []; omega⟩

/-- The number of elements is the number of keys that the map has. -/
theorem Inv.count_eq_ncard (h : Inv hash spec) : hash.count = {key | spec key ≠ none}.ncard := by
  have hnodup : ((entries hash.table).map DirectHashElement.key).Nodup := by
    refine List.pairwise_map.mpr (h.stores.table.pairwise_entries.imp fun {a b} hab heq => ?_)
    exact hab.1 ⟨a.key,by simp [hasKey],by simp [hasKey,heq]⟩
  have hset : {key | spec key ≠ none} =
      ((entries hash.table).map DirectHashElement.key).toFinset := by
    ext key
    simp only [Set.mem_ofPred_eq,Option.ne_none_iff_exists',h.stores.holds,List.coe_toFinset,
      List.mem_map,mem_entries,hasKey]
    constructor
    · rintro ⟨v,a,ha,hk,-⟩
      exact ⟨a,ha,by simpa using hk⟩
    · rintro ⟨a,ha,hk⟩
      exact ⟨a.value,a,ha,by simpa using hk,rfl⟩
  rw [hset,Set.ncard_coe_finset,List.toFinset_card_of_nodup hnodup,List.length_map,length_entries,
    h.count_eq]

theorem Inv.grow (h : Inv hash spec) (hroom : hash.count < hash.grownSize) :
    ∃ t, hash.grow = some t ∧ Inv t spec ∧ t.size = hash.grownSize ∧ t.count = hash.count ∧
      t.removed = 0 := by
  obtain ⟨elements,he,hstores,hlen,-,hlive,hrem⟩ :=
    h.stores.rehash hash.grownSize (by rw [h.count_eq]; omega)
  have hmin : minSize ≤ hash.grownSize := by
    simp only [grownSize]
    split_ifs <;> omega
  exact ⟨⟨hash.grownSize,hash.count,0,some elements⟩,by simp [DirectHash.grow,he],
    ⟨hlen,hmin,hstores,hlive.trans h.count_eq,hrem,hroom⟩,rfl,rfl,rfl⟩

theorem store_free {key : UInt64} {q : ℕ}
    (hq : find hash.table (Slot.stopsInsert (hasKey key)) key.toNat = some q)
    (hfree : hash.table[q]? = some .empty ∨ hash.table[q]? = some .removed) (value : V) :
    hash.store key value = some (.ok,⟨hash.size,hash.count+1,
      if (hash.table[q]?).any Slot.isRemoved then hash.removed-1 else hash.removed,
      some (hash.table.set q (.live ⟨key,value⟩))⟩) := by
  rcases hfree with hf | hf <;> simp [store,hq,hf]

/-- With nothing in the way, the walk of an insertion answers for the map. -/
theorem Inv.store (h : Inv hash spec) {key : UInt64} (value : V)
    (hclear : Clear hash.table (hasKey key) key.toNat)
    (hroom : spec key = none → hash.count+hash.removed+1 < hash.size) :
    (spec key = none ∧ ∃ t, hash.store key value = some (.ok,t) ∧
        Inv t (update spec key (some value))) ∨
      (spec key ≠ none ∧ hash.store key value = some (.bug,hash)) := by
  obtain ⟨q,hq⟩ := find_isSome (Slot.stopsInsert (hasKey key)) key.toNat h.empty_mem rfl
  rcases h.stores.insert_walk consistent hclear hq with ⟨a,ha,-,hv⟩ | ⟨hfree,hnone⟩
  · exact .inr ⟨by simp [hv],by simp [DirectHash.store,hq,ha]⟩
  · have hkey : hasKey key (⟨key,value⟩ : DirectHashElement V) = true := by simp [hasKey]
    have hstores := h.stores.insert consistent hkey hnone hq hfree
    rw [ite_hasKey hkey] at hstores
    have hr := hroom hnone
    refine .inl ⟨hnone,_,store_free hq hfree value,?_⟩
    rcases hfree with hf | hf
    · exact ⟨by simpa using h.length_eq,h.size_ge,hstores,
        by simp [countP_set hf,h.count_eq],
        by simp [hf,countP_set hf,h.removed_eq],
        by simp [hf]; omega⟩
    · have hpos := countP_pos Slot.isRemoved hf rfl
      rw [h.removed_eq] at hpos
      exact ⟨by simpa using h.length_eq,h.size_ge,hstores,
        by simp [countP_set hf,h.count_eq],
        by simp [hf,countP_set hf,h.removed_eq],
        by simp [hf]; omega⟩

def Permits (hash : DirectHash V) (key : UInt64) (mem : Bool) : Prop :=
  (hash.crowded = false → Clear hash.table (hasKey key) key.toNat) ∧
  (hash.crowded = true → mem = true → maxSize ≤ hash.size → hash.count < maxSize ∧
    ((∀ e, Slot.live e ∈ hash.table → e.key ≠ key) → hash.count+1 < maxSize))

/-- What an insertion answers and leaves behind. -/
inductive Inserted (spec : UInt64 → Option V) (key : UInt64) (value : V) (mem : Bool) :
    DirectResult → (UInt64 → Option V) → Prop
  | ok : spec key = none → Inserted spec key value mem .ok (update spec key (some value))
  | bug : spec key ≠ none → Inserted spec key value mem .bug spec
  | noLocalMemory : mem = false → Inserted spec key value mem .noLocalMemory spec

theorem Inv.insert (h : Inv hash spec) {key : UInt64} {mem : Bool} (hok : Permits hash key mem)
    (value : V) : ∃ r t spec', hash.insert key value mem = some (r,t) ∧
      Inserted spec key value mem r spec' ∧ Inv t spec' := by
  by_cases hnew : hash.elements = none ∧ mem = false
  · exact ⟨.noLocalMemory,hash,spec,by simp [DirectHash.insert,hnew],.noLocalMemory hnew.2,h⟩
  have hstored {u : DirectHash V} (hu : Inv u spec) (hclear : Clear u.table (hasKey key) key.toNat)
      (hroom : spec key = none → u.count+u.removed+1 < u.size) : ∃ r t spec',
      u.store key value = some (r,t) ∧ Inserted spec key value mem r spec' ∧ Inv t spec' := by
    rcases hu.store value hclear hroom with ⟨hnone,t,ht,hinv⟩ | ⟨hsome,ht⟩
    · exact ⟨.ok,t,_,ht,.ok hnone,hinv⟩
    · exact ⟨.bug,u,spec,ht,.bug hsome,hu⟩
  have hsize := h.size_ge
  have hroom := h.room
  simp only [DirectHash.insert,if_neg hnew]
  cases hc : ({hash with elements := some hash.table} : DirectHash V).crowded with
  | false =>
    simp only [Bool.false_eq_true,if_false]
    refine hstored h.allocated (hok.1 hc) fun _ => ?_
    simp only [crowded,decide_eq_false_iff_not,minSize] at hc hsize ⊢
    omega
  | true =>
    cases mem with
    | false => exact ⟨.noLocalMemory,_,spec,rfl,.noLocalMemory rfl,h.allocated⟩
    | true =>
      have hfit : hash.count < hash.grownSize ∧
          (spec key = none → hash.count+1 < hash.grownSize) := by
        rw [grownSize_eq]
        rcases Nat.lt_or_ge hash.size maxSize with hlt | hge
        · have := spacedPrimesClosest_gt hlt
          omega
        · rw [spacedPrimesClosest_of_ge hge]
          obtain ⟨hcount,habsent⟩ := hok.2 hc rfl hge
          refine ⟨hcount,fun hnone => habsent fun e he hk => ?_⟩
          have := (h.stores.none_iff key).mp hnone e he
          simp [hasKey,hk] at this
      obtain ⟨t,ht,hinv,htsize,htcount,htrem⟩ := h.allocated.grow hfit.1
      simp only [if_true,ht,Option.bind_some]
      refine hstored hinv (clear_of_no_removed (hinv.removed_eq.trans htrem) _) fun hnone => ?_
      have := hfit.2 hnone
      rw [htsize,htcount,htrem]
      exact this

/-- A hash together with what was last inserted under each key and not removed. -/
structure State (V : Type*) where
  hash : DirectHash V
  last : UInt64 → Option V

inductive Event (V : Type*)
  | insert (key : UInt64) (value : V) (mem : Bool)
  | remove (key : UInt64)
  | lookup (key : UInt64)

def step (s : State V) : Event V → Option (State V)
  | .insert key value mem => (s.hash.insert key value mem).map fun (r,hash) =>
      ⟨hash,if r = .ok then update s.last key (some value) else s.last⟩
  | .remove key => (s.hash.remove key).map fun (_,hash) => ⟨hash,update s.last key none⟩
  | .lookup key => (s.hash.lookup key).map fun _ => s

def Allows (s : State V) : Event V → Prop
  | .insert key _ mem => s.hash.Permits key mem
  | _ => True

theorem Inv.step {s : State V} (h : Inv s.hash s.last) {e : Event V} (hok : Allows s e) :
    ∃ t, step s e = some t ∧ Inv t.hash t.last := by
  cases e with
  | insert key value mem =>
    obtain ⟨r,t,spec',ht,hins,hinv⟩ := h.insert hok value
    refine ⟨_,by simp only [DirectHash.step,ht]; rfl,?_⟩
    cases hins <;> simpa using hinv
  | remove key =>
    obtain ⟨r,t,ht,-,hinv⟩ := h.remove key
    exact ⟨_,by simp only [DirectHash.step,ht]; rfl,hinv⟩
  | lookup key => exact ⟨s,by simp [DirectHash.step,h.lookup key],h⟩

theorem reaches_inv {size : ℤ} {s : State V}
    (hs : Reaches step Allows (fun s => s = ⟨init size,fun _ => none⟩) s) : Inv s.hash s.last := by
  refine hs.invariant (fun s => Inv s.hash s.last) ?_ ?_
  · rintro _ rfl
    exact Inv.init size
  · intro s e t hinv hok ht
    obtain ⟨u,hu,hinv'⟩ := hinv.step hok
    obtain rfl : u = t := by simpa [hu] using ht
    exact hinv'

/-- The hash refines a finite map, in runs whose insertions are all permitted. -/
theorem hash_refines_map {size : ℤ} {s : State V}
    (hs : Reaches step Allows (fun s => s = ⟨init size,fun _ => none⟩) s) :
    (∀ key value mem, s.last key ≠ none → s.hash.Permits key mem → ∃ r t,
      s.hash.insert key value mem = some (r,t) ∧ (r = .bug ∨ r = .noLocalMemory ∧ mem = false) ∧
      t.count = s.hash.count ∧ ∀ k, t.lookup k = s.hash.lookup k) ∧
    (∀ (q q' : ℕ) (a a' : DirectHashElement V), s.hash.table[q]? = some (.live a) →
      s.hash.table[q']? = some (.live a') → a.key = a'.key → q = q') ∧
    (∀ key, s.hash.lookup key = some (s.last key)) ∧
    s.hash.count = {key | s.last key ≠ none}.ncard ∧
    ∀ e, Allows s e → ∃ t, step s e = some t := by
  have h := reaches_inv hs
  refine ⟨?_,?_,h.lookup,h.count_eq_ncard,fun e hok => ?_⟩
  · intro key value mem hkey hok
    obtain ⟨r,t,spec',ht,hins,hinv⟩ := h.insert hok value
    cases hins with
    | ok hnone => contradiction
    | bug =>
      exact ⟨_,t,ht,.inl rfl,by rw [hinv.count_eq_ncard,h.count_eq_ncard],
        fun k => by rw [hinv.lookup,h.lookup]⟩
    | noLocalMemory hmem =>
      exact ⟨_,t,ht,.inr ⟨rfl,hmem⟩,by rw [hinv.count_eq_ncard,h.count_eq_ncard],
        fun k => by rw [hinv.lookup,h.lookup]⟩
  · intro q q' a a' ha ha' hkey
    exact h.stores.table.unique q q' a a' ha ha' ⟨a.key,by simp [hasKey],by simp [hasKey,hkey]⟩
  · obtain ⟨t,ht,-⟩ := h.step hok
    exact ⟨t,ht⟩

/-- Two keys of one slot, the first of which is taken out again before the other
comes back under its tombstone. -/
theorem hash_refines_map_collision : ∃ s : State ℕ, s.hash.lookup 11 = some (some 2) ∧
    s.hash.lookup 0 = some none ∧ s.hash.count = {key | s.last key ≠ none}.ncard := by
  have h := @hash_refines_map ℕ 11 _ (.step (.remove 0) (.step (.insert 11 2 true)
    (.step (.insert 0 1 true) (.init rfl)
      ⟨fun _ => clear_of_no_removed rfl _,fun h => absurd h (by decide)⟩ rfl)
      ⟨fun _ => clear_of_no_removed rfl _,fun h => absurd h (by decide)⟩ rfl) trivial rfl)
  exact ⟨_,h.2.2.1 11,h.2.2.1 0,h.2.2.2.1⟩

/-- An insertion stops at the tombstone of key 0 and stores key 11 twice. -/
theorem insert_duplicate : ∃ s : State ℕ,
    exec step ⟨init 11,fun _ => none⟩ [.insert 0 1 true,.insert 11 2 true,.remove 0] = some s ∧
    s.last 11 = some 2 ∧ ∃ t, s.hash.insert 11 3 true = some (.ok,t) ∧
      t.table[0]? = some (.live ⟨11,3⟩) ∧ t.table[1]? = some (.live ⟨11,2⟩) :=
  ⟨_,rfl,rfl,_,rfl,rfl,rfl⟩

end DirectHash
end DirectFB
