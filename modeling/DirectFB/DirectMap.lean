import DirectFB.Reaches
import DirectFB.Probing
import DirectFB.Types

/-! The map of libdirect: linear probing by stored hashes, for objects which are
compared with keys by the user of the map. -/
namespace DirectFB
open Probing Transition

structure MapEntry (Obj : Type*) where
  hash : UInt32
  object : Obj
  deriving DecidableEq

/-- A slot is empty for a NULL object and removed for `REMOVED`. -/
structure DirectMap (Obj : Type*) where
  size : ℕ
  count : ℕ
  removed : ℕ
  entries : List (Slot (MapEntry Obj))
  deriving DecidableEq

/-- The functions given to `direct_map_create`, with their context. -/
structure MapFuncs (Key Obj : Type*) where
  compare : Key → Obj → Bool
  hash : Key → UInt32

structure MapFuncs.Consistent {Key Obj : Type*} (f : MapFuncs Key Obj) : Prop where
  same_hash : ∀ (k k' : Key) (o : Obj), f.compare k o = true → f.compare k' o = true →
    f.hash k = f.hash k'
  same_objects : ∀ (k k' : Key) (o : Obj), f.compare k o = true → f.compare k' o = true →
    ∀ o', f.compare k o' = f.compare k' o'

inductive DirectEnumerationResult
  | ok | cancel | remove
  deriving DecidableEq

namespace DirectMap

variable {Key Obj σ : Type*}

/-- The largest position, an `int`. -/
def intMax : ℕ := 2^31-1

def home (entry : MapEntry Obj) : ℕ := entry.hash.toNat

def isMatch (f : MapFuncs Key Obj) (key : Key) (entry : MapEntry Obj) : Bool :=
  entry.hash == f.hash key && f.compare key entry.object

/-- The walk of `pos` from the slot of a hash; undefined once it leaves `int`. -/
def walk (map : DirectMap Obj) (stop : Slot (MapEntry Obj) → Bool) (hash : UInt32) : Option ℕ :=
  (scan map.size (fun pos => decide (intMax < pos) || (map.entries[pos]?).any stop) map.size
    (hash.toNat%map.size)).filter (· ≤ intMax)

/-- `none` inside for the position -1. -/
def locateEntry (f : MapFuncs Key Obj) (map : DirectMap Obj) (key : Key) : Option (Option ℕ) :=
  (map.walk (Slot.stopsLookup (isMatch f key)) (f.hash key)).map fun pos =>
    if (map.entries[pos]?).any Slot.isLive then some pos else none

def resizeMap (map : DirectMap Obj) (size : ℕ) (mem : Bool) :
    Option (DirectResult × DirectMap Obj) :=
  if mem then
    (rehash home map.entries (List.replicate size .empty)).map fun entries =>
      (.ok,⟨size,map.count,0,entries⟩)
  else some (.noLocalMemory,map)

def create (initialSize : UInt32) : DirectMap Obj :=
  let size := if initialSize < 3 then 3 else initialSize
  ⟨size.toNat,0,0,List.replicate size.toNat .empty⟩

def crowded (map : DirectMap Obj) : Bool := map.size/4 < map.count+map.removed

/-- The product is one of `unsigned int`. -/
def grownSize (map : DirectMap Obj) : ℕ := map.size*3%2^32

/-- The walk of an insertion over an array that is large enough. -/
def store [DecidableEq Obj] (f : MapFuncs Key Obj) (map : DirectMap Obj) (key : Key)
    (object : Obj) : Option (DirectResult × DirectMap Obj) :=
  (map.walk (Slot.stopsInsert (isMatch f key)) (f.hash key)).map fun pos =>
    match map.entries[pos]? with
    | some (Slot.live entry) => (if entry.object = object then .busy else .bug,map)
    | slot =>
      (.ok,⟨map.size,map.count+1,if slot.any Slot.isRemoved then map.removed-1 else map.removed,
        map.entries.set pos (.live ⟨f.hash key,object⟩)⟩)

def insert [DecidableEq Obj] (f : MapFuncs Key Obj) (map : DirectMap Obj) (key : Key)
    (object : Obj) (mem : Bool) : Option (DirectResult × DirectMap Obj) :=
  if map.crowded then
    (map.resizeMap map.grownSize mem).bind fun (_,map) => map.store f key object
  else map.store f key object

def remove (f : MapFuncs Key Obj) (map : DirectMap Obj) (key : Key) :
    Option (DirectResult × DirectMap Obj) :=
  (map.locateEntry f key).map fun
  | none => (.itemNotFound,map)
  | some pos => (.ok,⟨map.size,map.count-1,map.removed+1,map.entries.set pos .removed⟩)

/-- NULL is `none` inside. -/
def lookup (f : MapFuncs Key Obj) (map : DirectMap Obj) (key : Key) : Option (Option Obj) :=
  (map.locateEntry f key).map fun pos => pos.bind fun pos =>
    (map.entries[pos]?).bind fun slot => slot.entry?.map MapEntry.object

/-- The loop of `direct_map_iterate` from slot `i` on, `n` slots being left. The
callback carries its context along. -/
def iterateFrom (func : σ → Obj → DirectEnumerationResult × σ) :
    ℕ → ℕ → DirectMap Obj → σ → DirectMap Obj × σ
  | 0, _, map, ctx => (map,ctx)
  | n+1, i, map, ctx =>
    match map.entries[i]? with
    | some (Slot.live entry) =>
      match func ctx entry.object with
      | (.ok,ctx) => iterateFrom func n (i+1) map ctx
      | (.cancel,ctx) => (map,ctx)
      | (.remove,ctx) => iterateFrom func n (i+1)
          ⟨map.size,map.count-1,map.removed+1,map.entries.set i .removed⟩ ctx
    | _ => iterateFrom func n (i+1) map ctx

def iterate (func : σ → Obj → DirectEnumerationResult × σ) (map : DirectMap Obj) (ctx : σ) :
    DirectMap Obj × σ :=
  iterateFrom func map.size 0 map ctx

theorem consistent {f : MapFuncs Key Obj} (hf : f.Consistent) :
    Consistent (fun k => (f.hash k).toNat) home (isMatch f) where
  home_eq k a h := by
    have : a.hash = f.hash k := by simp [isMatch] at h; exact h.1
    rw [home,this]
  same_key k k' a h h' b := by
    simp only [isMatch,Bool.and_eq_true,beq_iff_eq] at h h'
    rw [isMatch,isMatch,← h.1,← h'.1,hf.same_objects k k' a.object h.2 h'.2]

/-- Up to the largest position the walk is that of the ring. -/
theorem walk_eq_find {map : DirectMap Obj} (hlen : map.entries.length = map.size)
    (hsize : map.size ≤ intMax+1) (stop : Slot (MapEntry Obj) → Bool) (hash : UInt32) :
    map.walk stop hash = find map.entries stop hash.toNat := by
  rcases Nat.eq_zero_or_pos map.size with h0 | hpos
  · simp [walk,find,hlen,h0,scan]
  have hscan : scan map.size (fun pos => decide (intMax < pos) || (map.entries[pos]?).any stop)
      map.size (hash.toNat%map.size) = find map.entries stop hash.toNat := by
    rw [find,hlen]
    refine scan_congr (fun q hq => ?_) (Nat.mod_lt _ hpos)
    simp [show ¬ intMax < q by omega]
  rw [walk,hscan]
  cases hq : find map.entries stop hash.toNat with
  | none => rfl
  | some q =>
    have := find_lt hq
    rw [Option.filter_some_pos (by rw [decide_eq_true_eq]; omega)]

structure Inv (f : MapFuncs Key Obj) (map : DirectMap Obj) (last : Key → Option Obj) : Prop where
  length_eq : map.entries.length = map.size
  size_ge : 3 ≤ map.size
  size_le : map.size ≤ intMax+1
  stores : Stores home (isMatch f) MapEntry.object map.entries last
  keyed : ∀ e, Slot.live e ∈ map.entries → ∃ k, f.compare k e.object = true
  hashed : ∀ e, Slot.live e ∈ map.entries → ∀ k, f.compare k e.object = true → f.hash k = e.hash
  count_eq : map.entries.countP Slot.isLive = map.count
  removed_eq : map.entries.countP Slot.isRemoved = map.removed
  room : map.count+map.removed < map.size

variable {f : MapFuncs Key Obj} {map : DirectMap Obj} {last : Key → Option Obj}

theorem Inv.create {initialSize : UInt32} (h : initialSize.toNat ≤ intMax+1) :
    Inv f (create initialSize) fun _ => none := by
  have hsize : 3 ≤ (DirectMap.create initialSize : DirectMap Obj).size ∧
      (DirectMap.create initialSize : DirectMap Obj).size ≤ intMax+1 := by
    simp only [DirectMap.create]
    split_ifs with hlt
    · simp [intMax]
    · rw [UInt32.lt_iff_toNat_lt] at hlt
      exact ⟨by simpa using hlt,h⟩
  refine ⟨by simp [DirectMap.create],hsize.1,hsize.2,Stores.replicate_empty home _ _ _,
    ?_,?_,?_,?_,?_⟩
  · simp [DirectMap.create,List.mem_replicate]
  · simp [DirectMap.create,List.mem_replicate]
  · simp [DirectMap.create,List.countP_replicate]
  · simp [DirectMap.create,List.countP_replicate]
  · exact lt_of_lt_of_le (by decide : 0+0 < 3) hsize.1

theorem Inv.empty_mem (h : Inv f map last) : Slot.empty ∈ map.entries :=
  Probing.empty_mem (by rw [h.count_eq,h.removed_eq,h.length_eq]; exact h.room)

theorem Inv.isMatch_eq (h : Inv f map last) {e : MapEntry Obj} (he : Slot.live e ∈ map.entries)
    (k : Key) : isMatch f k e = f.compare k e.object := by
  rw [Bool.eq_iff_iff,isMatch,Bool.and_eq_true,beq_iff_eq]
  exact ⟨And.right,fun hk => ⟨(h.hashed e he k hk).symm,hk⟩⟩

/-- A lookup ends, with the position of the key's entry or without any. -/
theorem Inv.locateEntry (h : Inv f map last) (hf : f.Consistent) (key : Key) :
    (last key = none ∧ map.locateEntry f key = some none) ∨
      ∃ q e, map.locateEntry f key = some (some q) ∧ map.entries[q]? = some (.live e) ∧
        isMatch f key e = true ∧ last key = some e.object := by
  have hwalk := walk_eq_find h.length_eq h.size_le (Slot.stopsLookup (isMatch f key)) (f.hash key)
  obtain ⟨q,hq,⟨e,he,hm,hv⟩ | ⟨he,hnone⟩⟩ := h.stores.lookup (consistent hf) h.empty_mem key
  · exact .inr ⟨q,e,by simp [DirectMap.locateEntry,hwalk,hq,he],he,hm,hv⟩
  · exact .inl ⟨hnone,by simp [DirectMap.locateEntry,hwalk,hq,he]⟩

theorem Inv.lookup (h : Inv f map last) (hf : f.Consistent) (key : Key) :
    map.lookup f key = some (last key) := by
  rcases h.locateEntry hf key with ⟨hnone,hl⟩ | ⟨q,e,hl,hq,-,hv⟩
  · simp [DirectMap.lookup,hl,hnone]
  · simp [DirectMap.lookup,hl,hq,hv,Slot.entry?]

/-- The number of entries is the number of objects that the map has. -/
theorem Inv.count_eq_ncard (h : Inv f map last) : map.count = {o | ∃ k, last k = some o}.ncard := by
  classical
  have hnodup : ((Probing.entries map.entries).map MapEntry.object).Nodup := by
    refine List.pairwise_map.mpr (h.stores.table.pairwise_entries.imp_of_mem
      fun {a b} ha hb hab heq => ?_)
    rw [mem_entries] at ha hb
    obtain ⟨k,hk⟩ := h.keyed a ha
    exact hab.1 ⟨k,by rw [h.isMatch_eq ha,hk],by rw [h.isMatch_eq hb,← heq,hk]⟩
  have hset : {o | ∃ k, last k = some o} =
      ((Probing.entries map.entries).map MapEntry.object).toFinset := by
    ext o
    simp only [Set.mem_ofPred_eq,h.stores.holds,List.coe_toFinset,List.mem_map,mem_entries]
    constructor
    · rintro ⟨k,e,he,-,ho⟩
      exact ⟨e,he,ho⟩
    · rintro ⟨e,he,ho⟩
      obtain ⟨k,hk⟩ := h.keyed e he
      exact ⟨k,e,he,by rw [h.isMatch_eq he,hk],ho⟩
  rw [hset,Set.ncard_coe_finset,List.toFinset_card_of_nodup hnodup,List.length_map,length_entries,
    h.count_eq]

def without (f : MapFuncs Key Obj) (object : Obj) (last : Key → Option Obj) : Key → Option Obj :=
  fun k => if f.compare k object then none else last k

/-- Marking a slot as removed takes its object out of the map. -/
theorem Inv.mark (h : Inv f map last) {q : ℕ} {e : MapEntry Obj} {k : Key}
    (hq : map.entries[q]? = some (.live e)) (hm : isMatch f k e = true) :
    Inv f ⟨map.size,map.count-1,map.removed+1,map.entries.set q .removed⟩
      (without f e.object last) := by
  have hpos := countP_pos Slot.isLive hq rfl
  rw [h.count_eq] at hpos
  have hroom := h.room
  have hstores := h.stores.remove hq hm
  simp only [h.isMatch_eq (List.mem_of_getElem? hq)] at hstores
  have old (b : MapEntry Obj) (hb : Slot.live b ∈ map.entries.set q .removed) :
      Slot.live b ∈ map.entries := ((h.stores.table.mem_set_removed hq ⟨k,hm,hm⟩).mp hb).1
  exact ⟨by simpa using h.length_eq,h.size_ge,h.size_le,hstores,fun b hb => h.keyed b (old b hb),
    fun b hb => h.hashed b (old b hb),by simp [countP_set hq,h.count_eq],
    by simp [countP_set hq,h.removed_eq],by simp only []; omega⟩

theorem Inv.remove (h : Inv f map last) (hf : f.Consistent) (key : Key) :
    (last key = none ∧ map.remove f key = some (.itemNotFound,map)) ∨
      ∃ o t, last key = some o ∧ map.remove f key = some (.ok,t) ∧ Inv f t (without f o last) := by
  rcases h.locateEntry hf key with ⟨hnone,hl⟩ | ⟨q,e,hl,hq,hm,hv⟩
  · exact .inl ⟨hnone,by simp [DirectMap.remove,hl]⟩
  · exact .inr ⟨e.object,_,hv,by simp [DirectMap.remove,hl],h.mark hq hm⟩

theorem Inv.resizeMap (h : Inv f map last) {n : ℕ} (hmin : 3 ≤ n) (hmax : n ≤ intMax+1)
    (hroom : map.count < n) :
    ∃ t, map.resizeMap n true = some (.ok,t) ∧ Inv f t last ∧ t.size = n ∧ t.count = map.count ∧
      t.removed = 0 := by
  obtain ⟨entries,he,hstores,hlen,hmem,hlive,hrem⟩ :=
    h.stores.rehash n (by rw [h.count_eq]; omega)
  exact ⟨⟨n,map.count,0,entries⟩,by simp [DirectMap.resizeMap,he],
    ⟨hlen,hmin,hmax,hstores,fun e he' => h.keyed e ((hmem e).mp he'),
      fun e he' => h.hashed e ((hmem e).mp he'),hlive.trans h.count_eq,hrem,hroom⟩,rfl,rfl,rfl⟩

section Insert

variable [DecidableEq Obj]

/-- What an insertion answers and leaves behind. -/
inductive Inserted (f : MapFuncs Key Obj) (last : Key → Option Obj) (key : Key) (object : Obj) :
    DirectResult → (Key → Option Obj) → Prop
  | ok : last key = none → Inserted f last key object .ok
      fun k => if f.compare k object then some object else last k
  | busy : last key = some object → Inserted f last key object .busy last
  | bug {o : Obj} : last key = some o → o ≠ object → Inserted f last key object .bug last

theorem store_free {key : Key} {q : ℕ} {object : Obj}
    (hq : map.walk (Slot.stopsInsert (isMatch f key)) (f.hash key) = some q)
    (hfree : map.entries[q]? = some .empty ∨ map.entries[q]? = some .removed) :
    map.store f key object = some (.ok,⟨map.size,map.count+1,
      if (map.entries[q]?).any Slot.isRemoved then map.removed-1 else map.removed,
      map.entries.set q (.live ⟨f.hash key,object⟩)⟩) := by
  rcases hfree with he | he <;> simp [store,hq,he]

/-- With nothing in the way, the walk of an insertion answers for the map. -/
theorem Inv.store (h : Inv f map last) (hf : f.Consistent) {key : Key} {object : Obj}
    (hkey : f.compare key object = true)
    (hclear : Clear map.entries (isMatch f key) (f.hash key).toNat)
    (hroom : map.count+map.removed+1 < map.size) :
    ∃ r t last', map.store f key object = some (r,t) ∧ Inserted f last key object r last' ∧
      Inv f t last' := by
  obtain ⟨q,hq⟩ := find_isSome (Slot.stopsInsert (isMatch f key)) (f.hash key).toNat h.empty_mem rfl
  have hwalk := (walk_eq_find h.length_eq h.size_le _ _).trans hq
  rcases h.stores.insert_walk (consistent hf) hclear hq with ⟨e,he,-,hv⟩ | ⟨hfree,hnone⟩
  · by_cases ho : e.object = object
    · exact ⟨.busy,map,last,by simp [DirectMap.store,hwalk,he,ho],.busy (ho ▸ hv),h⟩
    · exact ⟨.bug,map,last,by simp [DirectMap.store,hwalk,he,ho],.bug hv ho,h⟩
  · have hnew : isMatch f key ⟨f.hash key,object⟩ = true := by simp [isMatch,hkey]
    have hcompare (k : Key) : isMatch f k ⟨f.hash key,object⟩ = f.compare k object := by
      rw [Bool.eq_iff_iff,isMatch,Bool.and_eq_true,beq_iff_eq]
      exact ⟨And.right,fun hk => ⟨hf.same_hash key k object hkey hk,hk⟩⟩
    have hstores := h.stores.insert (consistent hf) hnew hnone hq hfree
    simp only [hcompare] at hstores
    refine ⟨.ok,_,_,store_free hwalk hfree,.ok hnone,?_⟩
    have hkeyed : ∀ e, Slot.live e ∈ map.entries.set q (.live ⟨f.hash key,object⟩) →
        ∃ k, f.compare k e.object = true := by
      intro e he
      rcases (mem_set_live hfree).mp he with rfl | he
      · exact ⟨key,hkey⟩
      · exact h.keyed e he
    have hhashed : ∀ e, Slot.live e ∈ map.entries.set q (.live ⟨f.hash key,object⟩) →
        ∀ k, f.compare k e.object = true → f.hash k = e.hash := by
      intro e he k hk
      rcases (mem_set_live hfree).mp he with rfl | he
      · exact hf.same_hash k key object hk hkey
      · exact h.hashed e he k hk
    rcases hfree with he | he
    · exact ⟨by simpa using h.length_eq,h.size_ge,h.size_le,hstores,hkeyed,hhashed,
        by simp [countP_set he,h.count_eq],
        by simp [he,countP_set he,h.removed_eq],
        by simp [he]; omega⟩
    · have hpos := countP_pos Slot.isRemoved he rfl
      rw [h.removed_eq] at hpos
      exact ⟨by simpa using h.length_eq,h.size_ge,h.size_le,hstores,hkeyed,hhashed,
        by simp [countP_set he,h.count_eq],
        by simp [he,countP_set he,h.removed_eq],
        by simp [he]; omega⟩

/-- An insertion meets no tombstone before the entry of its key, in an array that
does not have to grow, and growth finds memory and stays within `int` positions. -/
def Permits (f : MapFuncs Key Obj) (map : DirectMap Obj) (key : Key) (mem : Bool) : Prop :=
  (map.crowded = false → Clear map.entries (isMatch f key) (f.hash key).toNat) ∧
  (map.crowded = true → mem = true ∧ map.size*3 ≤ intMax+1)

theorem Inv.insert (h : Inv f map last) (hf : f.Consistent) {key : Key} {object : Obj} {mem : Bool}
    (hkey : f.compare key object = true) (hok : Permits f map key mem) :
    ∃ r t last', map.insert f key object mem = some (r,t) ∧
      Inserted f last key object r last' ∧ Inv f t last' := by
  have hsize := h.size_ge
  have hroom := h.room
  cases hc : map.crowded with
  | false =>
    simp only [DirectMap.insert,hc,Bool.false_eq_true,if_false]
    refine h.store hf hkey (hok.1 hc) ?_
    simp only [crowded,decide_eq_false_iff_not] at hc
    omega
  | true =>
    obtain ⟨rfl,hmax⟩ := hok.2 hc
    have hgrown : map.grownSize = map.size*3 :=
      Nat.mod_eq_of_lt (by simp only [intMax] at hmax; omega)
    obtain ⟨t,ht,hinv,htsize,htcount,htrem⟩ :=
      h.resizeMap (by omega : 3 ≤ map.size*3) hmax (by omega)
    simp only [DirectMap.insert,hc,if_true,hgrown,ht,Option.bind_some]
    refine hinv.store hf hkey (clear_of_no_removed (hinv.removed_eq.trans htrem) _) ?_
    omega

end Insert

def watch (answer : List Obj → Obj → DirectEnumerationResult) (ctx : List Obj × List Obj)
    (object : Obj) : DirectEnumerationResult × List Obj × List Obj :=
  (answer ctx.1 object,object::ctx.1,
    if answer ctx.1 object = .remove then object::ctx.2 else ctx.2)

def withoutAll (f : MapFuncs Key Obj) (gone : List Obj) (last : Key → Option Obj) :
    Key → Option Obj :=
  gone.foldr (without f) last

theorem Inv.iterateFrom (answer : List Obj → Obj → DirectEnumerationResult) (n i : ℕ)
    (ctx : List Obj × List Obj) (h : Inv f map (withoutAll f ctx.2 last)) :
    Inv f (iterateFrom (watch answer) n i map ctx).1
      (withoutAll f (iterateFrom (watch answer) n i map ctx).2.2 last) := by
  induction n generalizing i map ctx with
  | zero => exact h
  | succ n ih =>
    rw [iterateFrom]
    cases hi : map.entries[i]? with
    | none => exact ih _ _ h
    | some slot =>
      cases slot with
      | empty => exact ih _ _ h
      | removed => exact ih _ _ h
      | live e =>
        obtain ⟨k,hk⟩ := h.keyed e (List.mem_of_getElem? hi)
        rw [← h.isMatch_eq (List.mem_of_getElem? hi)] at hk
        cases ha : answer ctx.1 e.object with
        | ok => simpa [watch,ha] using ih (i+1) (e.object::ctx.1,ctx.2) h
        | cancel => simpa [watch,ha] using h
        | remove =>
          have hmark := h.mark hi hk
          simpa [watch,ha] using ih (i+1) (e.object::ctx.1,e.object::ctx.2) hmark

section Runs

variable [DecidableEq Obj]

/-- A map together with the object last inserted under each key and not removed. -/
structure State (Key Obj : Type*) where
  map : DirectMap Obj
  last : Key → Option Obj

/-- The calls of a user, who inserts an object under a key that it matches. -/
inductive Event (f : MapFuncs Key Obj)
  | insert (key : Key) (object : Obj) (h : f.compare key object = true) (mem : Bool)
  | remove (key : Key)
  | lookup (key : Key)
  | iterate (answer : List Obj → Obj → DirectEnumerationResult)

def step (f : MapFuncs Key Obj) (s : State Key Obj) : Event f → Option (State Key Obj)
  | .insert key object _ mem => (s.map.insert f key object mem).map fun (r,map) =>
      ⟨map,fun k => if r = .ok ∧ f.compare k object then some object else s.last k⟩
  | .remove key => (s.map.remove f key).map fun (_,map) =>
      ⟨map,withoutAll f (s.last key).toList s.last⟩
  | .lookup key => (s.map.lookup f key).map fun _ => s
  | .iterate answer =>
      let (map,_,gone) := s.map.iterate (watch answer) ([],[])
      some ⟨map,withoutAll f gone s.last⟩

def Allows (f : MapFuncs Key Obj) (s : State Key Obj) : Event f → Prop
  | .insert key _ _ mem => s.map.Permits f key mem
  | _ => True

theorem Inv.step {s : State Key Obj} (h : Inv f s.map s.last) (hf : f.Consistent) {e : Event f}
    (hok : Allows f s e) : ∃ t, step f s e = some t ∧ Inv f t.map t.last := by
  cases e with
  | insert key object hkey mem =>
    obtain ⟨r,t,last',ht,hins,hinv⟩ := h.insert hf hkey hok
    refine ⟨_,by simp only [DirectMap.step,ht]; rfl,?_⟩
    cases hins <;> simpa using hinv
  | remove key =>
    rcases h.remove hf key with ⟨hnone,ht⟩ | ⟨o,t,ho,ht,hinv⟩
    · exact ⟨_,by simp only [DirectMap.step,ht]; rfl,by simpa [hnone,withoutAll] using h⟩
    · exact ⟨_,by simp only [DirectMap.step,ht]; rfl,by simpa [ho,withoutAll] using hinv⟩
  | lookup key => exact ⟨s,by simp [DirectMap.step,h.lookup hf key],h⟩
  | iterate answer => exact ⟨_,rfl,Inv.iterateFrom answer s.map.size 0 ([],[]) h⟩

theorem reaches_inv (hf : f.Consistent) {initialSize : UInt32}
    (hsize : initialSize.toNat ≤ intMax+1) {s : State Key Obj}
    (hs : Reaches (step f) (Allows f) (fun s => s = ⟨create initialSize,fun _ => none⟩) s) :
    Inv f s.map s.last := by
  refine hs.invariant (fun s => Inv f s.map s.last) ?_ ?_
  · rintro _ rfl
    exact Inv.create hsize
  · intro s e t hinv hok ht
    obtain ⟨u,hu,hinv'⟩ := hinv.step hf hok
    obtain rfl : u = t := by simpa [hu] using ht
    exact hinv'

/-- The map refines a finite map, in runs whose insertions are all permitted. -/
theorem map_refines_map (hf : f.Consistent) {initialSize : UInt32}
    (hsize : initialSize.toNat ≤ intMax+1) {s : State Key Obj}
    (hs : Reaches (step f) (Allows f) (fun s => s = ⟨create initialSize,fun _ => none⟩) s) :
    (∀ (q q' : ℕ) (e e' : MapEntry Obj) (k : Key), s.map.entries[q]? = some (.live e) →
      s.map.entries[q']? = some (.live e') → f.compare k e.object = true →
      f.compare k e'.object = true → q = q') ∧
    (∀ key, s.map.lookup f key = some (s.last key)) ∧
    (∀ key object mem o, f.compare key object = true → s.map.Permits f key mem →
      s.last key = some o → ∃ t, s.map.insert f key object mem =
        some (if o = object then .busy else .bug,t) ∧
        t.count = s.map.count ∧ ∀ k, t.lookup f k = s.map.lookup f k) ∧
    s.map.count = s.map.entries.countP Slot.isLive ∧
    s.map.removed = s.map.entries.countP Slot.isRemoved ∧
    ∀ e, Allows f s e → ∃ t, step f s e = some t := by
  have h := reaches_inv hf hsize hs
  refine ⟨?_,h.lookup hf,?_,h.count_eq.symm,h.removed_eq.symm,fun e hok => ?_⟩
  · intro q q' e e' k he he' hk hk'
    rw [← h.isMatch_eq (List.mem_of_getElem? he)] at hk
    rw [← h.isMatch_eq (List.mem_of_getElem? he')] at hk'
    exact h.stores.table.unique q q' e e' he he' ⟨k,hk,hk'⟩
  · intro key object mem o hkey hok ho
    obtain ⟨r,t,last',ht,hins,hinv⟩ := h.insert hf hkey hok
    have hsame (heq : last' = s.last) : t.count = s.map.count ∧
        ∀ k, t.lookup f k = s.map.lookup f k := by
      subst heq
      exact ⟨by rw [hinv.count_eq_ncard,h.count_eq_ncard],
        fun k => by rw [hinv.lookup hf,h.lookup hf]⟩
    cases hins with
    | ok hnone => rw [hnone] at ho; contradiction
    | busy hsome =>
      obtain rfl : object = o := by simpa [hsome] using ho
      exact ⟨t,by simpa using ht,hsame rfl⟩
    | bug hsome hne =>
      obtain rfl := Option.some.inj (hsome.symm.trans ho)
      exact ⟨t,by simpa [hne] using ht,hsame rfl⟩
  · obtain ⟨t,ht,-⟩ := h.step hf hok
    exact ⟨t,ht⟩

def numbered : MapFuncs ℕ (ℕ × ℕ) where
  compare key object := object.1 == key
  hash key := UInt32.ofNat key

theorem numbered_consistent : numbered.Consistent where
  same_hash k k' o h h' := by
    obtain rfl : o.1 = k := by simpa [numbered] using h
    obtain rfl : o.1 = k' := by simpa [numbered] using h'
    rfl
  same_objects k k' o h h' o' := by
    obtain rfl : o.1 = k := by simpa [numbered] using h
    obtain rfl : o.1 = k' := by simpa [numbered] using h'
    rfl

/-- Two keys of one slot, the first of which is taken out again. -/
theorem map_refines_map_collision : ∃ s : State ℕ (ℕ × ℕ),
    s.map.lookup numbered 37 = some (some (37,1)) ∧ s.map.lookup numbered 0 = some none ∧
    s.map.count = s.map.entries.countP Slot.isLive := by
  have h := @map_refines_map _ _ _ _ numbered_consistent 37 (by decide) _
    (.step (.remove 0) (.step (.insert 37 (37,1) rfl true)
      (.step (.insert 0 (0,0) rfl true) (.init rfl)
        ⟨fun _ => clear_of_no_removed rfl _,fun h => absurd h (by decide)⟩ rfl)
        ⟨fun _ => clear_of_no_removed rfl _,fun h => absurd h (by decide)⟩ rfl) trivial rfl)
  exact ⟨_,h.2.1 37,h.2.1 0,h.2.2.2.1⟩

/-- An insertion stops at the tombstone of key 0 and stores key 37 twice. -/
theorem insert_second_object : ∃ s : State ℕ (ℕ × ℕ),
    exec (step numbered) ⟨create 37,fun _ => none⟩ [.insert 0 (0,0) rfl true,
      .insert 37 (37,1) rfl true,.remove 0] = some s ∧ s.last 37 = some (37,1) ∧
    ∃ t, s.map.insert numbered 37 (37,2) true = some (.ok,t) ∧
      t.entries[0]? = some (.live ⟨37,(37,2)⟩) ∧ t.entries[1]? = some (.live ⟨37,(37,1)⟩) :=
  ⟨_,rfl,rfl,_,rfl,rfl,rfl⟩

end Runs

end DirectMap
end DirectFB
