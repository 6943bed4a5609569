import DirectFB.FusionVector
import DirectFB.Reaches

/-! The order of the surface pools, and of the surface pool bridges, which are kept in slots of
their own and looked at by descending priority. -/
namespace DirectFB.SurfacePoolOrder
open Function (update update_apply update_of_ne update_self)
open Transition

/-- A pool, or a bridge, with `desc.priority`. -/
structure Pool where
  id : ℕ
  priority : ℤ
deriving DecidableEq

inductive Failure
  | limitExceeded | noSharedMemory | noSystemMemory | bug | driver (code : ℕ)
deriving DecidableEq

/-- `pool_count`, `pool_array`, `pool_funcs` and `pool_order`, or those of the bridges, with
function tables in `φ`. -/
structure Slots (φ : Type*) where
  count : ℕ
  array : ℕ → Option Pool
  funcs : ℕ → Option φ
  order : ℕ → ℕ

inductive Kind
  | pool | bridge
deriving DecidableEq

/-- `MAX_SURFACE_POOLS` and `MAX_SURFACE_POOL_BRIDGES` -/
def Kind.limit : Kind → ℕ
  | .pool => 8
  | .bridge => 4

variable {φ : Type*}

def Slots.ordered (s : Slots φ) : List ℕ := (List.range s.count).map s.order

def position (array : ℕ → Option Pool) (priority : ℤ) : List ℕ → Option ℕ
  | [] => some 0
  | id::ids => (array id).bind fun other =>
    if other.priority < priority then some 0 else (position array priority ids).map (·+1)

/-- An id is put at index `i` after those from there to `n-1` are moved up. -/
def place (order : ℕ → ℕ) (id i : ℕ) : ℕ → ℕ → ℕ
  | 0 => update order 0 id
  | n+1 =>
    if i < n+1 then place (update order (n+1) (order n)) id i n
    else update order (n+1) id

/-- `insert_pool_local` and `insert_bridge_local`, undefined where a pool on the way is missing. -/
def Slots.insertLocal (s : Slots φ) (pool : Pool) : Option (Slots φ) :=
  let ids := (List.range (s.count-1)).map s.order
  (position s.array pool.priority ids).map fun i =>
    {s with order := place s.order (s.count-1) i (s.count-1)}

/-- The first of `n` entries that is the id is closed with those behind it. -/
def closeGap (order : ℕ → ℕ) (id n : ℕ) : ℕ → ℕ :=
  match (List.range n).find? fun i => order i = id with
  | some i => fun k => if i ≤ k ∧ k < n then order (k+1) else order k
  | none => order

def trim (array : ℕ → Option Pool) : ℕ → (ℕ → ℕ) → ℕ × (ℕ → ℕ)
  | 0, order => (0,order)
  | n+1, order =>
    if (array n).isNone then trim array n (closeGap order n n) else (n+1,order)

/-- `remove_pool_local` and `remove_bridge_local` -/
def Slots.removeLocal (s : Slots φ) (id : ℕ) : Slots φ :=
  let array := update s.array id none
  let (count,order) := trim array s.count s.order
  ⟨count,array,update s.funcs id none,order⟩

/-- `dfb_surface_pool_initialize2` and `dfb_surface_pool_bridge_initialize`, of which `init` is
what the initialization of the pool fails with, or the priority. -/
def Slots.initialize2 (kind : Kind) (s : Slots φ) (funcs : φ) (memory : Bool)
    (init : Except Failure ℤ) : Option (Slots φ × Except Failure Pool) :=
  if s.count = kind.limit then some (s,.error .limitExceeded)
  else if !memory then some (s,.error .noSharedMemory)
  else match init with
    | .error failure => some ({s with
        funcs := update s.funcs s.count none
        array := update s.array s.count none},.error failure)
    | .ok priority =>
      let pool : Pool := ⟨s.count,priority⟩
      (Slots.insertLocal {s with
        count := s.count+1
        funcs := update s.funcs pool.id (some funcs)
        array := update s.array pool.id (some pool)} pool).map (·,.ok pool)

/-- `dfb_surface_pool_join2` and `dfb_surface_pool_bridge_join`, of which only the latter clears
the entries if the driver fails to join. -/
def Slots.join (kind : Kind) (s : Slots φ) (pool : Pool) (funcs : φ) (memory : Bool)
    (joined : Except Failure Unit) : Option (Slots φ × Except Failure Pool) :=
  if pool.id ≠ s.count then some (s,.error .bug)
  else if !memory then some (s,.error .noSystemMemory)
  else
    let t : Slots φ := {s with
      count := max s.count (pool.id+1)
      funcs := update s.funcs pool.id (some funcs)
      array := update s.array pool.id (some pool)}
    match joined with
    | .error failure =>
      let t := match kind with
        | .pool => t
        | .bridge => {t with
          array := update t.array pool.id none
          funcs := update t.funcs pool.id none}
      some ({t with count := t.count-1},.error failure)
    | .ok () => (t.insertLocal pool).map (·,.ok pool)

/-- `dfb_surface_pool_destroy`, `dfb_surface_pool_leave` and those of the bridges, which call
through the function table first. -/
def Slots.leave (s : Slots φ) (pool : Pool) : Option (Slots φ) :=
  (s.funcs pool.id).map fun _ => s.removeLocal pool.id

/-- What a pool says to a configuration: `DFB_OK`, `DFB_NOVIDEOMEMORY` or anything else. -/
inductive Verdict
  | fits | full | unsupported
deriving DecidableEq

/-- The pools that were looked at, `free_pools` and `oom_pools`. -/
structure Negotiation where
  visited : List Pool
  free : List Pool
  oom : List Pool

/-- The body of the loop of `dfb_surface_pools_negotiate`, where `suits` compares the access and
the types of a pool, and `test` is `TestConfig`. -/
def Slots.look (s : Slots φ) (suits : Pool → Bool) (test : φ → Pool → Verdict) (n : Negotiation)
    (id : ℕ) : Option Negotiation :=
  (s.array id).bind fun pool =>
    let n := {n with visited := n.visited++[pool]}
    if suits pool then (s.funcs pool.id).map fun funcs =>
      match test funcs pool with
      | .fits => {n with free := n.free++[pool]}
      | .full => {n with oom := n.oom++[pool]}
      | .unsupported => n
    else some n

/-- `dfb_surface_pools_negotiate`: the pools looked at, those returned, and the result. -/
def Slots.negotiate (s : Slots φ) (suits : Pool → Bool) (test : φ → Pool → Verdict)
    (maxPools : ℕ) : Option (List Pool × List Pool × Verdict) :=
  (s.ordered.foldlM (s.look suits test) ⟨[],[],[]⟩).map fun n =>
    (n.visited,(n.free++n.oom).take maxPools,
      if n.free ≠ [] then .fits else if n.oom ≠ [] then .full else .unsupported)

/-- The loop of `dfb_surface_pool_bridges_transfer`: the bridges looked at, and the first that can
do the transfer. -/
def Slots.search (s : Slots φ) (check : φ → Pool → Bool) : List ℕ → Option (List Pool × Option Pool)
  | [] => some ([],none)
  | id::ids => (s.array id).bind fun bridge => (s.funcs bridge.id).bind fun funcs =>
    if check funcs bridge then some ([bridge],some bridge)
    else (s.search check ids).map fun (visited,found) => (bridge::visited,found)

structure World (φ : Type*) where
  slots : Slots φ
  live : List Pool

inductive Call (φ : Type*)
  | initialize2 (funcs : φ) (memory : Bool) (init : Except Failure ℤ)
  | join (pool : Pool) (funcs : φ) (memory : Bool) (joined : Except Failure Unit)
  | destroy (pool : Pool)
  | leave (pool : Pool)

def World.add (w : World φ) : Slots φ × Except Failure Pool → World φ
  | (s,.ok pool) => ⟨s,w.live++[pool]⟩
  | (s,.error _) => ⟨s,w.live⟩

def World.drop (w : World φ) (pool : Pool) (s : Slots φ) : World φ := ⟨s,w.live.erase pool⟩

def step (kind : Kind) (w : World φ) : Call φ → Option (World φ)
  | .initialize2 funcs memory init => (w.slots.initialize2 kind funcs memory init).map w.add
  | .join pool funcs memory joined => (w.slots.join kind pool funcs memory joined).map w.add
  | .destroy pool => (w.slots.leave pool).map (w.drop pool)
  | .leave pool => (w.slots.leave pool).map (w.drop pool)

def Possible (kind : Kind) (w : World φ) : Call φ → Prop
  | .initialize2 _ _ _ => True
  | .join pool _ _ _ => pool.id < kind.limit
  | .destroy pool => pool ∈ w.live
  | .leave pool => pool ∈ w.live

def Last (w : World φ) : Call φ → Prop
  | .initialize2 _ _ _ => True
  | .join _ _ _ _ => True
  | .destroy pool => pool.id+1 = w.slots.count
  | .leave pool => pool.id+1 = w.slots.count

def Initial (w : World φ) : Prop :=
  w.slots.count = 0 ∧ (∀ id, w.slots.array id = none) ∧ (∀ id, w.slots.funcs id = none) ∧ w.live = []

def Before (live : List Pool) (p q : Pool) : Prop :=
  q.priority < p.priority ∨ q.priority = p.priority ∧ live.idxOf p < live.idxOf q

/-- The order lists the pools that are there, once each and sorted, and has their entries. -/
structure Listed (w : World φ) (l : List Pool) : Prop where
  perm : l.Perm w.live
  nodup : l.Nodup
  sorted : l.Pairwise (Before w.live)
  ids : w.slots.ordered = l.map Pool.id
  array : ∀ p ∈ l, w.slots.array p.id = some p
  funcs : ∀ p ∈ l, (w.slots.funcs p.id).isSome

def Slots.can (s : Slots φ) (check : φ → Pool → Bool) (bridge : Pool) : Bool :=
  (s.funcs bridge.id).any fun funcs => check funcs bridge

def Consistent (w : World φ) : Prop := ∃ l, Listed w l ∧
  (∀ suits test maxPools, ∃ r, w.slots.negotiate suits test maxPools = some (l,r)) ∧
  ∀ check, w.slots.search check w.slots.ordered =
    some (l.takeWhile (fun p => !w.slots.can check p)++(l.find? (w.slots.can check)).toList,
      l.find? (w.slots.can check))

/-- The ids of the pools that are there are those below the counter, as they came. -/
structure Inv (w : World φ) : Prop where
  live : w.live.map Pool.id = List.range w.slots.count
  listed : ∃ l, Listed w l

section
variable {s : Slots φ} {w : World φ} {l : List Pool} {pool : Pool} {order : ℕ → ℕ}
  {array : ℕ → Option Pool} {priority : ℤ} {id i n : ℕ} {kind : Kind}

theorem position_eq (h : ∀ p ∈ l, array p.id = some p) : position array priority (l.map Pool.id) =
      some (l.findIdx fun p => p.priority < priority) := by
  induction l with
  | nil => rfl
  | cons p l ih =>
    rw [List.map_cons,position,h p List.mem_cons_self,Option.bind_some,List.findIdx_cons]
    by_cases hp : p.priority < priority
    · simp [hp]
    · simp [hp,ih fun q hq => h q (List.mem_cons_of_mem _ hq)]

theorem place_apply (hi : i ≤ n) (k : ℕ) : place order id i n k =
    if k < i ∨ n < k then order k else if k = i then id else order (k-1) := by
  induction n generalizing order with
  | zero =>
    obtain rfl : i = 0 := by omega
    rw [place,update_apply]
    grind
  | succ n ih =>
    rw [place]
    by_cases h : i < n+1
    · rw [if_pos h,ih (by omega)]
      simp only [update_apply]
      grind
    · obtain rfl : i = n+1 := by omega
      rw [if_neg h,update_apply]
      grind

theorem map_place (hi : i ≤ n) : (List.range (n+1)).map (place order id i n) =
    FusionVector.insert ((List.range n).map order) id i := by
  apply List.ext_getElem?
  intro k
  rw [List.getElem?_map,FusionVector.insert]
  rcases lt_trichotomy k i with hk | rfl | hk
  · rw [List.getElem?_append_left (by simp; omega),List.getElem?_take_of_lt hk,List.getElem?_map,
      List.getElem?_range (by omega),List.getElem?_range (by omega)]
    simp [place_apply hi,hk]
  · rw [List.getElem?_append_right (by simp),List.getElem?_range (by omega)]
    simp [place_apply hi,hi,Nat.not_lt.mpr hi]
  · have hlength : ((List.range n).map order).length = n := by simp
    rw [List.getElem?_append_right (by simp; omega),List.length_take,hlength,min_eq_left hi,
      show k-i = (k-i-1)+1 by omega,List.getElem?_cons_succ,List.getElem?_drop,List.getElem?_map,
      show i+(k-i-1) = k-1 by omega]
    by_cases hn : k ≤ n
    · rw [List.getElem?_range (by omega),List.getElem?_range (by omega)]
      simp [place_apply hi,Nat.not_lt.mpr hn,hk.not_gt,hk.ne']
    · rw [List.getElem?_eq_none (by simp; omega),List.getElem?_eq_none (by simp; omega)]
      rfl

theorem map_closeGap (h : id ∈ (List.range (n+1)).map order) :
    (List.range n).map (closeGap order id n) = ((List.range (n+1)).map order).erase id := by
  rw [closeGap]
  cases hf : (List.range n).find? fun i => order i = id with
  | none =>
    have hne : id ∉ (List.range n).map order := by
      simpa using List.find?_eq_none.mp hf
    obtain rfl : id = order n := by
      rw [List.range_succ,List.map_append,List.mem_append] at h
      simpa using h.resolve_left hne
    rw [List.range_succ,List.map_append,List.erase_append_right _ hne]
    simp
  | some i =>
    obtain ⟨hid,hi,hbefore⟩ := List.find?_range_eq_some.mp hf
    rw [decide_eq_true_eq] at hid
    rw [List.mem_range] at hi
    have hidx : ((List.range (n+1)).map order).idxOf id = i := by
      rw [List.idxOf,List.findIdx_eq (by simp; omega)]
      simpa [hid] using hbefore
    rw [List.erase_eq_eraseIdx_of_idxOf hidx]
    apply List.ext_getElem?
    intro k
    rw [List.getElem?_eraseIdx]
    by_cases hk : k < n
    · by_cases hki : k < i
      · simp [hki,hk,hki.not_ge,show k < n+1 by omega]
      · simp [hki,hk,Nat.not_lt.mp hki]
    · simp [hk,show ¬ k < i by omega]

theorem look_spec (suits : Pool → Bool) (test : φ → Pool → Verdict)
    (h : ∀ p ∈ l, s.array p.id = some p ∧ (s.funcs p.id).isSome) (m : Negotiation) :
    ∃ r, (l.map Pool.id).foldlM (s.look suits test) m = some r ∧ r.visited = m.visited++l := by
  induction l generalizing m with
  | nil => exact ⟨m,rfl,(List.append_nil _).symm⟩
  | cons p l ih =>
    obtain ⟨hp,hf⟩ := h p List.mem_cons_self
    obtain ⟨funcs,hf⟩ := Option.isSome_iff_exists.mp hf
    have hlook : ∃ t, s.look suits test m p.id = some t ∧ t.visited = m.visited++[p] := by
      rw [Slots.look,hp,Option.bind_some]
      dsimp only
      split_ifs
      · rw [hf,Option.map_some]
        refine ⟨_,rfl,?_⟩
        cases test funcs p <;> rfl
      · exact ⟨_,rfl,rfl⟩
    obtain ⟨t,ht,hvisited⟩ := hlook
    obtain ⟨r,hr,hrest⟩ := ih (fun q hq => h q (List.mem_cons_of_mem _ hq)) t
    refine ⟨r,?_,by rw [hrest,hvisited,List.append_assoc,List.singleton_append]⟩
    rw [List.map_cons,List.foldlM_cons,ht]
    exact hr

theorem search_spec {check : φ → Pool → Bool}
    (h : ∀ p ∈ l, s.array p.id = some p ∧ (s.funcs p.id).isSome) :
    s.search check (l.map Pool.id) = some (l.takeWhile (fun p => !s.can check p)++
      (l.find? (s.can check)).toList,l.find? (s.can check)) := by
  induction l with
  | nil => rfl
  | cons p l ih =>
    obtain ⟨hp,hf⟩ := h p List.mem_cons_self
    obtain ⟨funcs,hf⟩ := Option.isSome_iff_exists.mp hf
    have hcan : s.can check p = check funcs p := by rw [Slots.can,hf,Option.any_some]
    rw [List.map_cons,Slots.search,hp,Option.bind_some,hf,Option.bind_some,List.takeWhile_cons,
      List.find?_cons,hcan,ih fun q hq => h q (List.mem_cons_of_mem _ hq)]
    cases check funcs p <;> rfl

theorem Listed.consistent (hl : Listed w l) : Consistent w := by
  have hentries : ∀ p ∈ l, w.slots.array p.id = some p ∧ (w.slots.funcs p.id).isSome :=
    fun p hp => ⟨hl.array p hp,hl.funcs p hp⟩
  refine ⟨l,hl,fun suits test maxPools => ?_,fun check => ?_⟩
  · obtain ⟨r,hr,hvisited⟩ := look_spec suits test hentries ⟨[],[],[]⟩
    rw [Slots.negotiate,hl.ids,hr]
    exact ⟨_,by rw [Option.map_some,hvisited,List.nil_append]⟩
  · rw [hl.ids]
    exact search_spec hentries

theorem Inv.id_lt (hw : Inv w) {p : Pool} (hp : p ∈ w.live) : p.id < w.slots.count := by
  rw [← List.mem_range,← hw.live]
  exact List.mem_map_of_mem hp

theorem before_append {live : List Pool} {p q : Pool} (hp : p ∈ live) (hq : q ∈ live) :
    Before (live++[pool]) p q ↔ Before live p q := by
  rw [Before,Before,List.idxOf_append_of_mem hp,List.idxOf_append_of_mem hq]

/-- What is sorted stays so with a new pool in front of the first one that has a lower priority. -/
theorem insert_sorted {live : List Pool} (hl : l.Pairwise (Before live)) (hperm : l.Perm live)
    (hnot : pool ∉ live) : (FusionVector.insert l pool
      (l.findIdx fun p => p.priority < pool.priority)).Pairwise (Before (live++[pool])) := by
  refine FusionVector.insert_pairwise.mpr ⟨?_,fun p hp => ?_,fun p hp => ?_⟩
  · exact hl.imp_of_mem fun hp hq h =>
      (before_append (hperm.mem_iff.mp hp) (hperm.mem_iff.mp hq)).mpr h
  · obtain ⟨k,hk,rfl⟩ := List.getElem_of_mem hp
    rw [List.length_take] at hk
    have hlower := List.not_of_lt_findIdx (lt_of_lt_of_le hk (min_le_left _ _))
    rw [decide_eq_false_iff_not,not_lt] at hlower
    rw [List.getElem_take]
    have hmem : l[k] ∈ live := hperm.mem_iff.mp (List.getElem_mem _)
    rcases hlower.lt_or_eq with h | h
    · exact .inl h
    · refine .inr ⟨h,?_⟩
      rw [List.idxOf_append_of_mem hmem,List.idxOf_append_of_notMem hnot]
      have := List.idxOf_lt_length_of_mem hmem
      omega
  · obtain ⟨k,hk,rfl⟩ := List.getElem_of_mem hp
    rw [List.length_drop] at hk
    rw [List.getElem_drop]
    have hlt : (l.findIdx fun p => p.priority < pool.priority) < l.length := by omega
    have hfirst := List.findIdx_getElem (w := hlt)
    rw [decide_eq_true_eq] at hfirst
    rcases Nat.eq_zero_or_pos k with rfl | hpos
    · exact .inl hfirst
    · have hle := List.pairwise_iff_getElem.mp hl _ _ hlt (by omega) (Nat.lt_add_of_pos_right hpos)
      rcases hle with h | h
      · exact .inl (h.trans hfirst)
      · exact .inl (h.1.trans_lt hfirst)

/-- A new pool is put behind those that have its priority, or a higher one. -/
theorem insert_spec (hw : Inv w) (pool : Pool) (hid : pool.id = w.slots.count) {t : Slots φ}
    (hcount : t.count = w.slots.count+1) (horder : t.order = w.slots.order)
    (harray : t.array = update w.slots.array pool.id (some pool)) {funcs : φ}
    (hfuncs : t.funcs = update w.slots.funcs pool.id (some funcs)) :
    ∃ u, t.insertLocal pool = some u ∧ Inv ⟨u,w.live++[pool]⟩ := by
  obtain ⟨l,hl⟩ := hw.listed
  have hne : ∀ p ∈ l, p.id ≠ pool.id := fun p hp => by
    have := hw.id_lt (hl.perm.mem_iff.mp hp)
    omega
  have hentry : ∀ p ∈ l, t.array p.id = some p := fun p hp => by
    rw [harray,update_of_ne (hne p hp),hl.array p hp]
  have hids : (List.range (t.count-1)).map t.order = l.map Pool.id := by
    rw [hcount,Nat.add_sub_cancel,horder,← hl.ids,Slots.ordered]
  have hlength : l.length = w.slots.count := by
    rw [← List.length_map Pool.id,← hl.ids,Slots.ordered,List.length_map,List.length_range]
  obtain ⟨i,hi⟩ : ∃ i, (l.findIdx fun p => p.priority < pool.priority) = i := ⟨_,rfl⟩
  have hle : i ≤ w.slots.count := hlength ▸ hi ▸ List.findIdx_le_length
  have hnot : pool ∉ w.live := fun h => absurd (hw.id_lt h) (by omega)
  refine ⟨{t with order := place t.order (t.count-1) i (t.count-1)},?_,?_,?_⟩
  · rw [Slots.insertLocal,hids,position_eq hentry,hi,Option.map_some]
  · rw [List.map_append,hw.live,List.map_singleton,hid]
    dsimp only
    rw [hcount,List.range_succ]
  refine ⟨FusionVector.insert l pool i,?_,?_,?_,?_,?_,?_⟩
  · exact (FusionVector.insert_perm l pool i).trans
      ((hl.perm.cons pool).trans (List.perm_append_singleton _ _).symm)
  · rw [(FusionVector.insert_perm l pool i).nodup_iff]
    exact List.nodup_cons.mpr ⟨fun h => hnot (hl.perm.mem_iff.mp h),hl.nodup⟩
  · exact hi ▸ insert_sorted hl.sorted hl.perm hnot
  · rw [Slots.ordered]
    dsimp only
    rw [hcount,Nat.add_sub_cancel,map_place hle,horder,
      show (List.range w.slots.count).map w.slots.order = _ from hl.ids,← hid,FusionVector.insert,
      FusionVector.insert,List.map_append,List.map_cons,List.map_take,
      List.map_drop]
  · intro p hp
    rcases List.mem_cons.mp ((FusionVector.insert_perm l pool i).mem_iff.mp hp) with rfl | hp
    · exact (congrFun harray _).trans (update_self _ _ _)
    · exact hentry p hp
  · intro p hp
    dsimp only
    rw [hfuncs]
    rcases List.mem_cons.mp ((FusionVector.insert_perm l pool i).mem_iff.mp hp) with rfl | hp
    · rw [update_self,Option.isSome_some]
    · rw [update_of_ne (hne p hp)]
      exact hl.funcs p hp

theorem trim_of_isSome (h : ∀ m, n = m+1 → (array m).isSome) : trim array n order = (n,order) := by
  cases n with
  | zero => rfl
  | succ m => rw [trim,Option.isNone_eq_false_iff.mpr (h m rfl),if_neg Bool.false_ne_true]

theorem Inv.eq_append (hw : Inv w) (hp : pool ∈ w.live) (hlast : pool.id+1 = w.slots.count) :
    ∃ live, w.live = live++[pool] ∧ live.map Pool.id = List.range pool.id := by
  have hmap := hw.live
  rw [← hlast,List.range_succ,List.map_eq_append_iff] at hmap
  obtain ⟨live,rest,hlive,hids,hrest⟩ := hmap
  obtain ⟨q,rfl,hq⟩ := List.map_eq_singleton_iff.mp hrest
  rw [hlive,List.mem_append,List.mem_singleton] at hp
  rcases hp with hp | rfl
  · have := List.mem_map_of_mem (f := Pool.id) hp
    rw [hids,List.mem_range] at this
    exact absurd this (lt_irrefl _)
  · exact ⟨live,hlive,hids⟩

theorem removeLocal_spec (hw : Inv w) (hp : pool ∈ w.live) (hlast : pool.id+1 = w.slots.count) :
    Inv ⟨w.slots.removeLocal pool.id,w.live.erase pool⟩ := by
  obtain ⟨l,hl⟩ := hw.listed
  obtain ⟨live,hlive,hids⟩ := hw.eq_append hp hlast
  have hlt : ∀ p ∈ live, p.id < pool.id := fun p hp => by
    rw [← List.mem_range,← hids]
    exact List.mem_map_of_mem hp
  have hnot : pool ∉ live := fun h => lt_irrefl _ (hlt _ h)
  have herase : w.live.erase pool = live := by
    rw [hlive,List.erase_append_right _ hnot,List.erase_cons_head,List.append_nil]
  -- the pool in the list, and the others
  obtain ⟨l₁,l₂,rfl⟩ := List.append_of_mem (hl.perm.mem_iff.mpr hp)
  have hperm : (l₁++l₂).Perm live := by
    have h := List.perm_middle.symm.trans (hl.perm.trans (hlive ▸ List.perm_append_singleton _ _))
    exact h.cons_inv
  have hmem : ∀ p ∈ l₁++l₂, p ∈ l₁++pool::l₂ := fun p hp =>
    List.perm_middle.mem_iff.mpr (List.mem_cons_of_mem _ hp)
  have hothers : ∀ p ∈ l₁++l₂, p.id ≠ pool.id := fun p hp =>
    (hlt p (hperm.mem_iff.mp hp)).ne
  have hnone : update w.slots.array pool.id none pool.id = none :=
    update_self _ _ _
  have hstop : ∀ m, pool.id = m+1 → (update w.slots.array pool.id none m).isSome := by
    intro m hm
    have hmap : m ∈ live.map Pool.id := by rw [hids,List.mem_range]; omega
    obtain ⟨p,hp,rfl⟩ := List.mem_map.mp hmap
    have hp := hperm.mem_iff.mpr hp
    rw [update_of_ne (hothers p hp),hl.array p (hmem p hp),Option.isSome_some]
  have hremove : w.slots.removeLocal pool.id = ⟨pool.id,update w.slots.array pool.id none,
      update w.slots.funcs pool.id none,closeGap w.slots.order pool.id pool.id⟩ := by
    rw [Slots.removeLocal,← hlast]
    dsimp only
    rw [trim,hnone,Option.isNone_none,if_pos rfl,trim_of_isSome hstop]
  rw [hremove,herase]
  refine ⟨hids,l₁++l₂,hperm,?_,?_,?_,fun p hp => ?_,fun p hp => ?_⟩
  · exact (List.perm_middle.nodup_iff.mp hl.nodup).of_cons
  · have hsorted := hl.sorted.sublist (List.Sublist.append_left (List.sublist_cons_self pool l₂) l₁)
    refine hsorted.imp_of_mem fun hp hq h => ?_
    rwa [hlive,before_append (hperm.mem_iff.mp hp) (hperm.mem_iff.mp hq)] at h
  · have hordered := hl.ids
    rw [Slots.ordered,← hlast] at hordered
    have hin : pool.id ∈ (List.range (pool.id+1)).map w.slots.order := by
      rw [hordered]
      exact List.mem_map_of_mem (List.mem_append_right _ List.mem_cons_self)
    have hfront : pool.id ∉ l₁.map Pool.id := fun h => by
      obtain ⟨p,hp,he⟩ := List.mem_map.mp h
      exact hothers p (List.mem_append_left _ hp) he
    refine (map_closeGap hin).trans ?_
    rw [hordered,List.map_append,List.map_cons,List.erase_append_right _ hfront,
      List.erase_cons_head,← List.map_append]
  · exact (update_of_ne (hothers p hp) _ _).trans (hl.array p (hmem p hp))
  · dsimp only
    rw [update_of_ne (hothers p hp)]
    exact hl.funcs p (hmem p hp)

/-- A failure that wrote to the free slot changes nothing of the others. -/
theorem Inv.congr (hw : Inv w) {t : Slots φ} (hcount : t.count = w.slots.count)
    (horder : t.order = w.slots.order)
    (harray : ∀ k < w.slots.count, t.array k = w.slots.array k)
    (hfuncs : ∀ k < w.slots.count, t.funcs k = w.slots.funcs k) : Inv ⟨t,w.live⟩ := by
  obtain ⟨l,hl⟩ := hw.listed
  have hlt : ∀ p ∈ l, p.id < w.slots.count := fun p hp => hw.id_lt (hl.perm.mem_iff.mp hp)
  refine ⟨hcount ▸ hw.live,l,hl.perm,hl.nodup,hl.sorted,?_,fun p hp => ?_,fun p hp => ?_⟩
  · rw [Slots.ordered]
    dsimp only
    rw [hcount,horder,← hl.ids,Slots.ordered]
  · exact (harray _ (hlt p hp)).trans (hl.array p hp)
  · dsimp only
    rw [hfuncs _ (hlt p hp)]
    exact hl.funcs p hp

theorem initialize2_spec (kind : Kind) (hw : Inv w) (funcs : φ) (memory : Bool) (init : Except Failure ℤ) :
    ∃ r, w.slots.initialize2 kind funcs memory init = some r ∧ Inv (w.add r) := by
  unfold Slots.initialize2
  by_cases hlimit : w.slots.count = kind.limit
  · exact ⟨_,if_pos hlimit,hw⟩
  rw [if_neg hlimit]
  cases memory with
  | false => exact ⟨_,rfl,hw⟩
  | true =>
    cases init with
    | error failure =>
      exact ⟨_,rfl,hw.congr rfl rfl (fun k hk => update_of_ne hk.ne _ _)
        fun k hk => update_of_ne hk.ne _ _⟩
    | ok priority =>
      obtain ⟨u,hu,hinv⟩ := insert_spec hw (Pool.mk w.slots.count priority) rfl (t := {w.slots with
        count := w.slots.count+1
        funcs := update w.slots.funcs w.slots.count (some funcs)
        array := update w.slots.array w.slots.count (some ⟨w.slots.count,priority⟩)})
        rfl rfl rfl rfl
      refine ⟨(u,.ok ⟨w.slots.count,priority⟩),?_,hinv⟩
      exact congrArg (Option.map (·,Except.ok (Pool.mk w.slots.count priority))) hu

theorem join_spec (kind : Kind) (hw : Inv w) (pool : Pool) (funcs : φ) (memory : Bool)
    (joined : Except Failure Unit) :
    ∃ r, w.slots.join kind pool funcs memory joined = some r ∧ Inv (w.add r) := by
  rw [Slots.join]
  by_cases hid : pool.id ≠ w.slots.count
  · exact ⟨_,if_pos hid,hw⟩
  rw [if_neg hid]
  rw [not_not] at hid
  have hmax : max w.slots.count (pool.id+1) = w.slots.count+1 := by omega
  cases memory with
  | false => exact ⟨_,rfl,hw⟩
  | true =>
    cases joined with
    | error failure =>
      have hne : ∀ k < w.slots.count, k ≠ pool.id := fun k hk => by omega
      cases kind with
      | pool =>
        refine ⟨_,rfl,hw.congr ?_ rfl (fun k hk => ?_) fun k hk => ?_⟩
        · exact (congrArg (·-1) hmax).trans rfl
        · exact update_of_ne (hne k hk) _ _
        · exact update_of_ne (hne k hk) _ _
      | bridge =>
        refine ⟨_,rfl,hw.congr ?_ rfl (fun k hk => ?_) fun k hk => ?_⟩
        · exact (congrArg (·-1) hmax).trans rfl
        · exact (update_of_ne (hne k hk) _ _).trans (update_of_ne (hne k hk) _ _)
        · exact (update_of_ne (hne k hk) _ _).trans (update_of_ne (hne k hk) _ _)
    | ok done =>
      obtain ⟨u,hu,hinv⟩ := insert_spec hw pool hid (t := {w.slots with
        count := max w.slots.count (pool.id+1)
        funcs := update w.slots.funcs pool.id (some funcs)
        array := update w.slots.array pool.id (some pool)}) hmax rfl rfl rfl
      refine ⟨(u,.ok pool),?_,hinv⟩
      exact congrArg (Option.map (·,Except.ok pool)) hu

/-- With an empty slot below the counter, the order still has the id of a pool that is gone. -/
theorem not_consistent_of_gap (hw : Inv w) (hp : pool ∈ w.live)
    (hlast : pool.id+1 ≠ w.slots.count) {live : List Pool} :
    ¬ Consistent ⟨w.slots.removeLocal pool.id,live⟩ := by
  obtain ⟨l,hl⟩ := hw.listed
  have hlt := hw.id_lt hp
  obtain ⟨n,hn⟩ : ∃ n, w.slots.count = n+1 := ⟨w.slots.count-1,by omega⟩
  -- the last slot is in use
  have hstop : ∀ m, w.slots.count = m+1 → (update w.slots.array pool.id none m).isSome := by
    intro m hm
    have hmap : m ∈ w.live.map Pool.id := by rw [hw.live,List.mem_range]; omega
    obtain ⟨p,hp,rfl⟩ := List.mem_map.mp hmap
    rw [update_of_ne (by omega),hl.array p (hl.perm.mem_iff.mpr hp),Option.isSome_some]
  have hremove : w.slots.removeLocal pool.id = ⟨w.slots.count,
      update w.slots.array pool.id none,update w.slots.funcs pool.id none,
      w.slots.order⟩ := by
    rw [Slots.removeLocal]
    dsimp only
    rw [trim_of_isSome hstop]
  rintro ⟨l',hl',-⟩
  have hids := hl'.ids
  rw [hremove] at hids
  replace hids : w.slots.ordered = l'.map Pool.id := hids
  rw [hl.ids] at hids
  have hin : pool.id ∈ l'.map Pool.id := by
    rw [← hids]
    exact List.mem_map_of_mem (hl.perm.mem_iff.mpr hp)
  obtain ⟨p,hp,he⟩ := List.mem_map.mp hin
  have harray := hl'.array p hp
  rw [hremove,he] at harray
  simp at harray

theorem leave_spec (hw : Inv w) (hp : pool ∈ w.live) :
    w.slots.leave pool = some (w.slots.removeLocal pool.id) := by
  obtain ⟨l,hl⟩ := hw.listed
  obtain ⟨funcs,hf⟩ := Option.isSome_iff_exists.mp (hl.funcs pool (hl.perm.mem_iff.mpr hp))
  rw [Slots.leave,hf,Option.map_some]

theorem Inv.consistent (hw : Inv w) : Consistent w := by
  obtain ⟨l,hl⟩ := hw.listed
  exact hl.consistent

/-- Each call is defined, and keeps the invariant if and only if it keeps the order consistent,
which is to say that a pool that it takes away is the last one. -/
theorem step_spec (hw : Inv w) {call : Call φ} (hcall : Possible kind w call) :
    ∃ v, step kind w call = some v ∧ (Last w call → Inv v) ∧ (Consistent v → Last w call) := by
  have hdrop : ∀ pool ∈ w.live, ∃ v, (w.slots.leave pool).map (w.drop pool) = some v ∧
      (pool.id+1 = w.slots.count → Inv v) ∧ (Consistent v → pool.id+1 = w.slots.count) := by
    intro pool hp
    refine ⟨_,by rw [leave_spec hw hp]; rfl,removeLocal_spec hw hp,fun h => ?_⟩
    by_contra hlast
    exact not_consistent_of_gap hw hp hlast h
  cases call with
  | initialize2 funcs memory init =>
    obtain ⟨r,hr,hinv⟩ := initialize2_spec kind hw funcs memory init
    exact ⟨w.add r,congrArg (Option.map w.add) hr,fun _ => hinv,fun _ => trivial⟩
  | join pool funcs memory joined =>
    obtain ⟨r,hr,hinv⟩ := join_spec kind hw pool funcs memory joined
    exact ⟨w.add r,congrArg (Option.map w.add) hr,fun _ => hinv,fun _ => trivial⟩
  | destroy pool => exact hdrop pool hcall
  | leave pool => exact hdrop pool hcall

end

def Orderly (kind : Kind) (w : World φ) (call : Call φ) : Prop := Possible kind w call ∧ Last w call

instance (kind : Kind) (w : World φ) : DecidablePred (Orderly kind w)
  | .initialize2 _ _ _ => .isTrue ⟨trivial,trivial⟩
  | .join pool _ _ _ => decidable_of_iff (pool.id < kind.limit) (and_iff_left trivial).symm
  | .destroy pool => inferInstanceAs (Decidable (pool ∈ w.live ∧ pool.id+1 = w.slots.count))
  | .leave pool => inferInstanceAs (Decidable (pool ∈ w.live ∧ pool.id+1 = w.slots.count))

/-- In every run in which only the last pool is destroyed or left, the order is consistent, and
the next call is defined and keeps it so if and only if it takes away no other pool. -/
theorem orderly_iff_consistent {kind : Kind} {w : World φ}
    (hw : Reaches (step kind) (Orderly kind) Initial w) :
    Consistent w ∧ ∀ call, Possible kind w call →
      ∃ v, step kind w call = some v ∧ (Consistent v ↔ Last w call) := by
  have hinv : Inv w := by
    refine hw.invariant Inv (fun s hs => ?_) fun s call t hs hok hst => ?_
    · obtain ⟨hcount,-,-,hlive⟩ := hs
      refine ⟨by rw [hlive,hcount]; rfl,[],?_⟩
      constructor
      all_goals simp [hlive,hcount,Slots.ordered]
    · obtain ⟨v,hv,hkeeps,-⟩ := step_spec hs hok.1
      obtain rfl : v = t := Option.some.inj (hv.symm.trans hst)
      exact hkeeps hok.2
  refine ⟨hinv.consistent,fun call hcall => ?_⟩
  obtain ⟨v,hv,hkeeps,hlast⟩ := step_spec hinv hcall
  exact ⟨v,hv,hlast,fun h => (hkeeps h).consistent⟩

def nothing : World Unit := ⟨⟨0,fun _ => none,fun _ => none,fun _ => 0⟩,[]⟩

theorem nothing_initial : Initial nothing := ⟨rfl,fun _ => rfl,fun _ => rfl,rfl⟩

def runs : List (Call Unit) :=
  [.initialize2 () true (.ok 0),.initialize2 () true (.error (.driver 1)),
    .initialize2 () true (.ok 5),.leave ⟨1,5⟩,.initialize2 () true (.ok 3),
    .join ⟨2,3⟩ () true (.ok ())]

theorem orderly_iff_consistent_joined : ∃ w,
    execOk (step .pool) (Orderly .pool) nothing runs = some w ∧
    w.slots.ordered = [1,2,0] ∧ Consistent w := by
  obtain ⟨w,hw⟩ := Option.isSome_iff_exists.mp
    (show (execOk (step .pool) (Orderly .pool) nothing runs).isSome by rfl)
  have hordered : (execOk (step .pool) (Orderly .pool) nothing runs).map (·.slots.ordered) =
      some [1,2,0] := by rfl
  rw [hw] at hordered
  exact ⟨w,hw,Option.some.inj hordered,
    (orderly_iff_consistent (Reaches.exec_ok (.init nothing_initial) hw)).1⟩

/-- The first of two pools is destroyed, and its id stays in the order. -/
theorem dead_id_in_order : ¬ ∀ w : World Unit,
    Reaches (step .pool) (Possible .pool) Initial w → Consistent w := by
  intro h
  have hone : Reaches (step .pool) (Possible .pool) Initial _ :=
    .step (.initialize2 () true (.ok 0)) (.init nothing_initial) trivial rfl
  have htwo : Reaches (step .pool) (Possible .pool) Initial _ :=
    .step (.initialize2 () true (.ok 0)) hone trivial rfl
  have hgone : Reaches (step .pool) (Possible .pool) Initial _ :=
    .step (.destroy ⟨0,0⟩) htwo (show Pool.mk 0 0 ∈ [Pool.mk 0 0,Pool.mk 1 0] by decide) rfl
  obtain ⟨l,hl,-⟩ := h _ hgone
  have hin : 0 ∈ l.map Pool.id := by
    rw [← hl.ids]
    decide
  obtain ⟨p,hp,hid⟩ := List.mem_map.mp hin
  have hentry := hl.array p hp
  rw [hid] at hentry
  cases hentry

end DirectFB.SurfacePoolOrder
