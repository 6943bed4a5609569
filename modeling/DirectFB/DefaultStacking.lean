import DirectFB.FusionVector
import DirectFB.WindowStack

/-! The stacking order of the default window manager: where windows are inserted, and where they
end when they are restacked. -/
namespace DirectFB.DefaultStacking
open Function (update update_apply update_of_ne update_self)
open Transition FusionVector
open WindowStack (StackingClass)

/-- `data->windows`, and of each window if `CWF_INSERTED` is set, `config.stacking` and the
priority in its `WindowData`. -/
structure State (ω : Type*) where
  windows : List ω
  inserted : ω → Bool
  stacking : ω → StackingClass
  priority : ω → ℤ

variable {ω : Type*} [DecidableEq ω]

/-- `insert_window`, where the vector has room or not, which is not looked at. -/
def insertWindow (x : State ω) (w : ω) (room : Bool) : State ω :=
  let index := x.windows.findIdx fun other => x.priority other > x.priority w
  {x with
    windows := if room then insert x.windows w index else x.windows
    inserted := update x.inserted w true}

def setStacking (x : State ω) (w : ω) (stacking : StackingClass) : State ω :=
  {x with
    stacking := update x.stacking w stacking
    priority := update x.priority w stacking.priority}

/-- `wm_add_window` -/
def addWindow (x : State ω) (w : ω) (stacking : StackingClass) (room : Bool) : State ω :=
  insertWindow (setStacking x w stacking) w room

/-- `remove_window`, of a window in the vector. -/
def removeWindow (x : State ω) (w : ω) : Option (State ω) :=
  (indexOf x.windows w).map fun index => {x with
    windows := remove x.windows index
    inserted := update x.inserted w false}

/-- The index that `restack_window` is asked for. -/
def desired (l : List ω) (old : ℕ) (relative : Option ω) (relation : ℤ) : Option ℕ :=
  match relative with
  | some relative => (indexOf l relative).map fun index =>
    let index : ℤ := if relation > 0 then (if old < index then index-1 else index)
      else if relation < 0 then (if old > index then index+1 else index)
      else index
    let index := index+relation
    if index < 0 then 0 else if index > l.length-1 then l.length-1 else index.toNat
  | none => some (if relation ≠ 0 then l.length-1 else 0)

def priorityAt (x : State ω) (i : ℕ) : ℤ := (x.windows[i]?.map x.priority).getD 0

def sink (x : State ω) (priority : ℤ) (old : ℕ) : ℕ → ℕ
  | 0 => 0
  | i+1 =>
    if priority < priorityAt x (if old < i+1 then i+1 else i) then sink x priority old i else i+1

def rise (x : State ω) (priority : ℤ) (old : ℕ) : ℕ → ℕ → ℕ
  | 0, i => i
  | n+1, i =>
    if priority > priorityAt x (if old > i then i else i+1) then rise x priority old n (i+1) else i

def settle (x : State ω) (w : ω) (old index : ℕ) : ℕ :=
  let index := sink x (x.priority w) old index
  rise x (x.priority w) old (x.windows.length-1-index) index

/-- `restack_window` -/
def restackWindow (x : State ω) (w : ω) (relative : Option ω) (relation : ℤ)
    (stacking : StackingClass) : Option (State ω) :=
  let x := if stacking ≠ x.stacking w then setStacking x w stacking else x
  (indexOf x.windows w).bind fun old =>
    (desired x.windows old relative relation).map fun index =>
      let index := settle x w old index
      if index = old then x else {x with windows := move x.windows old index}

inductive Event (ω : Type*)
  | add (w : ω) (stacking : StackingClass) (room : Bool)
  | remove (w : ω)
  | restack (w : ω) (relative : Option ω) (relation : ℤ) (stacking : StackingClass)

def step (x : State ω) : Event ω → Option (State ω)
  | .add w stacking room => if x.inserted w then none else some (addWindow x w stacking room)
  | .remove w => removeWindow x w
  | .restack w relative relation stacking =>
    if relative = none ∨ relative = some w ∨ relation ≠ 0 then
      restackWindow x w relative relation stacking
    else none

def Event.window : Event ω → ω
  | .add w _ _ => w
  | .remove w => w
  | .restack w _ _ _ => w

def Roomy (_ : State ω) : Event ω → Prop
  | .add _ _ room => room = true
  | _ => True

instance (x : State ω) : DecidablePred (Roomy x)
  | .add _ _ room => inferInstanceAs (Decidable (room = true))
  | .remove _ => .isTrue trivial
  | .restack _ _ _ _ => .isTrue trivial

def Initial (x : State ω) : Prop := x.windows = [] ∧ ∀ w, x.inserted w = false

def Sorted (priority : ω → ℤ) (l : List ω) : Prop := l.Pairwise fun v w => priority v ≤ priority w

/-- The windows that were inserted, each once, in the order of their priorities. -/
structure Ordered (x : State ω) : Prop where
  nodup : x.windows.Nodup
  inserted : ∀ w, w ∈ x.windows ↔ x.inserted w
  sorted : Sorted x.priority x.windows
  priority : ∀ w ∈ x.windows, x.priority w = (x.stacking w).priority

section
variable {x y : State ω} {w : ω} {l : List ω} {priority : ω → ℤ} {old i k n : ℕ}

omit [DecidableEq ω] in
/-- A list with a window at an index is sorted if the list is, and the neighbours fit. -/
theorem insert_sorted (hl : Sorted priority l) (hi : i ≤ l.length)
    (hbelow : ∀ o, 0 < i → l[i-1]? = some o → priority o ≤ priority w)
    (habove : ∀ o, l[i]? = some o → priority w ≤ priority o) :
    Sorted priority (insert l w i) := by
  have hpair := List.pairwise_iff_getElem.mp hl
  refine insert_pairwise.mpr ⟨hl,fun o ho => ?_,fun o ho => ?_⟩
  · obtain ⟨k,hk,rfl⟩ := List.getElem_of_mem ho
    rw [List.length_take] at hk
    rw [List.getElem_take]
    have hlast := hbelow _ (by omega) (List.getElem?_eq_getElem (by omega : i-1 < l.length))
    rcases eq_or_lt_of_le (by omega : k ≤ i-1) with rfl | hlt
    · exact hlast
    · exact (hpair k (i-1) (by omega) (by omega) hlt).trans hlast
  · obtain ⟨k,hk,rfl⟩ := List.getElem_of_mem ho
    rw [List.length_drop] at hk
    rw [List.getElem_drop]
    have hfirst := habove _ (List.getElem?_eq_getElem (by omega : i < l.length))
    rcases Nat.eq_zero_or_pos k with rfl | hlt
    · exact hfirst
    · exact hfirst.trans (hpair i (i+k) (by omega) (by omega) (by omega))

omit [DecidableEq ω] in
theorem le_of_insert_sorted (h : Sorted priority (insert l w i)) {o : ω} (ho : l[k]? = some o)
    (hlt : priority w < priority o) : i ≤ k := by
  by_contra hik
  obtain ⟨-,hbelow,-⟩ := insert_pairwise.mp h
  have htake : (l.take i)[k]? = some o := by
    rw [List.getElem?_take_of_lt (not_le.mp hik),ho]
  have := hbelow o (List.mem_of_getElem? htake)
  omega

omit [DecidableEq ω] in
theorem lt_of_insert_sorted (h : Sorted priority (insert l w i)) {o : ω} (ho : l[k]? = some o)
    (hlt : priority o < priority w) : k < i := by
  by_contra hik
  obtain ⟨-,-,habove⟩ := insert_pairwise.mp h
  have hdrop : (l.drop i)[k-i]? = some o := by
    rw [List.getElem?_drop,← ho]
    congr 1
    omega
  have := habove o (List.mem_of_getElem? hdrop)
  omega

theorem priorityAt_other (hold : old < x.windows.length) (i : ℕ) :
    priorityAt x (if old < i+1 then i+1 else i) =
      ((remove x.windows old)[i]?.map x.priority).getD 0 := by
  rw [priorityAt,getElem?_remove hold]
  congr 2
  split_ifs <;> first | rfl | omega

theorem sink_spec (hold : old < x.windows.length) (p : ℤ) (i : ℕ) : sink x p old i ≤ i ∧
    (∀ o, 0 < sink x p old i → (remove x.windows old)[sink x p old i-1]? = some o →
      x.priority o ≤ p) ∧
    ∀ k o, sink x p old i ≤ k → k < i → (remove x.windows old)[k]? = some o → p < x.priority o := by
  induction i with
  | zero => exact ⟨le_rfl,fun o h => absurd h (lt_irrefl 0),fun k o _ hk => by omega⟩
  | succ i ih =>
    obtain ⟨h1,h2,h3⟩ := ih
    rw [sink,priorityAt_other hold]
    split_ifs with hlt
    · refine ⟨by omega,h2,fun k o hk hki ho => ?_⟩
      rcases eq_or_lt_of_le (Nat.lt_succ_iff.mp hki) with rfl | hki
      · rw [ho] at hlt
        exact hlt
      · exact h3 k o hk hki ho
    · refine ⟨le_rfl,fun o _ ho => ?_,fun k o hk hki => by omega⟩
      rw [Nat.add_sub_cancel] at ho
      rw [ho] at hlt
      exact not_lt.mp hlt

theorem rise_spec (hold : old < x.windows.length) (p : ℤ) (n i : ℕ) :
    i ≤ rise x p old n i ∧ rise x p old n i ≤ i+n ∧
    (∀ o, rise x p old n i < i+n → (remove x.windows old)[rise x p old n i]? = some o →
      p ≤ x.priority o) ∧
    ∀ k o, i ≤ k → k < rise x p old n i → (remove x.windows old)[k]? = some o → x.priority o < p := by
  induction n generalizing i with
  | zero => exact ⟨le_rfl,le_rfl,fun o h => absurd h (lt_irrefl _),fun k o hk hki => by
      rw [rise] at hki
      omega⟩
  | succ n ih =>
    have hindex : (if old > i then i else i+1) = if old < i+1 then i+1 else i := by
      split_ifs <;> omega
    rw [rise,hindex,priorityAt_other hold]
    obtain ⟨h1,h2,h3,h4⟩ := ih (i+1)
    split_ifs with hlt
    · refine ⟨by omega,by omega,fun o h => h3 o (by omega),fun k o hk hki ho => ?_⟩
      rcases eq_or_lt_of_le hk with rfl | hk
      · rw [ho] at hlt
        exact hlt
      · exact h4 k o hk hki ho
    · refine ⟨le_rfl,by omega,fun o _ ho => ?_,fun k o hk hki => by omega⟩
      rw [ho] at hlt
      exact not_lt.mp hlt

def Nearest (priority : ω → ℤ) (others : List ω) (w : ω) (index k : ℕ) : Prop :=
  k ≤ others.length ∧ Sorted priority (insert others w k) ∧
  ∀ i ≤ others.length, Sorted priority (insert others w i) → |(k : ℤ)-index| ≤ |(i : ℤ)-index|

theorem settle_spec (hold : x.windows[old]? = some w)
    (hs : Sorted x.priority (remove x.windows old)) (hi : i < x.windows.length) :
    Nearest x.priority (remove x.windows old) w i (settle x w old i) := by
  have hlt := lt_of_getElem? hold
  have hlength := length_remove hlt
  obtain ⟨h1,h2,h3⟩ := sink_spec hlt (x.priority w) i
  obtain ⟨h4,h5,h6,h7⟩ := rise_spec hlt (x.priority w) (x.windows.length-1-sink x (x.priority w) old i)
    (sink x (x.priority w) old i)
  rw [settle]
  generalize hk : rise x (x.priority w) old (x.windows.length-1-sink x (x.priority w) old i)
    (sink x (x.priority w) old i) = k at h4 h5 h6 h7
  generalize sink x (x.priority w) old i = j at h1 h2 h3 h4 h5 h6 h7
  have hget : ∀ t < (remove x.windows old).length, ∃ o, (remove x.windows old)[t]? = some o :=
    fun t ht => ⟨_,List.getElem?_eq_getElem ht⟩
  have hk' : k ≤ (remove x.windows old).length := by omega
  refine ⟨hk',insert_sorted hs hk' (fun o hpos ho => ?_) fun o ho => ?_,fun i' hi' hsorted => ?_⟩
  · rcases eq_or_lt_of_le h4 with rfl | hjk
    · exact h2 o hpos ho
    · exact (h7 (k-1) o (by omega) (by omega) ho).le
  · have := lt_of_getElem? ho
    exact h6 o (by omega) ho
  · rcases lt_trichotomy k i with hki | rfl | hki
    · -- the window was kept below one of a higher priority
      obtain ⟨o,ho⟩ := hget k (by omega)
      have hle := le_of_insert_sorted hsorted ho (h3 k o h4 hki ho)
      rw [abs_of_nonpos (by omega),abs_of_nonpos (by omega)]
      omega
    · simp
    · -- it was kept above one of a lower priority, and not below another one before
      have hji : j = i := by
        by_contra hne
        obtain ⟨o,ho⟩ := hget j (by omega)
        exact lt_asymm (h3 j o le_rfl (by omega) ho) (h7 j o le_rfl (by omega) ho)
      obtain ⟨o,ho⟩ := hget (k-1) (by omega)
      have hlt := lt_of_insert_sorted hsorted ho (h7 (k-1) o (by omega) (by omega) ho)
      rw [abs_of_nonneg (by omega),abs_of_nonneg (by omega)]
      omega

omit [DecidableEq ω] in
theorem Sorted.congr {q : ω → ℤ} (h : Sorted priority l) (hq : ∀ v ∈ l, q v = priority v) :
    Sorted q l :=
  List.Pairwise.imp_of_mem (fun {a b} ha hb hab => by rw [hq a ha,hq b hb]; exact hab) h

omit [DecidableEq ω] in
theorem Sorted.lt_of_mem_drop (h : Sorted priority l) {p : ℤ}
    (hi : ∀ o, l[i]? = some o → p < priority o) {o : ω} (ho : o ∈ l.drop i) : p < priority o := by
  obtain ⟨k,hk,rfl⟩ := List.getElem_of_mem ho
  rw [List.length_drop] at hk
  rw [List.getElem_drop]
  have hfirst := hi _ (List.getElem?_eq_getElem (by omega : i < l.length))
  rcases Nat.eq_zero_or_pos k with rfl | hlt
  · exact hfirst
  · exact hfirst.trans_le (List.pairwise_iff_getElem.mp h i (i+k) (by omega) (by omega) (by omega))

/-- What an operation keeps and reaches: the others keep their order and priorities, a window that
is added is below windows of a higher priority only, and one that is restacked is as near to
the index that was asked for as it can be. -/
structure Keeps (x y : State ω) (e : Event ω) : Prop where
  order : y.windows.filter (· ≠ e.window) = x.windows.filter (· ≠ e.window)
  others : ∀ v, v ≠ e.window → y.priority v = x.priority v
  added : ∀ w stacking room, e = .add w stacking room →
    ∃ below above, y.windows = below++w::above ∧ ∀ o ∈ above, y.priority w < y.priority o
  restacked : ∀ w relative relation stacking, e = .restack w relative relation stacking →
    ∃ old index k, x.windows[old]? = some w ∧
      desired x.windows old relative relation = some index ∧ y.windows[k]? = some w ∧
      Nearest y.priority (remove x.windows old) w index k

theorem desired_lt {relative : Option ω} {relation : ℤ} {index : ℕ} (hl : l ≠ [])
    (h : desired l old relative relation = some index) : index < l.length := by
  have hpos := List.length_pos_iff.mpr hl
  unfold desired at h
  cases relative with
  | none =>
    simp only [Option.some.injEq] at h
    split_ifs at h <;> omega
  | some v =>
    obtain ⟨i,-,hi⟩ := Option.map_eq_some_iff.mp h
    dsimp only at hi
    split_ifs at hi <;> omega

theorem add_spec (hx : Ordered x) {stacking : StackingClass} (hw : x.inserted w = false) :
    Ordered (addWindow x w stacking true) ∧
      Keeps x (addWindow x w stacking true) (.add w stacking true) := by
  have hnot : w ∉ x.windows := fun h => by
    rw [(hx.inserted w).mp h] at hw
    contradiction
  have hne : ∀ v ∈ x.windows, v ≠ w := fun v hv h => hnot (h ▸ hv)
  generalize hy : addWindow x w stacking true = y
  let q := update x.priority w stacking.priority
  let index := x.windows.findIdx fun other => q other > q w
  have hwindows : y.windows = insert x.windows w index := by rw [← hy]; rfl
  have hpriority : y.priority = q := by rw [← hy]; rfl
  have hinserted : y.inserted = update x.inserted w true := by rw [← hy]; rfl
  have hstacking : y.stacking = update x.stacking w stacking := by rw [← hy]; rfl
  have hperm : y.windows.Perm (w::x.windows) := by
    rw [hwindows]
    exact insert_perm _ _ _
  have hq : ∀ v ∈ x.windows, q v = x.priority v := fun v hv => update_of_ne (hne v hv) _ _
  have hindex : index ≤ x.windows.length := List.findIdx_le_length
  have hbelow : ∀ k o, k < index → x.windows[k]? = some o → q o ≤ q w := by
    intro k o hk ho
    obtain ⟨hlt,rfl⟩ := List.getElem?_eq_some_iff.mp ho
    have := List.not_of_lt_findIdx hk
    simpa using this
  have habove : ∀ o, x.windows[index]? = some o → q w < q o := by
    intro o ho
    obtain ⟨hlt,rfl⟩ := List.getElem?_eq_some_iff.mp ho
    have := List.findIdx_getElem (w := hlt)
    simpa using this
  have hsorted : Sorted q y.windows := by
    rw [hwindows]
    exact insert_sorted (hx.sorted.congr hq) hindex
      (fun o hpos ho => hbelow (index-1) o (by omega) ho) fun o ho => (habove o ho).le
  refine ⟨⟨?_,fun v => ?_,hpriority ▸ hsorted,fun v hv => ?_⟩,⟨?_,fun v hv => ?_,?_,?_⟩⟩
  · rw [hperm.nodup_iff]
    exact List.nodup_cons.mpr ⟨hnot,hx.nodup⟩
  · rw [hperm.mem_iff,List.mem_cons,hx.inserted,hinserted,update_apply]
    split_ifs with hv
    · simp [hv]
    · simp [hv]
  · rw [hpriority,hstacking]
    rcases List.mem_cons.mp (hperm.mem_iff.mp hv) with rfl | hv
    · rw [update_self]
      exact update_self _ _ _
    · rw [hq v hv,update_of_ne (hne v hv),hx.priority v hv]
  · rw [hwindows]
    exact insert_filter (by simp [Event.window])
  · rw [hpriority]
    exact update_of_ne hv _ _
  · intro v stacking' room he
    obtain ⟨rfl,-,-⟩ := Event.add.inj he
    refine ⟨x.windows.take index,x.windows.drop index,hwindows,fun o ho => ?_⟩
    rw [hpriority]
    exact (hx.sorted.congr hq).lt_of_mem_drop habove ho
  · intro v relative relation stacking' he
    cases he

theorem remove_spec (hx : Ordered x) (hy : removeWindow x w = some y) :
    Ordered y ∧ Keeps x y (.remove w) := by
  obtain ⟨index,hindex,rfl⟩ := Option.map_eq_some_iff.mp hy
  have hget := indexOf_getElem? hindex
  have hperm := remove_perm hget
  obtain ⟨hnot,hnodup⟩ := List.nodup_cons.mp (hperm.nodup_iff.mp hx.nodup)
  have hmem : ∀ v, v ∈ remove x.windows index ↔ v ∈ x.windows ∧ v ≠ w := by
    intro v
    rw [hperm.mem_iff,List.mem_cons]
    refine ⟨fun hv => ⟨.inr hv,fun h => hnot (h ▸ hv)⟩,fun hv => hv.1.resolve_left hv.2⟩
  refine ⟨⟨hnodup,fun v => ?_,remove_pairwise hx.sorted,fun v hv => ?_⟩,
    ⟨remove_filter hget (by simp [Event.window]),fun _ _ => rfl,?_,?_⟩⟩
  · dsimp only
    rw [hmem,hx.inserted,update_apply]
    split_ifs with hv
    · simp [hv]
    · simp [hv]
  · exact hx.priority v ((hmem v).mp hv).1
  · intro v stacking room he
    cases he
  · intro v relative relation stacking he
    cases he

theorem setStacking_spec (hx : Ordered x) (w : ω) (stacking : StackingClass) :
    (setStacking x w stacking).windows = x.windows ∧
    (setStacking x w stacking).inserted = x.inserted ∧
    (∀ v, v ≠ w → (setStacking x w stacking).priority v = x.priority v) ∧
    ∀ v ∈ x.windows, (setStacking x w stacking).priority v =
      ((setStacking x w stacking).stacking v).priority := by
  refine ⟨rfl,rfl,fun v hv => update_of_ne hv _ _,fun v hv => ?_⟩
  simp only [setStacking,update_apply]
  split_ifs
  · rfl
  · exact hx.priority v hv

theorem restack_spec (hx : Ordered x) {relative : Option ω} {relation : ℤ}
    {stacking : StackingClass} (hy : restackWindow x w relative relation stacking = some y) :
    Ordered y ∧ Keeps x y (.restack w relative relation stacking) := by
  unfold restackWindow at hy
  dsimp only at hy
  -- the state with the new class
  obtain ⟨z,hz,hwindows,hinserted,hothers,hpriority⟩ : ∃ z,
      (if stacking ≠ x.stacking w then setStacking x w stacking else x) = z ∧
      z.windows = x.windows ∧ z.inserted = x.inserted ∧
      (∀ v, v ≠ w → z.priority v = x.priority v) ∧
      ∀ v ∈ x.windows, z.priority v = (z.stacking v).priority := by
    by_cases hs : stacking ≠ x.stacking w
    · exact ⟨_,if_pos hs,setStacking_spec hx w stacking⟩
    · exact ⟨x,if_neg hs,rfl,rfl,fun _ _ => rfl,hx.priority⟩
  rw [hz] at hy
  obtain ⟨old,hold,hy⟩ := Option.bind_eq_some_iff.mp hy
  obtain ⟨index,hindex,hy⟩ := Option.map_eq_some_iff.mp hy
  rw [hwindows] at hold hindex
  have hget := indexOf_getElem? hold
  have hlt := lt_of_getElem? hget
  have hlength := length_remove hlt
  obtain ⟨hnot,-⟩ := List.nodup_cons.mp ((remove_perm hget).nodup_iff.mp hx.nodup)
  have hsorted : Sorted z.priority (remove x.windows old) :=
    (Sorted.congr (remove_pairwise hx.sorted)) fun v hv => hothers v fun h => hnot (h ▸ hv)
  have hpos := desired_lt (fun h => by rw [h] at hlt; exact absurd hlt (by simp)) hindex
  have hnear : Nearest z.priority (remove x.windows old) w index (settle z w old index) := by
    have := settle_spec (x := z) (hwindows ▸ hget) (hwindows ▸ hsorted) (hwindows ▸ hpos)
    rwa [hwindows] at this
  have hk := hnear.1
  have hin := hnear.2.1
  have hnew : settle z w old index < x.windows.length := by omega
  -- also where nothing is moved
  have hmove : y = {z with windows := move x.windows old (settle z w old index)} := by
    rw [← hy]
    split_ifs with hsame
    · rw [hsame,move,if_pos rfl,← hwindows]
    · rw [hwindows]
  have hperm := move_perm hget hnew
  have hyw : y.windows = move x.windows old (settle z w old index) := by rw [hmove]
  have hyp : y.priority = z.priority := by rw [hmove]
  refine ⟨⟨?_,fun v => ?_,?_,fun v hv => ?_⟩,⟨?_,fun v hv => ?_,?_,?_⟩⟩
  · rw [hyw,hperm.nodup_iff]
    exact hx.nodup
  · rw [hyw,hperm.mem_iff,hx.inserted,hmove,hinserted]
  · rw [hyw,hyp,move_eq hget hnew]
    exact hin
  · rw [hyw,hperm.mem_iff] at hv
    rw [hmove]
    exact hpriority v hv
  · rw [hyw]
    exact move_filter hget hnew (by simp [Event.window])
  · rw [hyp]
    exact hothers v hv
  · intro v stacking' room he
    cases he
  · intro v relative' relation' stacking' he
    obtain ⟨rfl,rfl,rfl,rfl⟩ := Event.restack.inj he
    refine ⟨old,index,settle z w old index,hget,hindex,?_,hyp ▸ hnear⟩
    rw [hyw]
    exact getElem?_move_self hget hnew

theorem step_spec (hx : Ordered x) {e : Event ω} (he : Roomy x e) (hy : step x e = some y) :
    Ordered y ∧ Keeps x y e := by
  cases e with
  | add w stacking room =>
    obtain rfl : room = true := he
    simp only [step,Option.ite_none_left_eq_some,Option.some.injEq,Bool.not_eq_true] at hy
    obtain ⟨hw,rfl⟩ := hy
    exact add_spec hx hw
  | remove w => exact remove_spec hx hy
  | restack w relative relation stacking =>
    simp only [step,Option.ite_none_right_eq_some] at hy
    exact restack_spec hx hy.2

end

/-- In every run in which the vector has room for each window that is added, the windows are
those that were inserted, once each and sorted, and each operation keeps the others in their
order and puts its window where it belongs. -/
theorem stacking_order {x : State ω} (hx : Reaches step Roomy Initial x) :
    Ordered x ∧ ∀ e y, Roomy x e → step x e = some y → Keeps x y e := by
  have hordered : Ordered x := by
    refine hx.invariant Ordered (fun s hs => ?_) fun s e t hs he hst => (step_spec hs he hst).1
    obtain ⟨hw,hi⟩ := hs
    refine ⟨?_,fun w => ?_,?_,?_⟩
    all_goals simp [hw,hi,Sorted]
  exact ⟨hordered,fun e y he hy => (step_spec hordered he hy).2⟩

def restacked : List (Event ℕ) :=
  [.add 1 .lower true,.add 2 .middle true,.add 3 .middle true,.restack 3 none 0 .middle]

def nothing : State ℕ := ⟨[],fun _ => false,fun _ => .middle,fun _ => 0⟩

theorem stacking_order_restacked : ∃ x, execOk step Roomy nothing restacked = some x ∧
    x.windows = [1,3,2] ∧ Ordered x := by
  obtain ⟨x,hx⟩ := Option.isSome_iff_exists.mp
    (show (execOk step Roomy nothing restacked).isSome by rfl)
  have hw : (execOk step Roomy nothing restacked).map State.windows = some [1,3,2] := by rfl
  rw [hx] at hw
  exact ⟨x,hx,Option.some.inj hw,
    (stacking_order (Reaches.exec_ok (.init ⟨rfl,fun _ => rfl⟩) hx)).1⟩

/-- A window for which there was no room is inserted, and in no place. -/
theorem window_lost : ¬ ∀ x : State ℕ, Reaches step (fun _ _ => True) Initial x → Ordered x := by
  intro h
  have hr : Reaches step (fun _ _ => True) Initial (addWindow nothing 1 .middle false) :=
    .step (s := nothing) (.add 1 .middle false) (.init ⟨rfl,fun _ => rfl⟩) trivial rfl
  have hmem := ((h _ hr).inserted 1).mpr rfl
  simp [addWindow,insertWindow,setStacking,nothing] at hmem

end DirectFB.DefaultStacking
