import Mathlib.Tactic

/-! Linear probing with tombstones, over any kind of entry. A table is a list of
slots; every walk starts at a home position, moves one slot at a time and wraps
at the end. `none` from a walk means that it never stops. -/
namespace Probing

variable {α : Type*}

/-- A slot was never used, held an entry that was removed, or holds one. -/
inductive Slot (α : Type*)
  | empty | removed | live (a : α)
  deriving DecidableEq

namespace Slot

def isLive : Slot α → Bool
  | .live _ => true
  | _ => false

def isRemoved : Slot α → Bool
  | .removed => true
  | _ => false

def entry? : Slot α → Option α
  | .live a => some a
  | _ => none

def stopsLookup (p : α → Bool) : Slot α → Bool
  | .empty => true
  | .removed => false
  | .live a => p a

def stopsInsert (p : α → Bool) : Slot α → Bool
  | .live a => p a
  | _ => true

@[simp] theorem isLive_live (a : α) : (Slot.live a).isLive = true := rfl
@[simp] theorem isLive_empty : (Slot.empty : Slot α).isLive = false := rfl
@[simp] theorem isLive_removed : (Slot.removed : Slot α).isLive = false := rfl
@[simp] theorem isRemoved_live (a : α) : (Slot.live a).isRemoved = false := rfl
@[simp] theorem isRemoved_empty : (Slot.empty : Slot α).isRemoved = false := rfl
@[simp] theorem isRemoved_removed : (Slot.removed : Slot α).isRemoved = true := rfl

end Slot

/-- The walk over a ring of `n` positions, up to the first one where it stops. -/
def scan (n : ℕ) (stop : ℕ → Bool) : ℕ → ℕ → Option ℕ
  | 0, _ => none
  | fuel+1, pos =>
    if stop pos then some pos else scan n stop fuel (if pos+1 = n then 0 else pos+1)

theorem next_eq_mod {n pos : ℕ} (h : pos < n) : (if pos+1 = n then 0 else pos+1) = (pos+1)%n := by
  split_ifs with he
  · rw [he,Nat.mod_self]
  · rw [Nat.mod_eq_of_lt (by omega)]

/-- A walk ends at its first stop, counted from where it started. -/
theorem scan_eq_some {n : ℕ} {stop : ℕ → Bool} {fuel p q : ℕ} (hp : p < n) :
    scan n stop fuel p = some q ↔
      ∃ i < fuel, q = (p+i)%n ∧ stop q = true ∧ ∀ j < i, stop ((p+j)%n) = false := by
  induction fuel generalizing p with
  | zero => simp [scan]
  | succ fuel ih =>
    have hn : 0 < n := by omega
    have hp0 : (p+0)%n = p := Nat.mod_eq_of_lt hp
    have shift (i : ℕ) : ((p+1)%n+i)%n = (p+(i+1))%n := by
      rw [Nat.mod_add_mod]; congr 1; omega
    rw [scan,next_eq_mod hp]
    split_ifs with hs
    · constructor
      · rintro h
        obtain rfl := Option.some.inj h
        exact ⟨0,by omega,hp0.symm,hs,by simp⟩
      · rintro ⟨i,-,hq,-,hbefore⟩
        rcases Nat.eq_zero_or_pos i with rfl | hi
        · rw [hq,hp0]
        · have hf := hbefore 0 hi
          rw [hp0,hs] at hf
          contradiction
    · rw [ih (Nat.mod_lt _ hn)]
      constructor
      · rintro ⟨i,hi,hq,hstop,hbefore⟩
        refine ⟨i+1,by omega,by rw [hq,shift],hstop,?_⟩
        intro j hj
        cases j with
        | zero => rw [hp0]; simpa using hs
        | succ j => rw [← shift]; exact hbefore j (by omega)
      · rintro ⟨i,hi,hq,hstop,hbefore⟩
        cases i with
        | zero => rw [hq,hp0] at hstop; contradiction
        | succ i =>
          refine ⟨i,by omega,by rw [hq,shift],hstop,?_⟩
          intro j hj
          rw [shift]; exact hbefore (j+1) (by omega)

theorem scan_congr {n : ℕ} {stop stop' : ℕ → Bool} (h : ∀ q < n, stop q = stop' q) {fuel p : ℕ}
    (hp : p < n) : scan n stop fuel p = scan n stop' fuel p := by
  induction fuel generalizing p with
  | zero => rfl
  | succ fuel ih =>
    rw [scan,scan,h p hp,ih (by split_ifs <;> omega)]

theorem exists_offset {n p q : ℕ} (hp : p < n) (hq : q < n) : ∃ i < n, q = (p+i)%n := by
  rcases Nat.lt_or_ge q p with h | h
  · exact ⟨q+n-p,by omega,by rw [show p+(q+n-p) = q+n by omega,Nat.add_mod_right,Nat.mod_eq_of_lt hq]⟩
  · exact ⟨q-p,by omega,by rw [show p+(q-p) = q by omega,Nat.mod_eq_of_lt hq]⟩

theorem scan_isSome {n : ℕ} {stop : ℕ → Bool} {p q : ℕ} (hp : p < n) (hq : q < n)
    (hs : stop q = true) : ∃ r, scan n stop n p = some r := by
  obtain ⟨i,hi,rfl⟩ := exists_offset hp hq
  have hex : ∃ i, i < n ∧ stop ((p+i)%n) = true := ⟨i,hi,hs⟩
  classical
  refine ⟨(p+Nat.find hex)%n,(scan_eq_some hp).mpr
    ⟨Nat.find hex,(Nat.find_spec hex).1,rfl,(Nat.find_spec hex).2,?_⟩⟩
  intro j hj
  have hmin := Nat.find_min hex hj
  have hlt := (Nat.find_spec hex).1
  simpa [show j < n by omega] using hmin

def find (t : List (Slot α)) (stop : Slot α → Bool) (home : ℕ) : Option ℕ :=
  scan t.length (fun pos => (t[pos]?).any stop) t.length (home%t.length)

theorem find_eq_some {t : List (Slot α)} {stop : Slot α → Bool} {home q : ℕ} :
    find t stop home = some q ↔
      ∃ i < t.length, q = (home+i)%t.length ∧ (∃ s, t[q]? = some s ∧ stop s = true) ∧
        ∀ j < i, ∀ s, t[(home+j)%t.length]? = some s → stop s = false := by
  rcases Nat.eq_zero_or_pos t.length with h0 | hpos
  · simp [find,h0,scan]
  · rw [find,scan_eq_some (Nat.mod_lt _ hpos)]
    simp only [Nat.mod_add_mod,Option.any_eq_true,Option.any_eq_false]

theorem find_lt {t : List (Slot α)} {stop : Slot α → Bool} {home q : ℕ}
    (h : find t stop home = some q) : q < t.length := by
  obtain ⟨i,hi,rfl,-⟩ := find_eq_some.mp h
  exact Nat.mod_lt _ (by omega)

theorem find_isSome {t : List (Slot α)} (stop : Slot α → Bool) (home : ℕ) {s : Slot α}
    (hs : s ∈ t) (hstop : stop s = true) : ∃ q, find t stop home = some q := by
  obtain ⟨q,hq⟩ := List.mem_iff_getElem?.mp hs
  have hlt : q < t.length := (List.getElem?_eq_some_iff.mp hq).1
  exact scan_isSome (Nat.mod_lt _ (by omega)) hlt (by simp [hq,hstop])

/-- Every entry can be walked to from its home without meeting an empty slot,
and no two entries are the same for the table's users. -/
structure Table (home : α → ℕ) (same : α → α → Prop) (t : List (Slot α)) : Prop where
  reach : ∀ (q : ℕ) (a : α), t[q]? = some (.live a) → ∃ i < t.length, q = (home a+i)%t.length ∧
    ∀ j < i, t[(home a+j)%t.length]? ≠ some .empty
  unique : ∀ (q q' : ℕ) (a a' : α), t[q]? = some (.live a) → t[q']? = some (.live a') →
    same a a' → q = q'

section Table

variable {home : α → ℕ} {same : α → α → Prop} {t : List (Slot α)} {p : α → Bool} {h : ℕ}

theorem Table.replicate_empty (home : α → ℕ) (same : α → α → Prop) (n : ℕ) :
    Table home same (List.replicate n .empty) where
  reach q a hq := by simp [List.getElem?_replicate] at hq
  unique q q' a a' hq := by simp [List.getElem?_replicate] at hq

/-- While an empty slot is left, a lookup ends, at the entry if there is one. -/
theorem Table.lookup (ht : Table home same t) (hempty : Slot.empty ∈ t)
    (hp : ∀ a, p a = true → home a = h) :
    ∃ q, find t (Slot.stopsLookup p) h = some q ∧ ((∃ a, t[q]? = some (.live a) ∧ p a = true) ∨
        (t[q]? = some .empty ∧ ∀ a, Slot.live a ∈ t → p a = false)) := by
  obtain ⟨q,hq⟩ := find_isSome (Slot.stopsLookup p) h hempty rfl
  refine ⟨q,hq,?_⟩
  obtain ⟨i,hi,rfl,⟨s,hs,hstop⟩,hbefore⟩ := find_eq_some.mp hq
  cases s with
  | removed => contradiction
  | live a => exact .inl ⟨a,hs,hstop⟩
  | empty =>
    refine .inr ⟨hs,fun a ha => ?_⟩
    by_contra hpa
    rw [Bool.not_eq_false] at hpa
    obtain ⟨q',hq'⟩ := List.mem_iff_getElem?.mp ha
    obtain ⟨i',-,rfl,hfull⟩ := ht.reach q' a hq'
    rw [hp a hpa] at hq' hfull
    -- The entry is neither in front of the empty slot nor behind it.
    rcases Nat.lt_trichotomy i i' with hlt | rfl | hgt
    · exact hfull i hlt hs
    · rw [hs] at hq'; simp at hq'
    · have hf := hbefore i' hgt _ hq'
      simp [Slot.stopsLookup,hpa] at hf

def Clear (t : List (Slot α)) (p : α → Bool) (h : ℕ) : Prop :=
  ∀ i < t.length, (∃ a, t[(h+i)%t.length]? = some (.live a) ∧ p a = true) →
    ∀ j < i, t[(h+j)%t.length]? ≠ some .removed

/-- With no tombstone in its way, an insertion finds the entry if there is one,
and otherwise a slot it can use. -/
theorem Table.insert_walk (ht : Table home same t) (hclear : Clear t p h)
    (hp : ∀ a, p a = true → home a = h) {q : ℕ} (hq : find t (Slot.stopsInsert p) h = some q) :
    (∃ a, t[q]? = some (.live a) ∧ p a = true) ∨
      ((t[q]? = some .empty ∨ t[q]? = some .removed) ∧ ∀ a, Slot.live a ∈ t → p a = false) := by
  obtain ⟨i,hi,rfl,⟨s,hs,hstop⟩,hbefore⟩ := find_eq_some.mp hq
  have hnone (hfree : s = .empty ∨ s = .removed) : ∀ a, Slot.live a ∈ t → p a = false := by
    intro a ha
    by_contra hpa
    rw [Bool.not_eq_false] at hpa
    obtain ⟨q',hq'⟩ := List.mem_iff_getElem?.mp ha
    obtain ⟨i',hi',rfl,hfull⟩ := ht.reach q' a hq'
    rw [hp a hpa] at hq' hfull
    rcases Nat.lt_trichotomy i i' with hlt | rfl | hgt
    · rcases hfree with rfl | rfl
      · exact hfull i hlt hs
      · exact hclear i' hi' ⟨a,hq',hpa⟩ i hlt hs
    · rw [hs] at hq'
      rcases hfree with rfl | rfl <;> simp at hq'
    · have hf := hbefore i' hgt _ hq'
      simp [Slot.stopsInsert,hpa] at hf
  cases s with
  | empty => exact .inr ⟨.inl hs,hnone (.inl rfl)⟩
  | removed => exact .inr ⟨.inr hs,hnone (.inr rfl)⟩
  | live a => exact .inl ⟨a,hs,hstop⟩

/-- A slot reached from the home of `a` without meeting an empty one may take it. -/
theorem Table.set_live (ht : Table home same t) {a : α} {q : ℕ}
    (hq : find t (Slot.stopsInsert p) (home a) = some q)
    (hfree : t[q]? = some .empty ∨ t[q]? = some .removed)
    (hnew : ∀ b, Slot.live b ∈ t → ¬ same a b ∧ ¬ same b a) :
    Table home same (t.set q (.live a)) := by
  obtain ⟨i,hi,rfl,-,hbefore⟩ := find_eq_some.mp hq
  have hlen : (home a+i)%t.length < t.length := Nat.mod_lt _ (by omega)
  have old {r : ℕ} {b : α} (hr : (t.set ((home a+i)%t.length) (.live a))[r]? = some (.live b)) :
      (r = (home a+i)%t.length ∧ b = a) ∨ t[r]? = some (.live b) := by
    by_cases hre : (home a+i)%t.length = r
    · subst hre
      rw [List.getElem?_set_self hlen] at hr
      simp only [Option.some.injEq,Slot.live.injEq] at hr
      exact .inl ⟨rfl,hr.symm⟩
    · rw [List.getElem?_set_ne hre] at hr
      exact .inr hr
  have full {r : ℕ} (hr : t[r]? ≠ some .empty) :
      (t.set ((home a+i)%t.length) (.live a))[r]? ≠ some .empty := by
    rw [List.getElem?_set]
    split_ifs <;> simp [hr]
  constructor
  · intro r b hr
    simp only [List.length_set]
    rcases old hr with ⟨rfl,rfl⟩ | hold
    · refine ⟨i,hi,rfl,fun j hj => full ?_⟩
      intro he
      have hf := hbefore j hj _ he
      simp [Slot.stopsInsert] at hf
    · obtain ⟨k,hk,hrk,hfull⟩ := ht.reach r b hold
      exact ⟨k,hk,hrk,fun j hj => full (hfull j hj)⟩
  · intro r r' b b' hr hr' hsame
    rcases old hr with ⟨rfl,rfl⟩ | hold <;> rcases old hr' with ⟨rfl,rfl⟩ | hold'
    · rfl
    · exact absurd hsame (hnew b' (List.mem_of_getElem? hold')).1
    · exact absurd hsame (hnew b (List.mem_of_getElem? hold)).2
    · exact ht.unique r r' b b' hold hold' hsame

/-- A tombstone keeps every other entry within reach. -/
theorem Table.set_removed (ht : Table home same t) (q : ℕ) :
    Table home same (t.set q .removed) := by
  have old {r : ℕ} {b : α} (hr : (t.set q .removed)[r]? = some (.live b)) :
      t[r]? = some (.live b) := by
    rw [List.getElem?_set] at hr
    split_ifs at hr with h₁ h₂
    · simp at hr
    · exact hr
  constructor
  · intro r b hr
    obtain ⟨k,hk,hrk,hfull⟩ := ht.reach r b (old hr)
    refine ⟨k,by simpa using hk,by simpa using hrk,fun j hj => ?_⟩
    rw [List.length_set,List.getElem?_set]
    split_ifs <;> simp [hfull j hj]
  · intro r r' b b' hr hr' hsame
    exact ht.unique r r' b b' (old hr) (old hr') hsame

def entries (t : List (Slot α)) : List α := t.filterMap Slot.entry?

@[simp] theorem mem_entries {a : α} : a ∈ entries t ↔ Slot.live a ∈ t := by
  simp only [entries,List.mem_filterMap]
  constructor
  · rintro ⟨s,hs,ha⟩
    cases s <;> simp_all [Slot.entry?]
  · exact fun h => ⟨_,h,rfl⟩

theorem length_entries : (entries t).length = t.countP Slot.isLive := by
  induction t with
  | nil => rfl
  | cons s t ih => cases s <;> simpa [entries,List.filterMap_cons,Slot.entry?,List.countP_cons] using ih

theorem Table.pairwise (ht : Table home same t) :
    t.Pairwise fun s s' => ∀ a a', s = .live a → s' = .live a' → ¬ same a a' ∧ ¬ same a' a := by
  refine List.pairwise_iff_getElem.mpr fun i j hi hj hij a a' ha ha' => ?_
  have hi' : t[i]? = some (.live a) := by simp [hi,ha]
  have hj' : t[j]? = some (.live a') := by simp [hj,ha']
  exact ⟨fun h => by have := ht.unique i j a a' hi' hj' h; omega,
    fun h => by have := ht.unique j i a' a hj' hi' h; omega⟩

theorem Table.pairwise_entries (ht : Table home same t) :
    (entries t).Pairwise fun a a' => ¬ same a a' ∧ ¬ same a' a :=
  List.Pairwise.filterMap Slot.entry? (fun s s' h a ha a' ha' => by
    cases s <;> cases s' <;> simp_all [Slot.entry?]) ht.pairwise

theorem Table.mem_unique (ht : Table home same t) {a a' : α} (ha : Slot.live a ∈ t)
    (ha' : Slot.live a' ∈ t) (h : same a a') : a = a' := by
  obtain ⟨q,hq⟩ := List.mem_iff_getElem?.mp ha
  obtain ⟨q',hq'⟩ := List.mem_iff_getElem?.mp ha'
  obtain rfl := ht.unique q q' a a' hq hq' h
  simpa [hq] using hq'

theorem mem_set_live {q : ℕ} {a b : α} (hq : t[q]? = some .empty ∨ t[q]? = some .removed) :
    Slot.live b ∈ t.set q (.live a) ↔ b = a ∨ Slot.live b ∈ t := by
  have hlt : q < t.length := by
    rcases hq with h | h <;> exact (List.getElem?_eq_some_iff.mp h).1
  simp only [List.mem_iff_getElem?,List.getElem?_set]
  constructor
  · rintro ⟨r,hr⟩
    split_ifs at hr with hqr
    · exact .inl (by simpa using hr.symm)
    · exact .inr ⟨r,hr⟩
  · rintro (rfl | ⟨r,hr⟩)
    · exact ⟨q,by simp [hlt]⟩
    · have hqr : q ≠ r := by
        rintro rfl
        rcases hq with h | h <;> simp [h] at hr
      exact ⟨r,by simp [hqr,hr]⟩

theorem Table.mem_set_removed (ht : Table home same t) {q : ℕ} {a b : α}
    (hq : t[q]? = some (.live a)) (hrefl : same a a) :
    Slot.live b ∈ t.set q .removed ↔ Slot.live b ∈ t ∧ b ≠ a := by
  simp only [List.mem_iff_getElem?,List.getElem?_set]
  constructor
  · rintro ⟨r,hr⟩
    split_ifs at hr with hqr hlt
    · simp at hr
    · refine ⟨⟨r,hr⟩,?_⟩
      rintro rfl
      exact hqr (ht.unique q r b b hq hr hrefl)
  · rintro ⟨⟨r,hr⟩,hne⟩
    have hqr : q ≠ r := by
      rintro rfl
      rw [hq] at hr
      simp at hr
      exact hne hr.symm
    exact ⟨r,by simp [hqr,hr]⟩

theorem countP_set {f : Slot α → Bool} {q : ℕ} {s s' : Slot α} (hq : t[q]? = some s) :
    (t.set q s').countP f = t.countP f - (if f s then 1 else 0) + (if f s' then 1 else 0) := by
  obtain ⟨hlt,rfl⟩ := List.getElem?_eq_some_iff.mp hq
  exact List.countP_set hlt

theorem countP_pos (f : Slot α → Bool) {q : ℕ} {s : Slot α} (hq : t[q]? = some s)
    (hs : f s = true) : 0 < t.countP f :=
  List.countP_pos_iff.mpr ⟨s,List.mem_of_getElem? hq,hs⟩

def place (home : α → ℕ) (a : α) (t : List (Slot α)) : Option (List (Slot α)) :=
  (find t (Slot.stopsInsert fun _ => false) (home a)).map fun q => t.set q (.live a)

def rehash (home : α → ℕ) : List (Slot α) → List (Slot α) → Option (List (Slot α))
  | [], t => some t
  | .live a :: old, t => (place home a t).bind (rehash home old)
  | _ :: old, t => rehash home old t

theorem Table.place (ht : Table home same t) (a : α) (hroom : t.countP Slot.isLive < t.length)
    (hnew : ∀ b, Slot.live b ∈ t → ¬ same a b ∧ ¬ same b a) :
    ∃ t', place home a t = some t' ∧ Table home same t' ∧ t'.length = t.length ∧
      (∀ b, Slot.live b ∈ t' ↔ b = a ∨ Slot.live b ∈ t) ∧
      t'.countP Slot.isLive = t.countP Slot.isLive + 1 ∧
      t'.countP Slot.isRemoved ≤ t.countP Slot.isRemoved := by
  obtain ⟨s,hs,hfree⟩ := List.countP_lt_length_iff.mp hroom
  obtain ⟨q,hq⟩ := find_isSome (Slot.stopsInsert fun _ => false) (home a) hs
    (by cases s <;> simp_all [Slot.stopsInsert])
  have hslot : t[q]? = some .empty ∨ t[q]? = some .removed := by
    obtain ⟨-,-,-,⟨s,hs,hstop⟩,-⟩ := find_eq_some.mp hq
    cases s <;> simp_all [Slot.stopsInsert]
  refine ⟨t.set q (.live a),by simp [Probing.place,hq],ht.set_live hq hslot hnew,by simp,
    fun b => mem_set_live hslot,?_,?_⟩
  · rcases hslot with h | h <;> simp [countP_set h]
  · rcases hslot with h | h <;> simp [countP_set h]

/-- With room for all of it, what was stored is moved and nothing else appears. -/
theorem Table.rehash (old : List (Slot α)) (ht : Table home same t)
    (hroom : old.countP Slot.isLive + t.countP Slot.isLive ≤ t.length)
    (hold : old.Pairwise fun s s' =>
      ∀ a a', s = .live a → s' = .live a' → ¬ same a a' ∧ ¬ same a' a)
    (hsep : ∀ a b, Slot.live a ∈ old → Slot.live b ∈ t → ¬ same a b ∧ ¬ same b a) :
    ∃ t', rehash home old t = some t' ∧ Table home same t' ∧ t'.length = t.length ∧
      (∀ b, Slot.live b ∈ t' ↔ Slot.live b ∈ old ∨ Slot.live b ∈ t) ∧
      t'.countP Slot.isLive = old.countP Slot.isLive + t.countP Slot.isLive ∧
      t'.countP Slot.isRemoved ≤ t.countP Slot.isRemoved := by
  induction old generalizing t with
  | nil => exact ⟨t,rfl,ht,rfl,by simp,by simp,le_rfl⟩
  | cons s old ih =>
    obtain ⟨hs,hrest⟩ := List.pairwise_cons.mp hold
    cases s with
    | empty =>
      simpa [Probing.rehash] using ih ht (by simpa using hroom) hrest
        fun a b ha => hsep a b (List.mem_cons_of_mem _ ha)
    | removed =>
      simpa [Probing.rehash] using ih ht (by simpa using hroom) hrest
        fun a b ha => hsep a b (List.mem_cons_of_mem _ ha)
    | live a =>
      simp only [List.countP_cons,Slot.isLive_live,if_true] at hroom
      obtain ⟨u,hu,htab,hlen,hmem,hcount,hrem⟩ :=
        ht.place a (by omega) fun b hb => hsep a b (by simp) hb
      obtain ⟨t',ht',htab',hlen',hmem',hcount',hrem'⟩ := ih htab (by omega) hrest (by
        intro c b hc hb
        rcases (hmem b).mp hb with rfl | hb
        · exact (hs _ hc b c rfl rfl).symm
        · exact hsep c b (List.mem_cons_of_mem _ hc) hb)
      refine ⟨t',by simp [Probing.rehash,hu,ht'],htab',hlen'.trans hlen,?_,?_,hrem'.trans hrem⟩
      · intro b
        rw [hmem',hmem,List.mem_cons,Slot.live.injEq]
        tauto
      · rw [hcount',hcount,List.countP_cons,Slot.isLive_live,if_pos rfl]
        omega

theorem empty_mem (h : t.countP Slot.isLive + t.countP Slot.isRemoved < t.length) :
    Slot.empty ∈ t := by
  induction t with
  | nil => simp at h
  | cons s t ih =>
    cases s with
    | empty => simp
    | removed =>
      have := ih (by simp [List.countP_cons] at h; omega)
      simp [this]
    | live a =>
      have := ih (by simp [List.countP_cons] at h; omega)
      simp [this]

end Table

/-! A table as the store of a map. Keys match entries; a key's home is known
without its entry, and two keys which share an entry are the same key. -/
section Stores

variable {κ β : Type*} {hash : κ → ℕ} {home : α → ℕ} {m : κ → α → Bool} {value : α → β}
variable {t : List (Slot α)} {spec : κ → Option β}

def Shared (m : κ → α → Bool) (a b : α) : Prop := ∃ k, m k a = true ∧ m k b = true

structure Stores (home : α → ℕ) (m : κ → α → Bool) (value : α → β) (t : List (Slot α))
    (spec : κ → Option β) : Prop where
  table : Table home (Shared m) t
  holds : ∀ (k : κ) (b : β), spec k = some b ↔ ∃ a, Slot.live a ∈ t ∧ m k a = true ∧ value a = b

structure Consistent (hash : κ → ℕ) (home : α → ℕ) (m : κ → α → Bool) : Prop where
  home_eq : ∀ (k : κ) (a : α), m k a = true → home a = hash k
  same_key : ∀ (k k' : κ) (a : α), m k a = true → m k' a = true → ∀ b, m k b = m k' b

theorem Stores.replicate_empty (home : α → ℕ) (m : κ → α → Bool) (value : α → β) (n : ℕ) :
    Stores home m value (List.replicate n .empty) fun _ => none where
  table := Table.replicate_empty home _ n
  holds k b := by simp [List.mem_replicate]

theorem Stores.none_iff (hs : Stores home m value t spec) (k : κ) :
    spec k = none ↔ ∀ a, Slot.live a ∈ t → m k a = false := by
  constructor
  · intro hk a ha
    by_contra hm
    have := (hs.holds k (value a)).mpr ⟨a,ha,by simpa using hm,rfl⟩
    rw [hk] at this
    contradiction
  · intro hnone
    cases hk : spec k with
    | none => rfl
    | some b =>
      obtain ⟨a,ha,hm,-⟩ := (hs.holds k b).mp hk
      rw [hnone a ha] at hm
      contradiction

theorem Stores.at_slot (hs : Stores home m value t spec) {k : κ} {q : ℕ} {a : α}
    (hq : t[q]? = some (.live a)) (hm : m k a = true) : spec k = some (value a) :=
  (hs.holds k (value a)).mpr ⟨a,List.mem_of_getElem? hq,hm,rfl⟩

theorem Stores.lookup (hs : Stores home m value t spec) (hc : Consistent hash home m)
    (hempty : Slot.empty ∈ t) (k : κ) :
    ∃ q, find t (Slot.stopsLookup (m k)) (hash k) = some q ∧
      ((∃ a, t[q]? = some (.live a) ∧ m k a = true ∧ spec k = some (value a)) ∨
        (t[q]? = some .empty ∧ spec k = none)) := by
  obtain ⟨q,hq,⟨a,ha,hm⟩ | ⟨he,hnone⟩⟩ := hs.table.lookup hempty (hc.home_eq k)
  · exact ⟨q,hq,.inl ⟨a,ha,hm,hs.at_slot ha hm⟩⟩
  · exact ⟨q,hq,.inr ⟨he,(hs.none_iff k).mpr hnone⟩⟩

theorem Stores.insert_walk (hs : Stores home m value t spec) (hc : Consistent hash home m) {k : κ}
    (hclear : Clear t (m k) (hash k)) {q : ℕ}
    (hq : find t (Slot.stopsInsert (m k)) (hash k) = some q) :
    (∃ a, t[q]? = some (.live a) ∧ m k a = true ∧ spec k = some (value a)) ∨
      ((t[q]? = some .empty ∨ t[q]? = some .removed) ∧ spec k = none) := by
  rcases hs.table.insert_walk hclear (hc.home_eq k) hq with ⟨a,ha,hm⟩ | ⟨hfree,hnone⟩
  · exact .inl ⟨a,ha,hm,hs.at_slot ha hm⟩
  · exact .inr ⟨hfree,(hs.none_iff k).mpr hnone⟩

theorem clear_of_no_removed {p : α → Bool} (ht : t.countP Slot.isRemoved = 0) (h : ℕ) :
    Clear t p h := by
  intro i _ _ j _ hj
  have := countP_pos Slot.isRemoved hj rfl
  omega

theorem Stores.insert (hs : Stores home m value t spec) (hc : Consistent hash home m) {k : κ}
    {a : α} (hka : m k a = true) (hk : spec k = none) {q : ℕ}
    (hq : find t (Slot.stopsInsert (m k)) (hash k) = some q)
    (hfree : t[q]? = some .empty ∨ t[q]? = some .removed) :
    Stores home m value (t.set q (.live a)) fun k' => if m k' a then some (value a) else spec k' where
  table := by
    rw [← hc.home_eq k a hka] at hq
    refine hs.table.set_live hq hfree fun b hb => ?_
    have hno := (hs.none_iff k).mp hk b hb
    constructor
    · rintro ⟨k',ha,hb'⟩
      rw [hc.same_key k k' a hka ha b,hb'] at hno
      contradiction
    · rintro ⟨k',hb',ha⟩
      rw [hc.same_key k k' a hka ha b,hb'] at hno
      contradiction
  holds k' b := by
    simp only [mem_set_live hfree]
    by_cases hm : m k' a = true
    · rw [if_pos hm]
      constructor
      · intro hb
        exact ⟨a,.inl rfl,hm,by simpa using hb⟩
      · rintro ⟨c,rfl | hc',hmc,rfl⟩
        · rfl
        · have hno := (hs.none_iff k).mp hk c hc'
          rw [hc.same_key k k' a hka hm c,hmc] at hno
          contradiction
    · rw [if_neg hm,hs.holds]
      constructor
      · rintro ⟨c,hc',hmc,hv⟩
        exact ⟨c,.inr hc',hmc,hv⟩
      · rintro ⟨c,rfl | hc',hmc,hv⟩
        · contradiction
        · exact ⟨c,hc',hmc,hv⟩

theorem Stores.remove (hs : Stores home m value t spec) {k : κ} {a : α} {q : ℕ}
    (hq : t[q]? = some (.live a)) (hm : m k a = true) :
    Stores home m value (t.set q .removed) fun k' => if m k' a then none else spec k' where
  table := hs.table.set_removed q
  holds k' b := by
    simp only [hs.table.mem_set_removed hq ⟨k,hm,hm⟩]
    by_cases hm' : m k' a = true
    · rw [if_pos hm']
      constructor
      · intro hb; contradiction
      · rintro ⟨c,⟨hc,hne⟩,hmc,-⟩
        exact absurd (hs.table.mem_unique hc (List.mem_of_getElem? hq) ⟨k',hmc,hm'⟩) hne
    · rw [if_neg hm',hs.holds]
      constructor
      · rintro ⟨c,hc,hmc,hv⟩
        refine ⟨c,⟨hc,?_⟩,hmc,hv⟩
        rintro rfl
        contradiction
      · rintro ⟨c,⟨hc,-⟩,hmc,hv⟩
        exact ⟨c,hc,hmc,hv⟩

/-- A new table of any size that has room stores the same map, without tombstones. -/
theorem Stores.rehash (hs : Stores home m value t spec) (n : ℕ)
    (hroom : t.countP Slot.isLive ≤ n) :
    ∃ t', Probing.rehash home t (List.replicate n .empty) = some t' ∧
      Stores home m value t' spec ∧ t'.length = n ∧
      (∀ a, Slot.live a ∈ t' ↔ Slot.live a ∈ t) ∧
      t'.countP Slot.isLive = t.countP Slot.isLive ∧ t'.countP Slot.isRemoved = 0 := by
  obtain ⟨t',ht',htab,hlen,hmem,hlive,hrem⟩ :=
    (Table.replicate_empty home (Shared m) n).rehash t
      (by simpa [List.countP_replicate] using hroom) hs.table.pairwise
      (by simp [List.mem_replicate])
  have hmem' (a : α) : Slot.live a ∈ t' ↔ Slot.live a ∈ t := by
    simp [hmem,List.mem_replicate]
  refine ⟨t',ht',⟨htab,?_⟩,by simpa using hlen,hmem',?_,?_⟩
  · intro k b
    simp only [hmem',hs.holds]
  · simpa [List.countP_replicate] using hlive
  · simpa [List.countP_replicate] using hrem

end Stores

end Probing
