import DirectFB.Reaches

/-! Colours of a palette are looked up through a hash table that each process has of its own. -/
namespace DirectFB.ColorHash
open Function (update update_eq_self update_of_ne update_self)
open Transition

structure DFBColor where
  a : Fin 256
  r : Fin 256
  g : Fin 256
  b : Fin 256
  deriving DecidableEq, Repr

/-- `PIXEL_ARGB`. -/
def DFBColor.pixel (c : DFBColor) : ℕ :=
  c.a.val*2^24+c.r.val*2^16+c.g.val*2^8+c.b.val

/-- How far an entry is from the colour `c`. Transparent colours sum up signed differences. -/
def difference (c e : DFBColor) : ℤ :=
  let r := (e.r.val : ℤ)-c.r.val
  let g := (e.g.val : ℤ)-c.g.val
  let b := (e.b.val : ℤ)-c.b.val
  let a := (e.a.val : ℤ)-c.a.val
  if c.a ≠ 0 then r*r+g*g+b*b+a*a/64 else r+g+b+a*a

/-- The loop over the entries, from the entry `i` on; it ends at a difference of zero. -/
def closest (c : DFBColor) : List DFBColor → ℕ → ℤ → ℕ → ℕ
  | [], _, _, minIndex => minIndex
  | e::entries, i, minDiff, minIndex =>
    let diff := difference c e
    let best := if i = 0 ∨ diff < minDiff then (diff,i) else (minDiff,minIndex)
    if diff = 0 then best.2 else closest c entries (i+1) best.1 best.2

def search (entries : List DFBColor) (c : DFBColor) : ℕ := closest c entries 0 0 0

structure CorePalette where
  id : ℕ
  address : ℕ
  entries : List DFBColor

structure Colorhash where
  pixel : ℕ
  index : ℕ
  paletteId : ℕ

/-- `HASH_SIZE`. -/
def hashSize : ℕ := 823

/-- `dfb_colorhash_lookup`, the hash of a process being a function of the slot. -/
def lookup (hash : ℕ → Colorhash) (palette : CorePalette) (c : DFBColor) : (ℕ → Colorhash) × ℕ :=
  let slot := (c.pixel ^^^ palette.address) % hashSize
  if (hash slot).paletteId = palette.id ∧ (hash slot).pixel = c.pixel then
    (hash,(hash slot).index)
  else
    let index := search palette.entries c
    (update hash slot ⟨c.pixel,index,palette.id⟩,index)

/-- `dfb_colorhash_invalidate`. -/
def invalidate (hash : ℕ → Colorhash) (palette : CorePalette) : ℕ → Colorhash := fun slot =>
  if slot < hashSize ∧ (hash slot).paletteId = palette.id then {hash slot with paletteId := 0}
  else hash slot

structure State (π : Type*) where
  idPool : ℕ
  palettes : ℕ → Option CorePalette
  hash : π → ℕ → Colorhash

section Step

variable {π : Type*} [DecidableEq π]

def State.invalidate (x : State π) (p : π) (palette : CorePalette) : State π :=
  {x with hash := update x.hash p (ColorHash.invalidate (x.hash p) palette)}

def create (x : State π) (address size : ℕ) : State π :=
  let id := x.idPool+1
  {x with
    idPool := id
    palettes := update x.palettes id (some ⟨id,address,List.replicate size ⟨0,0,0,0⟩⟩)}

/-- `IPalette_Real::SetEntries`, in the process that executes it. The sum of two `u32` wraps
around, so that entries may be written where there are none. -/
def setEntries (x : State π) (p : π) (palette : CorePalette) (colors : List DFBColor)
    (offset : ℕ) : Option (State π) :=
  if palette.entries.length < (offset+colors.length)%2^32 then some x
  else if colors = [] then some x
  else if palette.entries.length < offset+colors.length then none
  else
    let entries := palette.entries.take offset++colors++ palette.entries.drop (offset+colors.length)
    some (State.invalidate {x with
      palettes := update x.palettes palette.id (some {palette with entries := entries})}
      p palette)

/-- `palette_destructor`. -/
def destroy (x : State π) (p : π) (palette : CorePalette) : State π :=
  {x.invalidate p palette with palettes := update x.palettes palette.id none}

inductive Event (π : Type*)
  | create (address size : ℕ)
  | setEntries (p : π) (id : ℕ) (colors : List DFBColor) (offset : ℕ)
  | destroy (p : π) (id : ℕ)
  | lookup (p : π) (id : ℕ) (c : DFBColor)

def step (x : State π) : Event π → Option (State π)
  | .create address size => some (create x address size)
  | .setEntries p id colors offset =>
    (x.palettes id).bind fun palette => setEntries x p palette colors offset
  | .destroy p id => (x.palettes id).map fun palette => destroy x p palette
  | .lookup p id c => (x.palettes id).map fun palette =>
    {x with hash := update x.hash p (lookup (x.hash p) palette c).1}

end Step

section Search

variable {c : DFBColor} {entries : List DFBColor}

def entry (entries : List DFBColor) (c : DFBColor) (i : ℕ) : DFBColor := entries.getD i c

/-- The first one of least difference among the entries up to the first difference of zero. -/
structure Closest (c : DFBColor) (entries : List DFBColor) (r n : ℕ) : Prop where
  lt : r < n
  le_length : n ≤ entries.length
  least : ∀ j, j < n → difference c (entry entries c r) ≤ difference c (entry entries c j)
  first : ∀ j, j < r → difference c (entry entries c r) < difference c (entry entries c j)
  nonzero : ∀ j, j+1 < n → difference c (entry entries c j) ≠ 0
  stop : n = entries.length ∨ difference c (entry entries c (n-1)) = 0

theorem entry_eq {i : ℕ} (h : i < entries.length) : entry entries c i = entries[i] := by
  simp [entry,h]

theorem entry_append (done rest : List DFBColor) (e : DFBColor) :
    entry (done++e::rest) c done.length = e := by
  simp [entry]

theorem closest_spec (done rest : List DFBColor) (hne : done++rest ≠ []) (minDiff : ℤ)
    (minIndex : ℕ)
    (hmin : done ≠ [] → minIndex < done.length ∧
      minDiff = difference c (entry (done++rest) c minIndex) ∧
      (∀ j < done.length, minDiff ≤ difference c (entry (done++rest) c j)) ∧
      ∀ j < minIndex, minDiff < difference c (entry (done++rest) c j))
    (hnonzero : ∀ j < done.length, difference c (entry (done++rest) c j) ≠ 0) :
    ∃ n, Closest c (done++rest) (closest c rest done.length minDiff minIndex) n := by
  induction rest generalizing done minDiff minIndex with
  | nil =>
    rw [List.append_nil] at hne hmin hnonzero ⊢
    obtain ⟨hlt,rfl,hle,hfirst⟩ := hmin hne
    exact ⟨done.length,hlt,le_rfl,hle,hfirst,fun j hj => hnonzero j (by omega),.inl rfl⟩
  | cons e rest ih =>
    have he := entry_append (c := c) done rest e
    -- the best one with the entry at hand
    have hbest : ∃ d m, (if done.length = 0 ∨ difference c e < minDiff then
          (difference c e,done.length) else (minDiff,minIndex)) = (d,m) ∧
        m < done.length+1 ∧ d = difference c (entry (done++e::rest) c m) ∧
        (∀ j < done.length+1, d ≤ difference c (entry (done++e::rest) c j)) ∧
        ∀ j < m, d < difference c (entry (done++e::rest) c j) := by
      by_cases hlow : done.length = 0 ∨ difference c e < minDiff
      · have hless (j : ℕ) (hj : j < done.length) :
            difference c e < difference c (entry (done++e::rest) c j) := by
          rcases hlow with h0 | hlow
          · omega
          · have hd : done ≠ [] := by rintro rfl; exact Nat.not_lt_zero j hj
            exact hlow.trans_le ((hmin hd).2.2.1 j hj)
        refine ⟨_,_,if_pos hlow,by omega,by rw [he],fun j hj => ?_,hless⟩
        rcases Nat.lt_succ_iff_lt_or_eq.mp hj with hj | rfl
        · exact (hless j hj).le
        · rw [he]
      · rw [not_or] at hlow
        obtain ⟨hlt,hd,hle,hfirst⟩ := hmin (by rintro rfl; exact hlow.1 rfl)
        refine ⟨_,_,if_neg (not_or.mpr hlow),by omega,hd,fun j hj => ?_,hfirst⟩
        rcases Nat.lt_succ_iff_lt_or_eq.mp hj with hj | rfl
        · exact hle j hj
        · rw [he]
          exact not_lt.mp hlow.2
    obtain ⟨d,m,hdm,hm,hd,hle,hfirst⟩ := hbest
    rw [closest]
    simp only [hdm]
    by_cases hz : difference c e = 0
    · rw [if_pos hz]
      refine ⟨done.length+1,hm,by simp,fun j hj => hd ▸ hle j hj,fun j hj => hd ▸ hfirst j hj,
        fun j hj => hnonzero j (by omega),.inr ?_⟩
      rw [Nat.add_sub_cancel,he,hz]
    · rw [if_neg hz]
      have heq : done++[e]++rest = done++e::rest := by simp
      have hlen : (done++[e]).length = done.length+1 := by simp
      have hrest := ih (done++[e]) (by simp) d m
        (fun _ => by rw [heq,hlen]; exact ⟨hm,hd,hle,hfirst⟩) (fun j hj => by
          rw [heq]
          rw [hlen] at hj
          rcases Nat.lt_succ_iff_lt_or_eq.mp hj with hj | rfl
          · exact hnonzero j hj
          · rw [he]
            exact hz)
      rwa [heq,hlen] at hrest

theorem search_closest (hne : entries ≠ []) (c : DFBColor) :
    ∃ n, Closest c entries (search entries c) n :=
  closest_spec [] entries hne 0 0 (fun h => absurd rfl h) fun j hj => absurd hj (Nat.not_lt_zero j)

theorem search_lt (hne : entries ≠ []) (c : DFBColor) : search entries c < entries.length := by
  obtain ⟨n,h⟩ := search_closest hne c
  exact h.lt.trans_le h.le_length

@[simp] theorem difference_self (c : DFBColor) : difference c c = 0 := by
  simp [difference]

theorem search_equal_iff (hmem : c ∈ entries) : entry entries c (search entries c) = c ↔
      ∀ j < entries.idxOf c, 0 < difference c (entry entries c j) := by
  obtain ⟨n,h⟩ := search_closest (List.ne_nil_of_mem hmem) c
  set r := search entries c
  set k := entries.idxOf c with hk
  have hklt : k < entries.length := List.idxOf_lt_length_of_mem hmem
  have hkc : entry entries c k = c := by
    rw [entry_eq hklt]
    exact List.getElem_idxOf hklt
  have hkz : difference c (entry entries c k) = 0 := by rw [hkc,difference_self]
  constructor
  · intro hr j hj
    have hrz : difference c (entry entries c r) = 0 := by rw [hr,difference_self]
    have hkr : k ≤ r := by
      have hrlt := h.lt.trans_le h.le_length
      have hget : entries[r] = c := by rwa [entry_eq hrlt] at hr
      by_contra hlt
      have hbefore : (entries[r] == c) = false := List.not_of_lt_findIdx (not_le.mp hlt)
      simp [hget] at hbefore
    have hlast : ¬ r+1 < n := fun hlt => h.nonzero r hlt hrz
    rcases Nat.lt_or_eq_of_le hkr with hkr | hkr
    · exact absurd hkz (h.nonzero k (by have := h.lt; omega))
    · have := h.first j (hkr ▸ hj)
      omega
  · intro hpos
    have hn : n = k+1 := by
      by_contra hne
      rcases Nat.lt_or_gt_of_ne hne with hlt | hgt
      · rcases h.stop with hs | hs
        · omega
        · have := h.lt
          have := hpos (n-1) (by omega)
          omega
      · exact h.nonzero k (by omega) hkz
    have hrk : r = k := by
      have hle := h.least k (by omega)
      have := h.lt
      by_contra hne
      have := hpos r (by omega)
      omega
    rw [hrk,hkc]

def Alike (c e : DFBColor) : Prop :=
  e.r = c.r ∧ e.g = c.g ∧ e.b = c.b ∧
    let a := (e.a.val : ℤ)-c.a.val
    if c.a ≠ 0 then a*a/64 = 0 else e.a = c.a

def Distance (c : DFBColor) (entries : List DFBColor) : Prop :=
  ∀ e ∈ entries, 0 ≤ difference c e ∧ (difference c e = 0 → Alike c e)

def Found (c : DFBColor) (entries : List DFBColor) (i : ℕ) : Prop :=
  (c ∈ entries → entry entries c i = c) ∧
  (c ∉ entries → Distance c entries ∧
    ∀ e ∈ entries, difference c (entry entries c i) ≤ difference c e)

def Apart (c : DFBColor) (entries : List DFBColor) : Prop :=
  (c ∈ entries → ∀ j < entries.idxOf c, 0 < difference c (entry entries c j)) ∧
  (c ∉ entries → c.a = 0 → ∀ e ∈ entries, 0 < difference c e)

theorem distance_of_alpha (h : c.a ≠ 0) (entries : List DFBColor) : Distance c entries := by
  intro e _
  have hr := mul_self_nonneg ((e.r.val : ℤ)-c.r.val)
  have hg := mul_self_nonneg ((e.g.val : ℤ)-c.g.val)
  have hb := mul_self_nonneg ((e.b.val : ℤ)-c.b.val)
  have ha := Int.ediv_nonneg (mul_self_nonneg ((e.a.val : ℤ)-c.a.val)) (by decide : (0 : ℤ) ≤ 64)
  simp only [difference,if_pos h]
  refine ⟨by omega,fun hz => ⟨?_,?_,?_,?_⟩⟩
  · have := mul_self_eq_zero.mp (by omega : ((e.r.val : ℤ)-c.r.val)*((e.r.val : ℤ)-c.r.val) = 0)
    omega
  · have := mul_self_eq_zero.mp (by omega : ((e.g.val : ℤ)-c.g.val)*((e.g.val : ℤ)-c.g.val) = 0)
    omega
  · have := mul_self_eq_zero.mp (by omega : ((e.b.val : ℤ)-c.b.val)*((e.b.val : ℤ)-c.b.val) = 0)
    omega
  · dsimp only
    rw [if_pos h]
    omega

theorem Alike.eq {e : DFBColor} (h : Alike c e) (ha : c.a = 0) : e = c := by
  obtain ⟨hr,hg,hb,h⟩ := h
  dsimp only at h
  rw [if_neg (not_not.mpr ha)] at h
  obtain ⟨a,r,g,b⟩ := e
  obtain rfl : a = c.a := h
  obtain rfl : r = c.r := hr
  obtain rfl : g = c.g := hg
  obtain rfl : b = c.b := hb
  rfl

theorem search_least (hne : entries ≠ []) (h : ∀ e ∈ entries, 0 ≤ difference c e) :
    ∀ e ∈ entries, difference c (entry entries c (search entries c)) ≤ difference c e := by
  obtain ⟨n,hc⟩ := search_closest hne c
  intro e he
  obtain ⟨j,hj,rfl⟩ := List.getElem_of_mem he
  rcases hc.stop with hs | hs
  · have := hc.least j (hs ▸ hj)
    rwa [entry_eq hj] at this
  · have := hc.least (n-1) (by have := hc.lt; omega)
    have := h _ he
    omega

theorem search_found_iff (hne : entries ≠ []) :
    Found c entries (search entries c) ↔ Apart c entries := by
  refine and_congr (forall_congr' search_equal_iff) (forall_congr' fun hno => ?_)
  constructor
  · rintro ⟨hdist,-⟩ ha e he
    obtain ⟨hnonneg,halike⟩ := hdist e he
    rcases lt_or_eq_of_le hnonneg with hpos | hz
    · exact hpos
    · exact absurd ((halike hz.symm).eq ha ▸ he) hno
  · intro h
    have hdist : Distance c entries := by
      by_cases ha : c.a = 0
      · exact fun e he => ⟨(h ha e he).le,fun hz => absurd hz (h ha e he).ne'⟩
      · exact distance_of_alpha ha entries
    exact ⟨hdist,search_least hne fun e he => (hdist e he).1⟩

end Search

section Runs

variable {π : Type*} {x y : State π}

theorem pixel_injective {c d : DFBColor} (h : c.pixel = d.pixel) : c = d := by
  obtain ⟨a,r,g,b⟩ := c
  obtain ⟨a',r',g',b'⟩ := d
  simp only [DFBColor.pixel] at h
  have ha : a = a' := Fin.ext (by omega)
  have hr : r = r' := Fin.ext (by omega)
  have hg : g = g' := Fin.ext (by omega)
  have hb : b = b' := Fin.ext (by omega)
  rw [ha,hr,hg,hb]

/-- Ids are given in turn, and what a hash says of a palette is what a search finds. -/
structure Inv (x : State π) : Prop where
  known : ∀ id palette, x.palettes id = some palette → palette.id = id ∧ 0 < id ∧ id ≤ x.idPool
  given : ∀ p slot, (x.hash p slot).paletteId ≤ x.idPool
  slots : ∀ p slot, hashSize ≤ slot → (x.hash p slot).paletteId = 0
  exact : ∀ p slot palette, x.palettes (x.hash p slot).paletteId = some palette →
    ∃ c, (x.hash p slot).pixel = c.pixel ∧ (x.hash p slot).index = search palette.entries c

def Initial (x : State π) : Prop :=
  x.idPool = 0 ∧ (∀ id, x.palettes id = none) ∧ ∀ p slot, x.hash p slot = ⟨0,0,0⟩

def Kept (x : State π) : Event π → Prop
  | .setEntries p id colors offset => ∀ palette, x.palettes id = some palette →
    (offset+colors.length)%2^32 ≤ palette.entries.length → colors ≠ [] →
    ∀ q slot, q ≠ p → (x.hash q slot).paletteId ≠ id
  | _ => True

theorem invalidate_slot (hash : ℕ → Colorhash) (palette : CorePalette) (slot : ℕ) :
    (invalidate hash palette slot).paletteId = 0 ∨ invalidate hash palette slot = hash slot ∧
        (slot < hashSize → (hash slot).paletteId ≠ palette.id) := by
  unfold invalidate
  split_ifs with h
  · exact .inl rfl
  · exact .inr ⟨rfl,fun hs he => h ⟨hs,he⟩⟩

theorem Inv.palette_zero (h : Inv x) : x.palettes 0 = none := by
  by_contra hne
  obtain ⟨palette,hp⟩ := Option.ne_none_iff_exists'.mp hne
  exact Nat.lt_irrefl 0 (h.known 0 palette hp).2.1

theorem Inv.create (h : Inv x) (address size : ℕ) : Inv (create x address size) := by
  refine ⟨fun id n hn => ?_,fun q slot => ?_,h.slots,fun q slot n hn => ?_⟩
  · simp only [ColorHash.create] at hn ⊢
    by_cases hid : id = x.idPool+1
    · subst hid
      rw [update_self] at hn
      obtain rfl := Option.some.inj hn
      exact ⟨rfl,Nat.succ_pos _,le_rfl⟩
    · rw [update_of_ne hid] at hn
      obtain ⟨heq,hpos,hle⟩ := h.known id n hn
      exact ⟨heq,hpos,by omega⟩
  · exact (h.given q slot).trans (Nat.le_succ _)
  · have hgiven := h.given q slot
    simp only [ColorHash.create] at hn ⊢
    rw [update_of_ne (by omega)] at hn
    exact h.exact q slot n hn

variable [DecidableEq π]

/-- A slot is empty after a palette is invalidated, or is as it was and none of its own. -/
theorem Inv.invalidated (h : Inv x) (p : π) {palette : CorePalette} (hid : 0 < palette.id)
    (q : π) (slot : ℕ) :
    ((x.invalidate p palette).hash q slot).paletteId = 0 ∨
      (x.invalidate p palette).hash q slot = x.hash q slot ∧
        (q = p → (x.hash q slot).paletteId ≠ palette.id) := by
  by_cases hq : q = p
  · subst hq
    rw [State.invalidate]
    dsimp only
    rw [update_self]
    rcases invalidate_slot (x.hash q) palette slot with hz | ⟨heq,hne⟩
    · exact .inl hz
    · refine .inr ⟨heq,fun _ he => ?_⟩
      by_cases hs : slot < hashSize
      · exact hne hs he
      · have := h.slots q slot (not_lt.mp hs)
        omega
  · refine .inr ⟨?_,fun he => absurd he hq⟩
    rw [State.invalidate]
    dsimp only
    rw [update_of_ne hq]

/-- The hashes stay right when all that one of them knows of a palette is gone, and the others
know nothing of it. -/
theorem Inv.forget (h : Inv x) (p : π) {palette : CorePalette}
    (hpal : x.palettes palette.id = some palette) (new : Option CorePalette)
    (hnew : ∀ n ∈ new, n.id = palette.id)
    (hothers : new ≠ none → ∀ q slot, q ≠ p → (x.hash q slot).paletteId ≠ palette.id) :
    Inv {x.invalidate p palette with
      palettes := update x.palettes palette.id new} := by
  obtain ⟨-,hpos,hle⟩ := h.known _ _ hpal
  refine ⟨fun id n hn => ?_,fun q slot => ?_,fun q slot hs => ?_,fun q slot n hn => ?_⟩
  · dsimp only at hn ⊢
    by_cases hid : id = palette.id
    · subst hid
      rw [update_self] at hn
      exact ⟨hnew n hn,hpos,hle⟩
    · rw [update_of_ne hid] at hn
      exact h.known id n hn
  · rcases h.invalidated p hpos q slot with hz | ⟨heq,-⟩
    · exact hz.le.trans (Nat.zero_le _)
    · exact (congrArg Colorhash.paletteId heq).le.trans (h.given q slot)
  · rcases h.invalidated p hpos q slot with hz | ⟨heq,-⟩
    · exact hz
    · exact (congrArg Colorhash.paletteId heq).trans (h.slots q slot hs)
  · dsimp only at hn ⊢
    rcases h.invalidated p hpos q slot with hz | ⟨heq,hown⟩
    · rw [hz,update_of_ne hpos.ne,h.palette_zero] at hn
      cases hn
    · rw [heq] at hn ⊢
      by_cases hid : (x.hash q slot).paletteId = palette.id
      · rw [hid,update_self] at hn
        by_cases hq : q = p
        · exact absurd hid (hown hq)
        · exact absurd hid (hothers (by rw [hn]; exact Option.some_ne_none n) q slot hq)
      · rw [update_of_ne hid] at hn
        exact h.exact q slot n hn

/-- What a lookup answers is what a search finds, and what it remembers is the same. -/
theorem Inv.lookup (h : Inv x) (p : π) {palette : CorePalette}
    (hpal : x.palettes palette.id = some palette) (c : DFBColor) :
    (lookup (x.hash p) palette c).2 = search palette.entries c ∧
    Inv {x with hash := update x.hash p (lookup (x.hash p) palette c).1} := by
  obtain ⟨-,hpos,hle⟩ := h.known _ _ hpal
  unfold ColorHash.lookup
  dsimp only
  set slot := (c.pixel ^^^ palette.address) % hashSize with hslot
  by_cases hhit : (x.hash p slot).paletteId = palette.id ∧ (x.hash p slot).pixel = c.pixel
  · rw [if_pos hhit,update_eq_self]
    obtain ⟨d,hd,hindex⟩ := h.exact p slot palette (hhit.1 ▸ hpal)
    obtain rfl := pixel_injective (hd.symm.trans hhit.2)
    exact ⟨hindex,h⟩
  · rw [if_neg hhit]
    have hslots : slot < hashSize := Nat.mod_lt _ (by decide)
    have hcases (q : π) (n : ℕ) : update x.hash p (update (x.hash p) slot
        ⟨c.pixel,search palette.entries c,palette.id⟩) q n = x.hash q n ∨
        n = slot ∧ update x.hash p (update (x.hash p) slot
        ⟨c.pixel,search palette.entries c,palette.id⟩) q n =
          ⟨c.pixel,search palette.entries c,palette.id⟩ := by
      by_cases hq : q = p
      · subst hq
        rw [update_self]
        by_cases hn : n = slot
        · subst hn
          exact .inr ⟨rfl,update_self ..⟩
        · exact .inl (update_of_ne hn ..)
      · exact .inl (by rw [update_of_ne hq])
    refine ⟨rfl,h.known,fun q n => ?_,fun q n hn => ?_,fun q n other hother => ?_⟩
    · rcases hcases q n with heq | ⟨-,heq⟩ <;> dsimp only <;> rw [heq]
      · exact h.given q n
      · exact hle
    · rcases hcases q n with heq | ⟨rfl,-⟩
      · dsimp only
        rw [heq]
        exact h.slots q n hn
      · omega
    · dsimp only at hother ⊢
      rcases hcases q n with heq | ⟨-,heq⟩ <;> rw [heq] at hother ⊢
      · exact h.exact q n other hother
      · obtain rfl := Option.some.inj (hpal.symm.trans hother)
        exact ⟨c,rfl,rfl⟩

theorem Inv.step {e : Event π} (h : Inv x) (hk : Kept x e) (hs : step x e = some y) : Inv y := by
  cases e with
  | create address size =>
    obtain rfl := Option.some.inj hs
    exact h.create address size
  | setEntries p id colors offset =>
    obtain ⟨palette,hpal,hset⟩ := Option.bind_eq_some_iff.mp hs
    obtain ⟨rfl,hpos,-⟩ := h.known id palette hpal
    unfold setEntries at hset
    by_cases hlen : palette.entries.length < (offset+colors.length)%2^32
    · rw [if_pos hlen] at hset
      exact Option.some.inj hset ▸ h
    by_cases hnil : colors = []
    · rw [if_neg hlen,if_pos hnil] at hset
      exact Option.some.inj hset ▸ h
    by_cases hout : palette.entries.length < offset+colors.length
    · rw [if_neg hlen,if_neg hnil,if_pos hout] at hset
      cases hset
    rw [if_neg hlen,if_neg hnil,if_neg hout] at hset
    obtain rfl := Option.some.inj hset
    refine h.forget p hpal _ (fun n hn => ?_) fun _ => hk palette hpal (not_lt.mp hlen) hnil
    obtain rfl := Option.some.inj hn
    rfl
  | destroy p id =>
    obtain ⟨palette,hpal,rfl⟩ := Option.map_eq_some_iff.mp hs
    obtain ⟨rfl,-,-⟩ := h.known id palette hpal
    exact h.forget p hpal none (by simp) (fun hne => absurd rfl hne)
  | lookup p id c =>
    obtain ⟨palette,hpal,rfl⟩ := Option.map_eq_some_iff.mp hs
    obtain ⟨rfl,-,-⟩ := h.known id palette hpal
    exact (h.lookup p hpal c).2

theorem reaches_inv (h : Reaches step Kept Initial x) : Inv x := by
  refine h.invariant Inv ?_ fun s e t hs hk ht => hs.step hk ht
  rintro s ⟨-,hpal,hhash⟩
  refine ⟨fun id n hn => ?_,fun p slot => ?_,fun p slot _ => ?_,fun p slot n hn => ?_⟩
  · rw [hpal] at hn
    cases hn
  · rw [hhash]
    exact Nat.zero_le _
  · rw [hhash]
  · rw [hpal] at hn
    cases hn

/-- A lookup is a search, and finds what it should just where the entries are apart. -/
theorem lookup_is_search (h : Reaches step Kept Initial x) (p : π) {id : ℕ} {palette : CorePalette}
    (hpal : x.palettes id = some palette) (c : DFBColor) :
    (lookup (x.hash p) palette c).2 = search palette.entries c ∧
      (palette.entries ≠ [] → (lookup (x.hash p) palette c).2 < palette.entries.length ∧
        (Found c palette.entries (lookup (x.hash p) palette c).2 ↔ Apart c palette.entries)) := by
  have hinv := reaches_inv h
  obtain ⟨rfl,-,-⟩ := hinv.known id palette hpal
  obtain ⟨heq,-⟩ := hinv.lookup p hpal c
  rw [heq]
  exact ⟨rfl,fun hne => ⟨search_lt hne c,search_found_iff hne⟩⟩

end Runs

def noPalettes : State Unit := ⟨0,fun _ => none,fun _ _ => ⟨0,0,0⟩⟩

def blackAndWhite : List DFBColor := [⟨255,0,0,0⟩,⟨255,255,255,255⟩]

def painted : State Unit :=
  (step (create noPalettes 0x1000 2) (.setEntries () 1 blackAndWhite 0)).getD noPalettes

/-- A light grey is nearest to white. -/
theorem grey_is_white : ∃ palette, painted.palettes 1 = some palette ∧
    palette.entries = blackAndWhite ∧
    (lookup (painted.hash ()) palette ⟨255,200,200,200⟩).2 < 2 ∧
    Found ⟨255,200,200,200⟩ blackAndWhite
      (lookup (painted.hash ()) palette ⟨255,200,200,200⟩).2 := by
  have hinit : Initial noPalettes := ⟨rfl,fun _ => rfl,fun _ _ => rfl⟩
  have hcreate : step noPalettes (.create 0x1000 2) = some (create noPalettes 0x1000 2) := rfl
  have hset : step (create noPalettes 0x1000 2) (.setEntries () 1 blackAndWhite 0) =
      some painted := rfl
  have hkept : Kept (create noPalettes 0x1000 2) (.setEntries () 1 blackAndWhite 0) :=
    fun _ _ _ _ _ _ hq => absurd rfl hq
  obtain ⟨-,hlookup⟩ := lookup_is_search
    (.step _ (.step (.create 0x1000 2) (.init hinit) trivial hcreate) hkept hset) () (rfl : painted.palettes 1 = some ⟨1,0x1000,blackAndWhite⟩) ⟨255,200,200,200⟩
  obtain ⟨hlt,hfound⟩ := hlookup (List.cons_ne_nil _ _)
  refine ⟨_,rfl,rfl,hlt,hfound.mpr ⟨fun hmem => ?_,fun _ ha => ?_⟩⟩
  · exact absurd hmem (by decide)
  · exact absurd ha (by decide)

/-- A transparent grey that is in the palette is missed for a darker entry before it. -/
theorem transparent_grey_missed : ∃ x palette, exec step noPalettes
      [.create 0x1000 2,.setEntries () 1 [⟨0,0,0,0⟩,⟨0,16,16,16⟩] 0] = some x ∧
    x.palettes 1 = some palette ∧ palette.entries = [⟨0,0,0,0⟩,⟨0,16,16,16⟩] ∧
    (lookup (x.hash ()) palette ⟨0,16,16,16⟩).2 = 0 ∧
    ¬ Found ⟨0,16,16,16⟩ palette.entries (lookup (x.hash ()) palette ⟨0,16,16,16⟩).2 := by
  refine ⟨_,_,rfl,rfl,rfl,by decide,fun h => ?_⟩
  exact absurd (h.1 (by decide)) (by decide)

end DirectFB.ColorHash
