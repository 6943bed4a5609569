import DirectFB.Genefx

/-! Functions that process two pixels at a time, compared with their rule for one pixel. -/
namespace DirectFB
namespace Genefx
open Span Function

section Loops

variable {w n : ℕ} {γ : Type*} {m : Pixels w} {D : ℤ} {v : ℕ → Option (BitVec w)}

/-- What is done from an aligned position on. -/
theorem body_eq {pixel pair : Pixels w → ℤ → γ → Pixels w} {next2 : γ → γ} (c : ℕ → γ)
    (hnext2 : ∀ k, next2 (c k) = c (k+2)) {h : ℕ} (hh : h ≤ n) (heven : (D+h)%2 = 0)
    (hpixel : ∀ k < n, Single D n k →
      pixel (painted m D v 0 k) (D+k) (c k) = store (painted m D v 0 k) (D+k) (v k))
    (hpair : ∀ k, k+1 < n → (D+k)%2 = 0 → pair (painted m D v 0 k) (D+k) (c k) =
      store (store (painted m D v 0 k) (D+k) (v k)) (D+k+1) (v (k+1))) :
    (let (m,D,c) := steps pair 2 next2 ((n-h)/2) (painted m D v 0 h) (D+h) (c h)
    if (n-h)%2 = 1 then pixel m D c else m) = painted m D v 0 n := by
  have hsteps : steps pair 2 next2 ((n-h)/2) (painted m D v 0 h) (D+h) (c h) =
      (painted m D v 0 (h+2*((n-h)/2)),D+h+((n-h)/2 : ℕ)*2,c (h+2*((n-h)/2))) :=
    steps_eq (fun k => painted m D v 0 (h+2*k)) (fun k => c (h+2*k))
      (fun k => by rw [hnext2]; rfl) (D+h) fun k hk => by
        have hpos : D+h+k*2 = D+(h+2*k : ℕ) := by push_cast; ring
        rw [hpos,hpair (h+2*k) (by omega) (by omega),store_painted_two (Nat.zero_le _)]
        rfl
  rw [hsteps]
  have hpos : D+h+((n-h)/2 : ℕ)*2 = D+(h+2*((n-h)/2) : ℕ) := by push_cast; ring
  simp only [hpos]
  split_ifs with hodd
  · obtain ⟨k,hk⟩ : ∃ k, k = h+2*((n-h)/2) := ⟨_,rfl⟩
    rw [← hk,hpixel k (by omega) (.inl ⟨by omega,by omega⟩),store_painted_right (Nat.zero_le k)]
    exact congrArg _ (by omega)
  · exact congrArg _ (by omega)

theorem forward_eq {head pixel pair : Pixels w → ℤ → γ → Pixels w} {next next2 : γ → γ}
    (c : ℕ → γ) (hnext : next (c 0) = c 1) (hnext2 : ∀ k, next2 (c k) = c (k+2)) (hn : 0 < n)
    (hhead : D%2 = 1 → head m D (c 0) = store m D (v 0))
    (hpixel : ∀ k < n, Single D n k →
      pixel (painted m D v 0 k) (D+k) (c k) = store (painted m D v 0 k) (D+k) (v k))
    (hpair : ∀ k, k+1 < n → (D+k)%2 = 0 → pair (painted m D v 0 k) (D+k) (c k) =
      store (store (painted m D v 0 k) (D+k) (v k)) (D+k+1) (v (k+1))) :
    forward head pixel pair next next2 n m D (c 0) = painted m D v 0 n := by
  rw [forward]
  by_cases hodd : D%2 = 1
  · have hfirst := store_painted_right (m := m) (D := D) (v := v) (le_refl 0)
    rw [painted_self,Nat.cast_zero,add_zero] at hfirst
    have hbody := body_eq c hnext2 hn (by push_cast; omega) hpixel hpair
    rw [if_pos hodd,hhead hodd,hfirst,hnext]
    exact hbody
  · have hbody := body_eq c hnext2 (Nat.zero_le n) (by push_cast; omega) hpixel hpair
    rw [painted_self,Nat.cast_zero,add_zero] at hbody
    rw [if_neg hodd]
    exact hbody

end Loops

section Directed

variable {w n : ℕ} {m : Pixels w} {D S step : ℤ} {v : ℕ → Option (BitVec w)}
  {pixel pair : Pixels w → ℤ → ℤ → Pixels w}

def Safe (step S D : ℤ) (n : ℕ) : Prop :=
  S+n ≤ D ∨ D+n ≤ S ∨ step = 1 ∧ D ≤ S ∨ step = -1 ∧ S ≤ D

def PixelSpec (pixel : Pixels w → ℤ → ℤ → Pixels w) (m : Pixels w) (D S : ℤ)
    (v : ℕ → Option (BitVec w)) (k : ℕ) : Prop :=
  ∀ m' : Pixels w, m' (S+k) = m (S+k) → m' (D+k) = m (D+k) →
    pixel m' (D+k) (S+k) = store m' (D+k) (v k)

def PairSpec (pair : Pixels w → ℤ → ℤ → Pixels w) (m : Pixels w) (D S : ℤ)
    (v : ℕ → Option (BitVec w)) (k : ℕ) : Prop :=
  ∀ m' : Pixels w, m' (S+k) = m (S+k) → m' (S+k+1) = m (S+k+1) → m' (D+k) = m (D+k) →
    m' (D+k+1) = m (D+k+1) →
    pair m' (D+k) (S+k) = store (store m' (D+k) (v k)) (D+k+1) (v (k+1))

theorem Safe.forward (h : Safe step S D n) (hstep : step = 1) {k i : ℕ} (_ : k < n)
    (hi : i ≤ k) : painted m D v 0 i (S+k) = m (S+k) := by
  refine painted_outside ?_
  rcases h with h | h | h | h <;> omega

theorem Safe.backward (h : Safe step S D n) (hstep : step = -1) {k i : ℕ} (_ : k < n)
    (hi : k < i) : painted m D v i n (S+k) = m (S+k) := by
  refine painted_outside ?_
  rcases h with h | h | h | h <;> omega

variable {k : ℕ} {gfxs : GenefxState}

theorem PixelSpec.forward (h : PixelSpec pixel m D S v k) (hsafe : Safe step S D n)
    (hstep : step = 1) (hk : k < n) :
    pixel (painted m D v 0 k) (D+k) (S+k) = store (painted m D v 0 k) (D+k) (v k) :=
  h _ (hsafe.forward hstep hk le_rfl) (painted_outside (by omega))

theorem PixelSpec.backward (h : PixelSpec pixel m D S v k) (hsafe : Safe step S D n)
    (hstep : step = -1) (hk : k < n) :
    pixel (painted m D v (k+1) n) (D+k) (S+k) = store (painted m D v (k+1) n) (D+k) (v k) :=
  h _ (hsafe.backward hstep hk (Nat.lt_succ_self k)) (painted_outside (by omega))

theorem PairSpec.forward (h : PairSpec pair m D S v k) (hsafe : Safe step S D n)
    (hstep : step = 1) (hk : k+1 < n) : pair (painted m D v 0 k) (D+k) (S+k) =
      store (store (painted m D v 0 k) (D+k) (v k)) (D+k+1) (v (k+1)) := by
  have hnext := hsafe.forward (m := m) (v := v) hstep hk (Nat.le_succ k)
  rw [Nat.cast_succ,← add_assoc] at hnext
  exact h _ (hsafe.forward hstep (by omega) le_rfl) hnext (painted_outside (by omega))
    (painted_outside (by omega))

theorem PairSpec.backward (h : PairSpec pair m D S v k) (hsafe : Safe step S D n)
    (hstep : step = -1) (hk : k+1 < n) : pair (painted m D v (k+2) n) (D+k) (S+k) =
      store (store (painted m D v (k+2) n) (D+k) (v k)) (D+k+1) (v (k+1)) := by
  have hnext := hsafe.backward (m := m) (v := v) hstep hk (Nat.lt_succ_self (k+1))
  rw [Nat.cast_succ,← add_assoc] at hnext
  exact h _ (hsafe.backward hstep (by omega) (by omega)) hnext (painted_outside (by omega))
    (painted_outside (by omega))

/-- One pixel at a time. -/
theorem plain_eq (hstep : gfxs.Ostep = 1 ∨ gfxs.Ostep = -1)
    (hsafe : Safe gfxs.Ostep gfxs.Bop gfxs.Aop gfxs.length)
    (hpixel : ∀ k < gfxs.length, PixelSpec pixel m gfxs.Aop gfxs.Bop v k) :
    plain pixel gfxs m = painted m gfxs.Aop v 0 gfxs.length := by
  rw [plain]
  rcases hstep with hstep | hstep
  · have hsteps : steps pixel 1 (·+1) gfxs.length (painted m gfxs.Aop v 0 0) gfxs.Aop
        (gfxs.Bop+(0 : ℕ)) = _ :=
      steps_eq (fun k => painted m gfxs.Aop v 0 k) (fun k => gfxs.Bop+k)
        (fun k => by push_cast; ring) gfxs.Aop fun k hk => by
          rw [mul_one,(hpixel k hk).forward hsafe hstep hk,store_painted_right (Nat.zero_le k)]
    rw [painted_self,Nat.cast_zero,add_zero] at hsteps
    simp only [hstep,show ¬(1 : ℤ) < 0 by decide,if_false]
    rw [hsteps]
  · have hsteps : steps pixel (-1) (·+-1) gfxs.length
        (painted m gfxs.Aop v (gfxs.length-0) gfxs.length) (gfxs.Aop+(gfxs.length-1))
        (gfxs.Bop+(gfxs.length-1)-(0 : ℕ)) = _ :=
      steps_eq (fun k => painted m gfxs.Aop v (gfxs.length-k) gfxs.length)
        (fun k => gfxs.Bop+(gfxs.length-1)-k) (fun k => by push_cast; ring)
        (gfxs.Aop+(gfxs.length-1)) fun k hk => by
          obtain ⟨i,hi⟩ : ∃ i, gfxs.length = i+1+k :=
            ⟨gfxs.length-(k+1),by omega⟩
          have hD : gfxs.Aop+(gfxs.length-1)+k*-1 = gfxs.Aop+i := by rw [hi]; push_cast; ring
          have hS : gfxs.Bop+(gfxs.length-1)-k = gfxs.Bop+i := by rw [hi]; push_cast; ring
          rw [hD,hS,show gfxs.length-k = i+1 by omega,show gfxs.length-(k+1) = i by omega,
            (hpixel i (by omega)).backward hsafe hstep (by omega),
            store_painted_left (by omega)]
    rw [Nat.sub_zero,painted_self,Nat.cast_zero,sub_zero] at hsteps
    simp only [hstep,show (-1 : ℤ) < 0 by decide,if_true]
    rw [hsteps,Nat.sub_self]

/-- What is done to the left of an aligned position. -/
theorem body_left (hsafe : Safe step S D n) (hstep : step = -1) {r : ℕ} (hr : r ≤ n)
    (heven : (D+r)%2 = 0) (hpixel : ∀ k < n, Single D n k → PixelSpec pixel m D S v k)
    (hpair : ∀ k, k+1 < n → (D+k)%2 = 0 → PairSpec pair m D S v k) :
    (let (m,D,S) := steps pair (-2) (·+-2) (r/2) (painted m D v r n) (D+r-2) (S+r-2)
    if r%2 = 1 then pixel m (D+1) (S+1) else m) = painted m D v 0 n := by
  have hsteps : steps pair (-2) (·+-2) (r/2) (painted m D v (r-2*0) n) (D+r-2)
      (S+r-2-2*(0 : ℕ)) = _ :=
    steps_eq (fun k => painted m D v (r-2*k) n) (fun k => S+r-2-2*k)
      (fun k => by push_cast; ring) (D+r-2) fun k hk => by
        obtain ⟨i,hi⟩ : ∃ i, r = i+2+2*k := ⟨r-(2+2*k),by omega⟩
        have hD : D+r-2+k*-2 = D+i := by rw [hi]; push_cast; ring
        have hS : S+r-2-2*k = S+i := by rw [hi]; push_cast; ring
        rw [hD,hS,show r-2*k = i+2 by omega,show r-2*(k+1) = i by omega,
          (hpair i (by omega) (by omega)).backward hsafe hstep (by omega),
          store_painted_two_left (by omega)]
  rw [Nat.mul_zero,Nat.sub_zero,Nat.cast_zero,mul_zero,sub_zero] at hsteps
  rw [hsteps]
  simp only
  split_ifs with hodd
  · have hD : D+r-2+(r/2 : ℕ)*-2+1 = D+(0 : ℕ) := by push_cast; omega
    have hS : S+r-2-2*(r/2 : ℕ)+1 = S+(0 : ℕ) := by push_cast; omega
    have hsingle : Single D n 0 := .inr ⟨by push_cast; omega,rfl⟩
    rw [hD,hS,show r-2*(r/2) = 0+1 by omega,
      (hpixel 0 (by omega) hsingle).backward hsafe hstep (by omega),store_painted_left (by omega)]
  · exact congrArg (fun i => painted m D v i n) (by omega)

theorem paired_eq (hstep : gfxs.Ostep = 1 ∨ gfxs.Ostep = -1)
    (hsafe : Safe gfxs.Ostep gfxs.Bop gfxs.Aop gfxs.length) (hn : 0 < gfxs.length)
    (hpixel : ∀ k < gfxs.length, Single gfxs.Aop gfxs.length k →
      PixelSpec pixel m gfxs.Aop gfxs.Bop v k)
    (hpair : ∀ k, k+1 < gfxs.length → (gfxs.Aop+k)%2 = 0 → PairSpec pair m gfxs.Aop gfxs.Bop v k) :
    paired pixel pair gfxs m = painted m gfxs.Aop v 0 gfxs.length := by
  rcases hstep with hstep | hstep
  · have hforward : forward pixel pixel pair (·+1) (·+2) gfxs.length m gfxs.Aop
        (gfxs.Bop+(0 : ℕ)) = _ := forward_eq (fun k => gfxs.Bop+k) (by push_cast; ring)
      (fun k => by push_cast; ring) hn
      (fun hodd => by
        have hfirst := (hpixel 0 hn (.inr ⟨by push_cast; omega,rfl⟩)).forward hsafe hstep hn
        simpa only [painted_self,Nat.cast_zero,add_zero] using hfirst)
      (fun k hk hsingle => (hpixel k hk hsingle).forward hsafe hstep hk)
      fun k hk heven => (hpair k hk heven).forward hsafe hstep hk
    rw [← hforward]
    have hpos : (0 : ℤ) < 1 := by decide
    have hneg : ¬(1 : ℤ) < 0 := by decide
    simp only [paired,forward,hstep,if_pos hpos,if_neg hneg,mul_one,Nat.cast_zero,add_zero]
  · have hodd : ¬(0 : ℤ) < -1 := by decide
    have hneg : (-1 : ℤ) < 0 := by decide
    simp only [paired,hstep,if_neg hodd,if_pos hneg,mul_neg,mul_one]
    by_cases hlast : (gfxs.Aop+(gfxs.length-1))%2 = 1
    · have hbody := body_left hsafe hstep le_rfl (by omega) hpixel hpair
      rw [painted_self] at hbody
      have hD : gfxs.Aop+(gfxs.length-1)-1 = gfxs.Aop+gfxs.length-2 := by ring
      have hS : gfxs.Bop+(gfxs.length-1)-1 = gfxs.Bop+gfxs.length-2 := by ring
      rw [← hbody]
      simp only [if_pos hlast,hD,hS]
    · obtain ⟨r,hr⟩ : ∃ r, gfxs.length = r+1 := ⟨gfxs.length-1,by omega⟩
      have hbody := body_left (r := r) hsafe hstep (by omega) (by omega) hpixel hpair
      have hfirst : pixel m (gfxs.Aop+(gfxs.length-1)) (gfxs.Bop+(gfxs.length-1)) =
          painted m gfxs.Aop v r gfxs.length := by
        have hD : gfxs.Aop+(gfxs.length-1) = gfxs.Aop+r := by rw [hr]; push_cast; ring
        have hS : gfxs.Bop+(gfxs.length-1) = gfxs.Bop+r := by rw [hr]; push_cast; ring
        rw [hD,hS,hpixel r (by omega) (.inl ⟨by omega,hr.symm⟩) m rfl rfl,
          ← store_painted_left (by omega),← hr,painted_self]
      have hD : gfxs.Aop+(gfxs.length-1)-2 = gfxs.Aop+r-2 := by rw [hr]; push_cast; ring
      have hS : gfxs.Bop+(gfxs.length-1)-2 = gfxs.Bop+r-2 := by rw [hr]; push_cast; ring
      rw [← hbody]
      simp only [if_neg hlast,hfirst,hD,hS,show gfxs.length-1 = r by omega]

/-- What a function with a direction paints. -/
theorem directed_eq (single : ℕ → Option (BitVec w))
    (pairs : ℕ → Option (BitVec w) × Option (BitVec w))
    (hstep : gfxs.Ostep = 1 ∨ gfxs.Ostep = -1)
    (hsafe : Safe gfxs.Ostep gfxs.Bop gfxs.Aop gfxs.length) (hn : 0 < gfxs.length)
    (hpixel : ∀ k, PixelSpec pixel m gfxs.Aop gfxs.Bop single k)
    (hpair : ∀ (k : ℕ) (m' : Pixels w), m' (gfxs.Bop+k) = m (gfxs.Bop+k) →
      m' (gfxs.Bop+k+1) = m (gfxs.Bop+k+1) → m' (gfxs.Aop+k) = m (gfxs.Aop+k) →
      m' (gfxs.Aop+k+1) = m (gfxs.Aop+k+1) → pair m' (gfxs.Aop+k) (gfxs.Bop+k) =
        store (store m' (gfxs.Aop+k) (pairs k).1) (gfxs.Aop+k+1) (pairs k).2) :
    directed pixel pair gfxs m = painted m gfxs.Aop (if gfxs.Bop%2 = gfxs.Aop%2
      then pairwise gfxs.Aop gfxs.length single pairs else single) 0 gfxs.length := by
  have hparity : (if gfxs.Ostep < 0 then gfxs.Bop+(gfxs.length-1) else gfxs.Bop)%2 =
      (if gfxs.Ostep < 0 then gfxs.Aop+(gfxs.length-1) else gfxs.Aop)%2 ↔
      gfxs.Bop%2 = gfxs.Aop%2 := by
    split_ifs <;> omega
  rw [directed]
  by_cases hsame : gfxs.Bop%2 = gfxs.Aop%2
  · have hpaired := paired_eq (v := pairwise gfxs.Aop gfxs.length single pairs) hstep hsafe hn
      (fun k _ hsingle m' hS hD => by rw [pairwise_single hsingle]; exact hpixel k m' hS hD)
      fun k hk heven m' hS hS' hD hD' => by
        rw [pairwise_fst heven hk,pairwise_snd heven]
        exact hpair k m' hS hS' hD hD'
    rw [if_neg (not_not.mpr (hparity.mpr hsame)),hpaired,if_pos hsame]
  · rw [if_pos (fun h => hsame (hparity.mp h)),if_neg hsame]
    exact plain_eq hstep hsafe fun k _ => hpixel k

/-- When that is the same as one pixel at a time. -/
theorem paired_iff {single : ℕ → Option (BitVec w)}
    {pairs : ℕ → Option (BitVec w) × Option (BitVec w)} :
    painted m gfxs.Aop (if gfxs.Bop%2 = gfxs.Aop%2
      then pairwise gfxs.Aop gfxs.length single pairs else single) 0 gfxs.length =
      painted m gfxs.Aop single 0 gfxs.length ↔ (gfxs.Bop%2 = gfxs.Aop%2 →
      ∀ k, k+1 < gfxs.length → (gfxs.Aop+k)%2 = 0 →
        (pairs k).1.getD (m (gfxs.Aop+k)) = (single k).getD (m (gfxs.Aop+k)) ∧
        (pairs k).2.getD (m (gfxs.Aop+k+1)) = (single (k+1)).getD (m (gfxs.Aop+k+1))) := by
  by_cases hsame : gfxs.Bop%2 = gfxs.Aop%2
  · rw [if_pos hsame,painted_eq_iff,pairwise_getD]
    exact ⟨fun h _ => h,fun h => h hsame⟩
  · rw [if_neg hsame]
    exact iff_of_true rfl fun h => absurd h hsame

end Directed

section Keys16

variable {e : Endian} {mask key : BitVec 16} {m : Pixels 16} {D S : ℤ}

theorem ktoPixel_eq {w : ℕ} (mask key : BitVec w) (m : Pixels w) (D S : ℤ) :
    ktoPixel mask key m D S = store m D (keyed mask key (m S)) := by
  rw [ktoPixel,keyed]
  split_ifs <;> rfl

theorem toKPixel_eq {w : ℕ} (mask key : BitVec w) (m : Pixels w) (D S : ℤ) :
    toKPixel mask key m D S = store m D (matching mask key (m S) (m D)) := by
  rw [toKPixel,matching]
  split_ifs <;> rfl

theorem ktoPair_eq (e : Endian) (mask key : BitVec 16) (m : Pixels 16) (D S : ℤ) :
    ktoPair e mask key m D S =
      store (store m D (keyed mask key (m S))) (D+1) (keyed mask key (m (S+1))) := by
  have hlow (h l : BitVec 16) : maskRgbL mask (h++l) = key.setWidth 32 ↔ l &&& mask = key :=
    low_eq_iff
  have hhigh (h l : BitVec 16) : maskRgbH mask (h++l) = key.setWidth 32 <<< 16 ↔
      h &&& mask = key := high_eq_iff
  have hlo (h l : BitVec 16) : BitVec.setWidth 16 (h++l : BitVec 32) = l := low_append h l
  have hhi (h l : BitVec 16) : BitVec.setWidth 16 ((h++l : BitVec 32) >>> 16) = h :=
    high_append h l
  cases e with
  | little =>
    simp only [ktoPair,keyed,load2,store2,ne_eq,hlow,hhigh,hlo,hhi]
    split_ifs <;> simp_all
  | big =>
    simp only [ktoPair,keyed,load2,store2,ne_eq,hlow,hhigh,hlo,hhi]
    split_ifs <;> simp_all

/-- What becomes of two pixels in `Bop_PFI_toK_Aop_PFI`: where only one of them matches the key
the other is written. -/
def crossed (mask key s s' d d' : BitVec 16) : Option (BitVec 16) × Option (BitVec 16) :=
  if d &&& mask = key then if d' &&& mask = key then (some s,some s') else (none,some s')
  else if d' &&& mask = key then (some s,none) else (none,none)

theorem toKPair_eq (e : Endian) (mask key : BitVec 16) (m : Pixels 16) (D S : ℤ) :
    toKPair e mask key m D S =
      store (store m D (crossed mask key (m S) (m (S+1)) (m D) (m (D+1))).1) (D+1)
        (crossed mask key (m S) (m (S+1)) (m D) (m (D+1))).2 := by
  have hlow (h l : BitVec 16) : maskRgbL mask (h++l) = key.setWidth 32 ↔ l &&& mask = key :=
    low_eq_iff
  have hhigh (h l : BitVec 16) : maskRgbH mask (h++l) = key.setWidth 32 <<< 16 ↔
      h &&& mask = key := high_eq_iff
  have hboth (h l : BitVec 16) : maskRgb32 mask (h++l) =
      key.setWidth 32 <<< 16 ||| key.setWidth 32 ↔ h &&& mask = key ∧ l &&& mask = key := by
    have hmask : mask.setWidth 32 <<< 16 ||| mask.setWidth 32 = mask++mask := shifted_or mask mask
    have hkey : key.setWidth 32 <<< 16 ||| key.setWidth 32 = key++key := shifted_or key key
    have hand : (h++l : BitVec 32) &&& (mask++mask) = (h &&& mask)++(l &&& mask) :=
      BitVec.and_append
    rw [maskRgb32,hmask,hkey,hand]
    exact append_inj
  have hstore : store2 e m D (load2 e m S) = update (update m D (m S)) (D+1) (m (S+1)) := by
    rw [load2_eq,store2_pack]
  cases e with
  | little =>
    simp only [toKPair,crossed,hstore]
    simp only [load2,hlow,hhigh,hboth]
    split_ifs <;> simp_all
  | big =>
    simp only [toKPair,crossed,hstore]
    simp only [load2,hlow,hhigh,hboth]
    split_ifs <;> simp_all

theorem ktoSpec (mask key : BitVec 16) (m : Pixels 16) (D S : ℤ) (k : ℕ) :
    PixelSpec (ktoPixel mask key) m D S (fun k => keyed mask key (m (S+k))) k :=
  fun m' hS _ => by rw [ktoPixel_eq,hS]

theorem toKSpec (mask key : BitVec 16) (m : Pixels 16) (D S : ℤ) (k : ℕ) :
    PixelSpec (toKPixel mask key) m D S (fun k => matching mask key (m (S+k)) (m (D+k))) k :=
  fun m' hS hD => by rw [toKPixel_eq,hS,hD]

/-- What is painted with a source key. -/
theorem bop16Kto_painted (e : Endian) (rgbMask : BitVec 16) {gfxs : GenefxState}
    (hstep : gfxs.Ostep = 1 ∨ gfxs.Ostep = -1)
    (hsafe : Safe gfxs.Ostep gfxs.Bop gfxs.Aop gfxs.length) (hn : 0 < gfxs.length)
    (m : Pixels 16) : bop16Kto e rgbMask gfxs m = painted m gfxs.Aop (if gfxs.Bop%2 = gfxs.Aop%2
      then pairwise gfxs.Aop gfxs.length
        (fun k => keyed rgbMask (gfxs.Skey.setWidth 16) (m (gfxs.Bop+k)))
        fun k => (keyed rgbMask (gfxs.Skey.setWidth 16) (m (gfxs.Bop+k)),
          keyed rgbMask (gfxs.Skey.setWidth 16) (m (gfxs.Bop+k+1)))
      else fun k => keyed rgbMask (gfxs.Skey.setWidth 16) (m (gfxs.Bop+k))) 0 gfxs.length :=
  directed_eq _ _ hstep hsafe hn (ktoSpec _ _ m _ _)
    fun k m' hS hS' _ _ => by rw [ktoPair_eq,hS,hS']

theorem bop16Kto_eq (e : Endian) (rgbMask : BitVec 16) {gfxs : GenefxState}
    (hstep : gfxs.Ostep = 1 ∨ gfxs.Ostep = -1)
    (hsafe : Safe gfxs.Ostep gfxs.Bop gfxs.Aop gfxs.length) (hn : 0 < gfxs.length)
    (m : Pixels 16) :
    bop16Kto e rgbMask gfxs m = plain (ktoPixel rgbMask (gfxs.Skey.setWidth 16)) gfxs m := by
  rw [bop16Kto_painted e rgbMask hstep hsafe hn,
    plain_eq hstep hsafe fun k _ => ktoSpec _ _ m _ _ k]
  refine paired_iff.mpr fun _ k _ _ => ⟨rfl,?_⟩
  rw [Nat.cast_succ,← add_assoc]

def EvenMatch (rgbMask : BitVec 16) (gfxs : GenefxState) (m : Pixels 16) : Prop :=
  gfxs.Bop%2 = gfxs.Aop%2 → ∀ k : ℕ, k+1 < gfxs.length → (gfxs.Aop+k)%2 = 0 →
    (m (gfxs.Aop+k) &&& rgbMask = gfxs.Dkey.setWidth 16 ↔
      m (gfxs.Aop+k+1) &&& rgbMask = gfxs.Dkey.setWidth 16) ∨
    m (gfxs.Bop+k) = m (gfxs.Aop+k) ∧ m (gfxs.Bop+k+1) = m (gfxs.Aop+k+1)

theorem crossed_iff (mask key s s' d d' : BitVec 16) :
    ((crossed mask key s s' d d').1.getD d = (matching mask key s d).getD d ∧
      (crossed mask key s s' d d').2.getD d' = (matching mask key s' d').getD d') ↔
    (d &&& mask = key ↔ d' &&& mask = key) ∨ s = d ∧ s' = d' := by
  rw [crossed,matching,matching]
  by_cases h : d &&& mask = key <;> by_cases h' : d' &&& mask = key <;> simp [h,h',eq_comm]

/-- What is painted with a destination key. -/
theorem bop16ToK_painted (e : Endian) (rgbMask : BitVec 16) {gfxs : GenefxState}
    (hstep : gfxs.Ostep = 1 ∨ gfxs.Ostep = -1)
    (hsafe : Safe gfxs.Ostep gfxs.Bop gfxs.Aop gfxs.length) (hn : 0 < gfxs.length)
    (m : Pixels 16) : bop16ToK e rgbMask gfxs m = painted m gfxs.Aop (if gfxs.Bop%2 = gfxs.Aop%2
      then pairwise gfxs.Aop gfxs.length
        (fun k => matching rgbMask (gfxs.Dkey.setWidth 16) (m (gfxs.Bop+k)) (m (gfxs.Aop+k)))
        fun k => crossed rgbMask (gfxs.Dkey.setWidth 16) (m (gfxs.Bop+k)) (m (gfxs.Bop+k+1))
          (m (gfxs.Aop+k)) (m (gfxs.Aop+k+1))
      else fun k => matching rgbMask (gfxs.Dkey.setWidth 16) (m (gfxs.Bop+k)) (m (gfxs.Aop+k)))
      0 gfxs.length :=
  directed_eq _ _ hstep hsafe hn (toKSpec _ _ m _ _)
    fun k m' hS hS' hD hD' => by rw [toKPair_eq,hS,hS',hD,hD']

theorem bop16ToK_iff (e : Endian) (rgbMask : BitVec 16) {gfxs : GenefxState}
    (hstep : gfxs.Ostep = 1 ∨ gfxs.Ostep = -1)
    (hsafe : Safe gfxs.Ostep gfxs.Bop gfxs.Aop gfxs.length) (hn : 0 < gfxs.length)
    (m : Pixels 16) :
    bop16ToK e rgbMask gfxs m = plain (toKPixel rgbMask (gfxs.Dkey.setWidth 16)) gfxs m ↔
      EvenMatch rgbMask gfxs m := by
  rw [bop16ToK_painted e rgbMask hstep hsafe hn,
    plain_eq hstep hsafe fun k _ => toKSpec _ _ m _ _ k]
  refine paired_iff.trans (imp_congr_right fun _ => forall_congr' fun k =>
    imp_congr_right fun _ => imp_congr_right fun _ => ?_)
  rw [Nat.cast_succ,← add_assoc,← add_assoc]
  exact crossed_iff _ _ _ _ _ _

end Keys16

section Scaled

variable {w : ℕ} {m : Pixels w}

def Apart (gfxs : GenefxState) : Prop :=
  gfxs.Bop+((gfxs.Xphase+(gfxs.length-1)*gfxs.SperD) >>> 16 : ℕ) < gfxs.Aop ∨
    gfxs.Aop+gfxs.length ≤ gfxs.Bop

theorem scaledPair_eq (e : Endian) (Bop : ℤ) (SperD : ℕ) (m : Pixels w) (D : ℤ) (i : ℕ) :
    scaledPair e Bop SperD m D i = store (store m D (some (m (Bop+(i >>> 16 : ℕ))))) (D+1)
      (some (m (Bop+((i+SperD) >>> 16 : ℕ)))) := by
  cases e with
  | little =>
    rw [scaledPair,shifted_or]
    exact store2_pack .little m D _ _
  | big =>
    rw [scaledPair,shifted_or]
    exact store2_pack .big m D _ _

def scaled (gfxs : GenefxState) (m : Pixels w) (phase k : ℕ) : Option (BitVec w) :=
  some (m (gfxs.Bop+((phase+k*gfxs.SperD) >>> 16 : ℕ)))

variable {gfxs : GenefxState}

theorem Apart.read (h : Apart gfxs) {v : ℕ → Option (BitVec w)} {i k : ℕ}
    (hk : k < gfxs.length) (hi : i ≤ gfxs.length) {phase : ℕ} (hphase : phase ≤ gfxs.Xphase) :
    painted m gfxs.Aop v 0 i (gfxs.Bop+((phase+k*gfxs.SperD) >>> 16 : ℕ)) =
      m (gfxs.Bop+((phase+k*gfxs.SperD) >>> 16 : ℕ)) := by
  have hle : (phase+k*gfxs.SperD) >>> 16 ≤ (gfxs.Xphase+(gfxs.length-1)*gfxs.SperD) >>> 16 := by
    have hmul : k*gfxs.SperD ≤ (gfxs.length-1)*gfxs.SperD :=
      Nat.mul_le_mul_right _ (by omega)
    rw [Nat.shiftRight_eq_div_pow,Nat.shiftRight_eq_div_pow]
    exact Nat.div_le_div_right (by omega)
  refine painted_outside ?_
  rcases h with h | h <;> omega

theorem sto_eq (e : Endian) (hn : 0 < gfxs.length) (hapart : Apart gfxs)
    {phase : ℕ} (hphase : phase ≤ gfxs.Xphase) (hsmall : phase < 65536) (m : Pixels w) :
    forward (firstPixel gfxs.Bop) (scaledPixel gfxs.Bop) (scaledPair e gfxs.Bop gfxs.SperD)
      (·+gfxs.SperD) (·+gfxs.SperD <<< 1) gfxs.length m gfxs.Aop phase =
    painted m gfxs.Aop (scaled gfxs m phase) 0 gfxs.length := by
  have hforward : forward (firstPixel gfxs.Bop) (scaledPixel gfxs.Bop)
      (scaledPair e gfxs.Bop gfxs.SperD) (·+gfxs.SperD) (·+gfxs.SperD <<< 1) gfxs.length m
      gfxs.Aop (phase+0*gfxs.SperD) = painted m gfxs.Aop (scaled gfxs m phase) 0 gfxs.length := by
    refine forward_eq (fun k => phase+k*gfxs.SperD) (by ring) (fun k => ?_) hn (fun _ => ?_)
      (fun k hk _ => ?_) fun k hk _ => ?_
    · rw [Nat.shiftLeft_eq]
      ring
    · have hzero : (phase+0*gfxs.SperD) >>> 16 = 0 := by
        rw [Nat.shiftRight_eq_div_pow]
        omega
      rw [scaled,hzero,Nat.cast_zero,add_zero]
      rfl
    · rw [scaledPixel,hapart.read hk hk.le hphase]
      rfl
    · have hsnd : phase+k*gfxs.SperD+gfxs.SperD = phase+(k+1)*gfxs.SperD := by ring
      rw [scaledPair_eq,hsnd,hapart.read (by omega) (by omega) hphase,
        hapart.read hk (by omega) hphase]
      rfl
  rwa [Nat.zero_mul,Nat.add_zero] at hforward

theorem plainSto_eq (hapart : Apart gfxs) (m : Pixels w) :
    plainSto gfxs m = painted m gfxs.Aop (scaled gfxs m gfxs.Xphase) 0 gfxs.length := by
  have hsteps : steps (scaledPixel gfxs.Bop) 1 (·+gfxs.SperD) gfxs.length
      (painted m gfxs.Aop (scaled gfxs m gfxs.Xphase) 0 0) gfxs.Aop
      (gfxs.Xphase+0*gfxs.SperD) = _ :=
    steps_eq (fun k => painted m gfxs.Aop (scaled gfxs m gfxs.Xphase) 0 k)
      (fun k => gfxs.Xphase+k*gfxs.SperD) (fun k => by ring) gfxs.Aop fun k hk => by
        rw [mul_one,scaledPixel,hapart.read hk hk.le le_rfl,← store_painted_right (Nat.zero_le k)]
        rfl
  rw [painted_self,Nat.zero_mul,Nat.add_zero] at hsteps
  rw [plainSto,hsteps]

theorem bop16Sto_eq (e : Endian) (hn : 0 < gfxs.length)
    (hphase : gfxs.Xphase < 65536) (hapart : Apart gfxs) (m : Pixels 16) :
    bop16Sto e gfxs m = plainSto gfxs m := by
  rw [plainSto_eq hapart,← sto_eq e hn hapart le_rfl hphase]
  rfl

def PhaseKept (gfxs : GenefxState) (m : Pixels 32) : Prop :=
  ∀ k < gfxs.length, 65536 ≤ k*gfxs.SperD%65536+gfxs.Xphase →
    m (gfxs.Bop+(k*gfxs.SperD/65536 : ℕ)+1) = m (gfxs.Bop+(k*gfxs.SperD/65536 : ℕ))

theorem bop32Sto64_painted (e : Endian) (hn : 0 < gfxs.length)
    (hapart : Apart gfxs) (m : Pixels 32) :
    bop32Sto64 e gfxs m = painted m gfxs.Aop (scaled gfxs m 0) 0 gfxs.length :=
  sto_eq e hn hapart (Nat.zero_le _) (by decide) m

theorem bop32Sto64_iff (e : Endian) (hn : 0 < gfxs.length)
    (hphase : gfxs.Xphase < 65536) (hapart : Apart gfxs) (m : Pixels 32) :
    bop32Sto64 e gfxs m = plainSto gfxs m ↔ PhaseKept gfxs m := by
  rw [plainSto_eq hapart,bop32Sto64_painted e hn hapart,painted_eq_iff]
  refine forall_congr' fun k => imp_congr_right fun _ => ?_
  have hzero : (0+k*gfxs.SperD) >>> 16 = k*gfxs.SperD/65536 := by
    rw [Nat.zero_add,Nat.shiftRight_eq_div_pow]
  rw [scaled,scaled,Option.getD_some,Option.getD_some,hzero,Nat.shiftRight_eq_div_pow]
  by_cases hcarry : 65536 ≤ k*gfxs.SperD%65536+gfxs.Xphase
  · have hnext : (gfxs.Xphase+k*gfxs.SperD)/2^16 = k*gfxs.SperD/65536+1 := by omega
    rw [hnext,Nat.cast_succ,← add_assoc]
    exact ⟨fun h _ => h.symm,fun h => (h hcarry).symm⟩
  · have hsame : (gfxs.Xphase+k*gfxs.SperD)/2^16 = k*gfxs.SperD/65536 := by omega
    rw [hsame]
    exact iff_of_true rfl fun h => absurd h hcarry

end Scaled

section Keys32

variable {m : Pixels 32}

variable {gfxs : GenefxState}

/-- What is painted from left to right, two pixels at a time. -/
theorem forward_painted {pixel pair : Pixels 32 → ℤ → ℤ → Pixels 32}
    (single : ℕ → Option (BitVec 32)) (pairs : ℕ → Option (BitVec 32) × Option (BitVec 32))
    (hsafe : Safe 1 gfxs.Bop gfxs.Aop gfxs.length) (hn : 0 < gfxs.length)
    (hpixel : ∀ k, PixelSpec pixel m gfxs.Aop gfxs.Bop single k)
    (hpair : ∀ (k : ℕ) (m' : Pixels 32), m' (gfxs.Bop+k) = m (gfxs.Bop+k) →
      m' (gfxs.Bop+k+1) = m (gfxs.Bop+k+1) → m' (gfxs.Aop+k) = m (gfxs.Aop+k) →
      m' (gfxs.Aop+k+1) = m (gfxs.Aop+k+1) → pair m' (gfxs.Aop+k) (gfxs.Bop+k) =
        store (store m' (gfxs.Aop+k) (pairs k).1) (gfxs.Aop+k+1) (pairs k).2) :
    forward pixel pixel pair (·+1) (·+2) gfxs.length m gfxs.Aop gfxs.Bop =
      painted m gfxs.Aop (pairwise gfxs.Aop gfxs.length single pairs) 0 gfxs.length := by
  have hpos : (0 : ℤ) < 1 := by decide
  have hneg : ¬(1 : ℤ) < 0 := by decide
  have hforward : forward pixel pixel pair (·+1) (·+2) gfxs.length m gfxs.Aop gfxs.Bop =
      paired pixel pair {gfxs with Ostep := 1} m := by
    simp only [paired,forward,if_pos hpos,if_neg hneg,mul_one]
  have hpaired : paired pixel pair {gfxs with Ostep := 1} m =
      painted m gfxs.Aop (pairwise gfxs.Aop gfxs.length single pairs) 0 gfxs.length :=
    paired_eq (.inl rfl) hsafe hn
      (fun k _ hsingle m' hS hD => by rw [pairwise_single hsingle]; exact hpixel k m' hS hD)
      fun k hk heven m' hS hS' hD hD' => by
        rw [pairwise_fst heven hk,pairwise_snd heven]
        exact hpair k m' hS hS' hD hD'
  rw [hforward,hpaired]

theorem plainForward_eq {pixel : Pixels 32 → ℤ → ℤ → Pixels 32}
    {single : ℕ → Option (BitVec 32)} (hsafe : Safe 1 gfxs.Bop gfxs.Aop gfxs.length)
    (hpixel : ∀ k, PixelSpec pixel m gfxs.Aop gfxs.Bop single k) :
    plainForward pixel gfxs m = painted m gfxs.Aop single 0 gfxs.length := by
  have hneg : ¬(1 : ℤ) < 0 := by decide
  have hplain : plainForward pixel gfxs m = plain pixel {gfxs with Ostep := 1} m := by
    simp only [plainForward,plain,if_neg hneg]
  have heq : plain pixel {gfxs with Ostep := 1} m = painted m gfxs.Aop single 0 gfxs.length :=
    plain_eq (.inl rfl) hsafe fun k _ => hpixel k
  rw [hplain,heq]

def KeyFits (key : BitVec 32) : Prop := key &&& 0x00ffffff = key

instance (key : BitVec 32) : Decidable (KeyFits key) := inferInstanceAs (Decidable (_ = _))

def Matches (key p : BitVec 32) : Prop := p &&& 0x00ffffff = key &&& 0x00ffffff

instance (key p : BitVec 32) : Decidable (Matches key p) := inferInstanceAs (Decidable (_ = _))

/-- What becomes of the low and the high half of a word in `Bop_rgb32_Kto_Aop_64`. -/
def droppedHalves (key low high : BitVec 32) : Option (BitVec 32) × Option (BitVec 32) :=
  if KeyFits key ∧ Matches key high ∧ Matches key low then (none,none)
  else if Matches key high then (some low,none)
  else if Matches key low then (none,some high)
  else (some low,some high)

/-- What becomes of two pixels in `Bop_rgb32_Kto_Aop_64`. -/
def dropped (e : Endian) (key s s' : BitVec 32) : Option (BitVec 32) × Option (BitVec 32) :=
  match e with
  | .little => droppedHalves key s s'
  | .big => (droppedHalves key s' s).swap

theorem rgbLow_append (h l : BitVec 32) : rgbLow (h++l) = (0 : BitVec 32)++(l &&& 0x00ffffff) := by
  have hmask : (0x0000000000ffffff : BitVec 64) = (0 : BitVec 32)++(0x00ffffff : BitVec 32) := by
    decide
  rw [rgbLow,hmask]
  exact BitVec.and_append.trans (congrArg (·++_) BitVec.and_zero)

theorem rgbHigh_append (h l : BitVec 32) :
    rgbHigh (h++l) = (h &&& 0x00ffffff)++(0 : BitVec 32) := by
  have hmask : (0x00ffffff00000000 : BitVec 64) = (0x00ffffff : BitVec 32)++(0 : BitVec 32) := by
    decide
  rw [rgbHigh,hmask]
  exact BitVec.and_append.trans (congrArg (_++·) BitVec.and_zero)

theorem rgbBoth_append (h l : BitVec 32) :
    rgbBoth (h++l) = (h &&& 0x00ffffff)++(l &&& 0x00ffffff) := by
  have hmask : (0x00ffffff00ffffff : BitVec 64) =
      (0x00ffffff : BitVec 32)++(0x00ffffff : BitVec 32) := by
    decide
  rw [rgbBoth,hmask]
  exact BitVec.and_append

theorem doubled (key : BitVec 32) :
    key.setWidth 64 <<< 32 ||| key.setWidth 64 = (key++key : BitVec 64) := shifted_or key key

theorem rgbLow_iff (key h l : BitVec 32) :
    rgbLow (h++l) = rgbLow (key.setWidth 64 <<< 32 ||| key.setWidth 64) ↔ Matches key l := by
  rw [doubled,rgbLow_append,rgbLow_append]
  exact append_inj.trans (and_iff_right rfl)

theorem rgbHigh_iff (key h l : BitVec 32) :
    rgbHigh (h++l) = rgbHigh (key.setWidth 64 <<< 32 ||| key.setWidth 64) ↔ Matches key h := by
  rw [doubled,rgbHigh_append,rgbHigh_append]
  exact append_inj.trans (and_iff_left rfl)

theorem rgbBoth_iff (key h l : BitVec 32) :
    rgbBoth (h++l) = key.setWidth 64 <<< 32 ||| key.setWidth 64 ↔
      KeyFits key ∧ Matches key h ∧ Matches key l := by
  rw [doubled,rgbBoth_append]
  refine append_inj.trans ⟨fun ⟨hh,hl⟩ => ?_,fun ⟨hfits,hh,hl⟩ => ?_⟩
  · have hfits : KeyFits key := by
      rw [KeyFits,← hl,BitVec.and_assoc,BitVec.and_self]
    exact ⟨hfits,hh.trans hfits.symm,hl.trans hfits.symm⟩
  · exact ⟨hh.trans hfits,hl.trans hfits⟩

theorem kto64Pair_eq (e : Endian) (key : BitVec 32) (m : Pixels 32) (D S : ℤ) :
    kto64Pair e key m D S = store (store m D (dropped e key (m S) (m (S+1))).1) (D+1)
        (dropped e key (m S) (m (S+1))).2 := by
  have hlo (h l : BitVec 32) : BitVec.setWidth 32 (h++l : BitVec 64) = l := low_append h l
  have hhi (h l : BitVec 32) : BitVec.setWidth 32 ((h++l : BitVec 64) >>> 32) = h :=
    high_append h l
  cases e with
  | little =>
    simp only [kto64Pair,dropped,droppedHalves,load2,store2,ne_eq,rgbLow_iff,rgbHigh_iff,
      rgbBoth_iff,hlo,hhi]
    split_ifs <;> simp_all
  | big =>
    simp only [kto64Pair,dropped,droppedHalves,load2,store2,ne_eq,rgbLow_iff,rgbHigh_iff,
      rgbBoth_iff,hlo,hhi]
    split_ifs <;> simp_all

theorem matches_iff {key p : BitVec 32} (h : KeyFits key) :
    Matches key p ↔ p &&& 0x00ffffff = key := by
  rw [Matches,show key &&& 0x00ffffff = key from h]

theorem ne_of_not_fits {key : BitVec 32} (h : ¬KeyFits key) (p : BitVec 32) :
    p &&& 0x00ffffff ≠ key := by
  rintro rfl
  exact h (by rw [KeyFits,BitVec.and_assoc,BitVec.and_self])

theorem keyed_of_fits {key : BitVec 32} (h : KeyFits key) (p : BitVec 32) :
    keyed 0x00ffffff key p = if Matches key p then none else some p := by
  rw [keyed]
  by_cases hp : Matches key p
  · rw [if_pos hp,if_neg (not_not.mpr ((matches_iff h).mp hp))]
  · rw [if_neg hp,if_pos fun heq => hp ((matches_iff h).mpr heq)]

theorem keyed_of_not_fits {key : BitVec 32} (h : ¬KeyFits key) (p : BitVec 32) :
    keyed 0x00ffffff key p = some p := if_pos (ne_of_not_fits h p)

def DropHarmless (key low high dlow dhigh : BitVec 32) : Prop :=
  (Matches key high → high = dhigh) ∧ (¬Matches key high → Matches key low → low = dlow)

theorem droppedHalves_iff (key s s' d d' : BitVec 32) :
    ((droppedHalves key s s').1.getD d = (keyed 0x00ffffff key s).getD d ∧
      (droppedHalves key s s').2.getD d' = (keyed 0x00ffffff key s').getD d') ↔
    KeyFits key ∨ DropHarmless key s s' d d' := by
  rw [droppedHalves,DropHarmless]
  by_cases hfits : KeyFits key
  · rw [keyed_of_fits hfits,keyed_of_fits hfits]
    by_cases h : Matches key s <;> by_cases h' : Matches key s' <;> simp [h,h',hfits]
  · rw [keyed_of_not_fits hfits,keyed_of_not_fits hfits]
    by_cases h : Matches key s <;> by_cases h' : Matches key s' <;> simp [h,h',hfits,eq_comm]

def dropHarmless (e : Endian) (key s s' d d' : BitVec 32) : Prop :=
  match e with
  | .little => DropHarmless key s s' d d'
  | .big => DropHarmless key s' s d' d

theorem dropped_iff (e : Endian) (key s s' d d' : BitVec 32) :
    ((dropped e key s s').1.getD d = (keyed 0x00ffffff key s).getD d ∧
      (dropped e key s s').2.getD d' = (keyed 0x00ffffff key s').getD d') ↔
    KeyFits key ∨ dropHarmless e key s s' d d' := by
  cases e with
  | little => exact droppedHalves_iff key s s' d d'
  | big => exact and_comm.trans (droppedHalves_iff key s' s d' d)

def SkeyKept (e : Endian) (gfxs : GenefxState) (m : Pixels 32) : Prop :=
  KeyFits gfxs.Skey ∨ ∀ k : ℕ, k+1 < gfxs.length → (gfxs.Aop+k)%2 = 0 →
    dropHarmless e gfxs.Skey (m (gfxs.Bop+k)) (m (gfxs.Bop+k+1)) (m (gfxs.Aop+k)) (m (gfxs.Aop+k+1))

theorem forall_pairs_or {P : Prop} {Q : ℕ → Prop} {n : ℕ} {D : ℤ} :
    (∀ k : ℕ, k+1 < n → (D+k)%2 = 0 → P ∨ Q k) ↔ P ∨ ∀ k : ℕ, k+1 < n → (D+k)%2 = 0 → Q k := by
  by_cases h : P
  · simp [h]
  · simp [h]

theorem bopRgb32Kto64_painted (e : Endian) (hn : 0 < gfxs.length)
    (hsafe : Safe 1 gfxs.Bop gfxs.Aop gfxs.length) (m : Pixels 32) :
    bopRgb32Kto64 e gfxs m = painted m gfxs.Aop (pairwise gfxs.Aop gfxs.length
      (fun k => keyed 0x00ffffff gfxs.Skey (m (gfxs.Bop+k)))
      fun k => dropped e gfxs.Skey (m (gfxs.Bop+k)) (m (gfxs.Bop+k+1))) 0 gfxs.length :=
  forward_painted _ _ hsafe hn (fun k m' hS _ => by rw [ktoPixel_eq,hS])
    fun k m' hS hS' _ _ => by rw [kto64Pair_eq,hS,hS']

theorem bopRgb32Kto64_iff (e : Endian) (hn : 0 < gfxs.length)
    (hsafe : Safe 1 gfxs.Bop gfxs.Aop gfxs.length) (m : Pixels 32) :
    bopRgb32Kto64 e gfxs m = plainForward (ktoPixel 0x00ffffff gfxs.Skey) gfxs m ↔
      SkeyKept e gfxs m := by
  have hplain : plainForward (ktoPixel 0x00ffffff gfxs.Skey) gfxs m = painted m gfxs.Aop
      (fun k => keyed 0x00ffffff gfxs.Skey (m (gfxs.Bop+k))) 0 gfxs.length :=
    plainForward_eq hsafe fun k m' hS _ => by rw [ktoPixel_eq,hS]
  rw [bopRgb32Kto64_painted e hn hsafe,hplain,painted_eq_iff,pairwise_getD,SkeyKept,
    ← forall_pairs_or]
  refine forall_congr' fun k => imp_congr_right fun _ => imp_congr_right fun _ => ?_
  rw [Nat.cast_succ,← add_assoc]
  exact dropped_iff e _ _ _ _ _

/-- What becomes of two pixels in `Bop_rgb32_toK_Aop_64`. -/
def matched (key s s' d d' : BitVec 32) : Option (BitVec 32) × Option (BitVec 32) :=
  (if Matches key d then some s else none,if Matches key d' then some s' else none)

theorem toK64Pair_eq (e : Endian) (key : BitVec 32) (m : Pixels 32) (D S : ℤ) :
    toK64Pair e key m D S = store (store m D (matched key (m S) (m (S+1)) (m D) (m (D+1))).1) (D+1)
        (matched key (m S) (m (S+1)) (m D) (m (D+1))).2 := by
  have hstore : store2 e m D (load2 e m S) = update (update m D (m S)) (D+1) (m (S+1)) := by
    rw [load2_eq,store2_pack]
  cases e with
  | little =>
    simp only [toK64Pair,matched,hstore]
    simp only [load2,rgbLow_iff,rgbHigh_iff]
    split_ifs <;> simp_all
  | big =>
    simp only [toK64Pair,matched,hstore]
    simp only [load2,rgbLow_iff,rgbHigh_iff]
    split_ifs <;> simp_all

theorem matched_iff (key s s' d d' : BitVec 32) :
    ((matched key s s' d d').1.getD d = (matching 0x00ffffff key s d).getD d ∧
      (matched key s s' d d').2.getD d' = (matching 0x00ffffff key s' d').getD d') ↔
    KeyFits key ∨ (Matches key d → s = d) ∧ (Matches key d' → s' = d') := by
  rw [matched,matching,matching]
  by_cases hfits : KeyFits key
  · simp only [← matches_iff hfits,hfits,true_or,iff_true]
    exact ⟨trivial,trivial⟩
  · simp only [ne_of_not_fits hfits,hfits,false_or,if_false]
    by_cases h : Matches key d <;> by_cases h' : Matches key d' <;> simp [h,h']

def DkeyKept (gfxs : GenefxState) (m : Pixels 32) : Prop :=
  KeyFits gfxs.Dkey ∨ ∀ k : ℕ, k+1 < gfxs.length → (gfxs.Aop+k)%2 = 0 →
    (Matches gfxs.Dkey (m (gfxs.Aop+k)) → m (gfxs.Bop+k) = m (gfxs.Aop+k)) ∧
    (Matches gfxs.Dkey (m (gfxs.Aop+k+1)) → m (gfxs.Bop+k+1) = m (gfxs.Aop+k+1))

theorem bopRgb32ToK64_painted (e : Endian) (hn : 0 < gfxs.length)
    (hsafe : Safe 1 gfxs.Bop gfxs.Aop gfxs.length) (m : Pixels 32) :
    bopRgb32ToK64 e gfxs m = painted m gfxs.Aop (pairwise gfxs.Aop gfxs.length
      (fun k => matching 0x00ffffff gfxs.Dkey (m (gfxs.Bop+k)) (m (gfxs.Aop+k)))
      fun k => matched gfxs.Dkey (m (gfxs.Bop+k)) (m (gfxs.Bop+k+1)) (m (gfxs.Aop+k))
        (m (gfxs.Aop+k+1))) 0 gfxs.length :=
  forward_painted _ _ hsafe hn (fun k m' hS hD => by rw [toKPixel_eq,hS,hD])
    fun k m' hS hS' hD hD' => by rw [toK64Pair_eq,hS,hS',hD,hD']

theorem bopRgb32ToK64_iff (e : Endian) (hn : 0 < gfxs.length)
    (hsafe : Safe 1 gfxs.Bop gfxs.Aop gfxs.length) (m : Pixels 32) :
    bopRgb32ToK64 e gfxs m = plainForward (toKPixel 0x00ffffff gfxs.Dkey) gfxs m ↔
      DkeyKept gfxs m := by
  have hplain : plainForward (toKPixel 0x00ffffff gfxs.Dkey) gfxs m = painted m gfxs.Aop
      (fun k => matching 0x00ffffff gfxs.Dkey (m (gfxs.Bop+k)) (m (gfxs.Aop+k))) 0 gfxs.length :=
    plainForward_eq hsafe fun k m' hS hD => by rw [toKPixel_eq,hS,hD]
  rw [bopRgb32ToK64_painted e hn hsafe,hplain,painted_eq_iff,pairwise_getD,DkeyKept,
    ← forall_pairs_or]
  refine forall_congr' fun k => imp_congr_right fun _ => imp_congr_right fun _ => ?_
  rw [Nat.cast_succ,← add_assoc,← add_assoc]
  exact matched_iff _ _ _ _ _

theorem copTo64_painted (e : Endian) (hn : 0 < gfxs.length)
    (m : Pixels 32) : copTo64 e gfxs m =
      painted m gfxs.Aop (fun _ => some gfxs.Cop) 0 gfxs.length := by
  have hpair (m : Pixels 32) (D : ℤ) :
      store2 e m D (gfxs.Cop.setWidth 64 <<< 32 ||| gfxs.Cop.setWidth 64) =
      update (update m D gfxs.Cop) (D+1) gfxs.Cop := by
    have hword : pack e gfxs.Cop gfxs.Cop = gfxs.Cop++gfxs.Cop := by cases e <;> rfl
    rw [doubled,← hword]
    exact store2_pack e m D _ _
  exact forward_eq (fun _ => ()) rfl (fun _ => rfl) hn (fun _ => rfl) (fun _ _ _ => rfl)
    fun _ _ _ => hpair _ _

theorem copTo64_eq (e : Endian) (hn : 0 < gfxs.length) (m : Pixels 32) :
    copTo64 e gfxs m = plainCop gfxs m := by
  have hsteps : steps (copPixel gfxs.Cop) 1 id gfxs.length
      (painted m gfxs.Aop (fun _ => some gfxs.Cop) 0 0) gfxs.Aop () = _ :=
    steps_eq (fun k => painted m gfxs.Aop (fun _ => some gfxs.Cop) 0 k) (fun _ => ())
      (fun _ => rfl) gfxs.Aop fun k _ => by
        rw [mul_one,← store_painted_right (Nat.zero_le k)]
        rfl
  rw [painted_self] at hsteps
  rw [copTo64_painted e hn,plainCop,hsteps]

end Keys32

section Accumulators

variable {m : Pixels 16} {D : ℤ}

theorem and_shiftLeft_lt (x c k : ℕ) (h : c <<< k < 2^16) : (x &&& c) <<< k < 2^16 := by
  rw [Nat.shiftLeft_eq] at h ⊢
  exact (Nat.mul_le_mul_right _ Nat.and_le_right).trans_lt h

theorem and_shiftRight_lt (x c k : ℕ) (h : c < 2^16) : (x &&& c) >>> k < 2^16 := by
  rw [Nat.shiftRight_eq_div_pow]
  exact (Nat.div_le_self _ _).trans_lt (Nat.and_le_right.trans_lt h)

theorem pixelOut_lt (f : Format16) (a r g b : ℕ) : f.pixelOut a r g b < 2^16 := by
  cases f <;> simp only [Format16.pixelOut] <;> repeat' apply Nat.or_lt_two_pow
  all_goals first
    | exact and_shiftLeft_lt _ _ _ (by decide)
    | exact and_shiftRight_lt _ _ _ (by decide)
    | exact Nat.and_le_right.trans_lt (by decide)

theorem word_of_pixels {x y : ℕ} (hx : x < 2^16) (hy : y < 2^16) :
    BitVec.ofNat 32 (x ||| y <<< 16) = BitVec.ofNat 16 y++BitVec.ofNat 16 x := by
  have hwide {z : ℕ} (hz : z < 2^16) : (BitVec.ofNat 16 z).setWidth 32 = BitVec.ofNat 32 z := by
    refine BitVec.eq_of_toNat_eq ?_
    rw [BitVec.toNat_setWidth,BitVec.toNat_ofNat,BitVec.toNat_ofNat]
    omega
  have hword : (BitVec.ofNat 16 y).setWidth 32 <<< 16 ||| (BitVec.ofNat 16 x).setWidth 32 =
      BitVec.ofNat 16 y++BitVec.ofNat 16 x := shifted_or _ _
  rw [← hword,hwide hx,hwide hy]
  refine BitVec.eq_of_toNat_eq ?_
  rw [BitVec.toNat_or,BitVec.toNat_shiftLeft,BitVec.toNat_ofNat,BitVec.toNat_ofNat,
    BitVec.toNat_ofNat,Nat.or_comm,Nat.shiftLeft_eq,Nat.shiftLeft_eq]
  have hor : y*2^16 ||| x < 2^32 := Nat.or_lt_two_pow (by omega) (by omega)
  rw [Nat.mod_eq_of_lt hor,Nat.mod_eq_of_lt (show x < 2^32 by omega),
    Nat.mod_eq_of_lt (show y < 2^32 by omega),Nat.mod_eq_of_lt (by omega)]

def written (f : Format16) (x : Accumulator) : Option (BitVec 16) :=
  if x.Marked then none else some (BitVec.ofNat 16 (f.pixel x))

theorem saccPixel_eq (f : Format16) (m : Pixels 16) (D : ℤ) (x : Accumulator) :
    saccPixel f m D x = store m D (written f x) := by
  rw [saccPixel,written]
  split_ifs <;> rfl

theorem saccPair_eq (e : Endian) (f : Format16) (m : Pixels 16) (D : ℤ) (x y : Accumulator) :
    saccPair e f m D x y = store (store m D (written f x)) (D+1) (written f y) := by
  have hword (x y : Accumulator) : BitVec.ofNat 32 (f.pixel x ||| f.pixel y <<< 16) =
      BitVec.ofNat 16 (f.pixel y)++BitVec.ofNat 16 (f.pixel x) :=
    word_of_pixels (pixelOut_lt _ _ _ _ _) (pixelOut_lt _ _ _ _ _)
  have hstore (x y : BitVec 16) : store2 .little m D (y++x) = update (update m D x) (D+1) y :=
    store2_pack .little m D x y
  have hstore' (x y : BitVec 16) : store2 .big m D (x++y) = update (update m D x) (D+1) y :=
    store2_pack .big m D x y
  cases e with
  | little =>
    simp only [saccPair,written,hword,hstore]
    by_cases hx : x.Marked <;> by_cases hy : y.Marked <;> simp [hx,hy]
  | big =>
    simp only [saccPair,written,hword,hstore']
    by_cases hx : x.Marked <;> by_cases hy : y.Marked <;> simp [hx,hy]

theorem saccTo_eq (e : Endian) (f : Format16) (Sacc : ℕ → Accumulator) {gfxs : GenefxState}
    (hn : 0 < gfxs.length) (m : Pixels 16) :
    saccTo e f Sacc gfxs m = plainSacc f Sacc gfxs m := by
  rw [saccTo]
  split_ifs with hstep
  · rfl
  · rw [not_not] at hstep
    have hforward : forward (fun m D k => saccPixel f m D (Sacc k))
        (fun m D k => saccPixel f m D (Sacc k))
        (fun m D k => saccPair e f m D (Sacc k) (Sacc (k+1))) (·+1) (·+2) gfxs.length m
        gfxs.Aop 0 = painted m gfxs.Aop (fun k => written f (Sacc k)) 0 gfxs.length :=
      forward_eq (fun k => k) rfl (fun _ => rfl) hn (fun _ => saccPixel_eq _ _ _ _)
        (fun _ _ _ => saccPixel_eq _ _ _ _) fun _ _ _ => saccPair_eq _ _ _ _ _ _
    have hsteps : steps (fun m D k => saccPixel f m D (Sacc k)) 1 (·+1) gfxs.length
        (painted m gfxs.Aop (fun k => written f (Sacc k)) 0 0) gfxs.Aop 0 = _ :=
      steps_eq (fun k => painted m gfxs.Aop (fun k => written f (Sacc k)) 0 k) (fun k => k)
        (fun _ => rfl) gfxs.Aop fun k _ => by
          rw [mul_one,saccPixel_eq,store_painted_right (Nat.zero_le k)]
    rw [painted_self] at hsteps
    rw [hforward,plainSacc,hstep,hsteps]

theorem saccSto_eq (e : Endian) (f : Format16) (Sacc : ℕ → Accumulator) {gfxs : GenefxState}
    (hn : 0 < gfxs.length) (hphase : gfxs.Xphase < 65536) (m : Pixels 16) :
    saccSto e f Sacc gfxs m = plainSaccSto f Sacc gfxs m := by
  rw [saccSto]
  split_ifs with hstep
  · rfl
  · rw [not_not] at hstep
    let v (k : ℕ) := written f (Sacc ((gfxs.Xphase+k*gfxs.SperD) >>> 16))
    have hzero : gfxs.Xphase >>> 16 = 0 := by
      rw [Nat.shiftRight_eq_div_pow]
      omega
    have hforward : forward (fun m D _ => saccPixel f m D (Sacc 0))
        (fun m D i => saccPixel f m D (Sacc (i >>> 16)))
        (fun m D i => saccPair e f m D (Sacc (i >>> 16)) (Sacc ((i+gfxs.SperD) >>> 16)))
        (·+gfxs.SperD) (·+gfxs.SperD <<< 1) gfxs.length m gfxs.Aop
        (gfxs.Xphase+0*gfxs.SperD) = painted m gfxs.Aop v 0 gfxs.length := by
      refine forward_eq (fun k => gfxs.Xphase+k*gfxs.SperD) (by ring) (fun k => ?_) hn
        (fun _ => ?_) (fun _ _ _ => saccPixel_eq _ _ _ _) fun k _ _ => ?_
      · rw [Nat.shiftLeft_eq]
        ring
      · simp only [v]
        rw [saccPixel_eq,Nat.zero_mul,Nat.add_zero,hzero]
      · have hsnd : gfxs.Xphase+k*gfxs.SperD+gfxs.SperD = gfxs.Xphase+(k+1)*gfxs.SperD := by ring
        rw [saccPair_eq,hsnd]
    have hsteps : steps (fun m D i => saccPixel f m D (Sacc (i >>> 16))) 1 (·+gfxs.SperD)
        gfxs.length (painted m gfxs.Aop v 0 0) gfxs.Aop (gfxs.Xphase+0*gfxs.SperD) = _ :=
      steps_eq (fun k => painted m gfxs.Aop v 0 k) (fun k => gfxs.Xphase+k*gfxs.SperD)
        (fun k => by ring) gfxs.Aop fun k _ => by
          rw [mul_one,saccPixel_eq,← store_painted_right (Nat.zero_le k)]
    rw [Nat.zero_mul,Nat.add_zero] at hforward
    rw [painted_self,Nat.zero_mul,Nat.add_zero] at hsteps
    rw [hforward,plainSaccSto,hstep,hsteps]

theorem extract_append (a r g b : BitVec 16) :
    (a++r++g++b).extractLsb' 0 16 = b ∧ (a++r++g++b).extractLsb' 16 16 = g ∧
    (a++r++g++b).extractLsb' 32 16 = r ∧ (a++r++g++b).extractLsb' 48 16 = a := by
  refine ⟨BitVec.extractLsb'_append_eq_right,?_,?_,?_⟩
  · rw [BitVec.extractLsb'_append_eq_of_le (by decide)]
    exact BitVec.extractLsb'_append_eq_right
  · rw [BitVec.extractLsb'_append_eq_of_le (by decide),
      BitVec.extractLsb'_append_eq_of_le (by decide)]
    exact BitVec.extractLsb'_append_eq_right
  · rw [BitVec.extractLsb'_append_eq_of_le (by decide),
      BitVec.extractLsb'_append_eq_of_le (by decide)]
    exact BitVec.extractLsb'_append_eq_left

theorem color_word (a r g b : BitVec 8) :
    a.setWidth 64 <<< 48 ||| r.setWidth 64 <<< 32 ||| g.setWidth 64 <<< 16 ||| b.setWidth 64 =
      a.setWidth 16++r.setWidth 16++g.setWidth 16++b.setWidth 16 := by
  have hwide (x : BitVec 8) : (x.setWidth 16).setWidth 64 = x.setWidth 64 :=
    BitVec.setWidth_setWidth (by decide)
  have hword : (a.setWidth 16++r.setWidth 16++g.setWidth 16++b.setWidth 16).setWidth 64 = _ :=
    BitVec.setWidth_append_append_append_eq_shiftLeft_setWidth_or
  rw [hwide,hwide,hwide,hwide] at hword
  exact hword.symm.trans (BitVec.setWidth_eq _)

theorem xor_append_four (a r g b a' r' g' b' : BitVec 16) :
    (a++r++g++b) ^^^ (a'++r'++g'++b') = (a ^^^ a')++(r ^^^ r')++(g ^^^ g')++(b ^^^ b') := by
  rw [BitVec.xor_append,BitVec.xor_append,BitVec.xor_append]

theorem ofWord_toWord (e : Endian) (x : Accumulator) : Accumulator.ofWord e (x.toWord e) = x := by
  cases e with
  | little =>
    obtain ⟨hb,hg,hr,ha⟩ := extract_append x.a x.r x.g x.b
    simp only [Accumulator.ofWord,Accumulator.toWord]
    rw [hb,hg,hr,ha]
  | big =>
    obtain ⟨ha,hr,hg,hb⟩ := extract_append x.b x.g x.r x.a
    simp only [Accumulator.ofWord,Accumulator.toWord]
    rw [hb,hg,hr,ha]

theorem xor_word (e : Endian) (c : Color) (x : Accumulator) :
    Accumulator.ofWord e (x.toWord e ^^^ c.word e) = x.xor c := by
  have hword : x.toWord e ^^^ c.word e = (x.xor c).toWord e := by
    cases e with
    | little =>
      simp only [Color.word,color_word]
      exact xor_append_four _ _ _ _ _ _ _ _
    | big =>
      simp only [Color.word,color_word]
      exact xor_append_four _ _ _ _ _ _ _ _
  rw [hword,ofWord_toWord]

def Color.Zero (c : Color) : Prop := c = ⟨0,0,0,0⟩

theorem xor_eq_self (c : Color) (x : Accumulator) : x.xor c = x ↔ c.Zero := by
  have hzero {v : BitVec 16} {y : BitVec 8} (h : v ^^^ y.setWidth 16 = v) : y = 0 := by
    have hy : y.setWidth 16 = 0#16 := by
      have hxor := congrArg (v ^^^ ·) h
      simpa only [← BitVec.xor_assoc,BitVec.xor_self,BitVec.zero_xor] using hxor
    refine BitVec.eq_of_toNat_eq ?_
    have hnat := congrArg BitVec.toNat hy
    rw [BitVec.toNat_setWidth,Nat.mod_eq_of_lt (by have := y.isLt; omega)] at hnat
    simpa using hnat
  constructor
  · intro h
    have ha := hzero (congrArg Accumulator.a h)
    have hr := hzero (congrArg Accumulator.r h)
    have hg := hzero (congrArg Accumulator.g h)
    have hb := hzero (congrArg Accumulator.b h)
    obtain ⟨a,r,g,b⟩ := c
    simp only at ha hr hg hb
    subst ha hr hg hb
    rfl
  · rintro rfl
    simp [Accumulator.xor]

def MarksKept (gfxs : GenefxState) (Dacc : ℤ → Accumulator) : Prop :=
  gfxs.color.Zero ∨ ∀ k : ℕ, k < gfxs.length → ¬(Dacc k).Marked

/-- What is painted by words of four channels. -/
theorem daccXor64_painted (e : Endian) (gfxs : GenefxState) (Dacc : ℤ → Accumulator) :
    daccXor64 e gfxs Dacc =
      painted Dacc 0 (fun k => some ((Dacc k).xor gfxs.color)) 0 gfxs.length := by
  have hsteps : steps (fun m D (_ : Unit) =>
      update m D (.ofWord e ((m D).toWord e ^^^ gfxs.color.word e))) 1 id gfxs.length
      (painted Dacc 0 (fun k => some ((Dacc k).xor gfxs.color)) 0 0) 0 () = _ :=
    steps_eq (fun k => painted Dacc 0 (fun k => some ((Dacc k).xor gfxs.color)) 0 k)
      (fun _ => ()) (fun _ => rfl) 0 fun k _ => by
        rw [mul_one,xor_word,painted_outside (by omega),← store_painted_right (Nat.zero_le k),
          zero_add]
        rfl
  rw [painted_self] at hsteps
  rw [daccXor64,hsteps]

theorem daccXor_painted (gfxs : GenefxState) (Dacc : ℤ → Accumulator) :
    daccXor gfxs Dacc = painted Dacc 0 (fun k =>
      if (Dacc k).Marked then none else some ((Dacc k).xor gfxs.color)) 0 gfxs.length := by
  have hsteps : steps (fun m D (_ : Unit) =>
      if (m D).Marked then m else update m D ((m D).xor gfxs.color)) 1 id gfxs.length
      (painted Dacc 0 (fun k =>
        if (Dacc k).Marked then none else some ((Dacc k).xor gfxs.color)) 0 0) 0 () = _ :=
    steps_eq (fun k => painted Dacc 0 (fun k =>
        if (Dacc k).Marked then none else some ((Dacc k).xor gfxs.color)) 0 k)
      (fun _ => ()) (fun _ => rfl) 0 fun k _ => by
        rw [mul_one,painted_outside (by omega),← store_painted_right (Nat.zero_le k),zero_add]
        split_ifs <;> rfl
  rw [painted_self] at hsteps
  rw [daccXor,hsteps]

theorem daccXor64_iff (e : Endian) (gfxs : GenefxState) (Dacc : ℤ → Accumulator) :
    daccXor64 e gfxs Dacc = daccXor gfxs Dacc ↔ MarksKept gfxs Dacc := by
  rw [daccXor64_painted,daccXor_painted,painted_eq_iff,MarksKept]
  constructor
  · intro h
    by_cases hzero : gfxs.color.Zero
    · exact .inl hzero
    · refine .inr fun k hk hmarked => hzero ((xor_eq_self _ (Dacc k)).mp ?_)
      have hsame := h k hk
      rwa [if_pos hmarked,zero_add] at hsame
  · intro h k hk
    split_ifs with hmarked
    · rw [zero_add]
      exact (xor_eq_self _ _).mpr (h.resolve_right fun hno => hno k hk hmarked)
    · rfl

theorem plainSacc_outside (f : Format16) (Sacc : ℕ → Accumulator) (gfxs : GenefxState)
    (m : Pixels 16) {x : ℤ} (hx : ∀ k < gfxs.length, x ≠ gfxs.Aop+k*gfxs.Astep) :
    plainSacc f Sacc gfxs m x = m x := by
  refine steps_outside (fun m D k x hxD => ?_) hx m 0
  rw [saccPixel_eq,store_apply,if_neg hxD]

theorem plainSaccSto_outside (f : Format16) (Sacc : ℕ → Accumulator) (gfxs : GenefxState)
    (m : Pixels 16) {x : ℤ} (hx : ∀ k < gfxs.length, x ≠ gfxs.Aop+k*gfxs.Astep) :
    plainSaccSto f Sacc gfxs m x = m x := by
  refine steps_outside (fun m D i x hxD => ?_) hx m gfxs.Xphase
  rw [saccPixel_eq,store_apply,if_neg hxD]

end Accumulators

section Words

/-- The functions on pixels of 16 bits that process two of them as a word do what they would do
one pixel at a time, and write nothing but the pixels of their span. -/
structure Words16 (e : Endian) (gfxs : GenefxState) (m : Pixels 16) : Prop where
  kto (rgbMask : BitVec 16) : gfxs.Ostep = 1 ∨ gfxs.Ostep = -1 →
    Safe gfxs.Ostep gfxs.Bop gfxs.Aop gfxs.length →
    bop16Kto e rgbMask gfxs m = plain (ktoPixel rgbMask (gfxs.Skey.setWidth 16)) gfxs m ∧
    Within gfxs.Aop gfxs.length m (bop16Kto e rgbMask gfxs m)
  toK (rgbMask : BitVec 16) : gfxs.Ostep = 1 ∨ gfxs.Ostep = -1 →
    Safe gfxs.Ostep gfxs.Bop gfxs.Aop gfxs.length →
    (bop16ToK e rgbMask gfxs m = plain (toKPixel rgbMask (gfxs.Dkey.setWidth 16)) gfxs m ↔
      EvenMatch rgbMask gfxs m) ∧
    Within gfxs.Aop gfxs.length m (bop16ToK e rgbMask gfxs m)
  sto : Apart gfxs → bop16Sto e gfxs m = plainSto gfxs m ∧
    Within gfxs.Aop gfxs.length m (bop16Sto e gfxs m)
  saccTo (f : Format16) (Sacc : ℕ → Accumulator) :
    saccTo e f Sacc gfxs m = plainSacc f Sacc gfxs m ∧
    ∀ x, (∀ k < gfxs.length, x ≠ gfxs.Aop+k*gfxs.Astep) → saccTo e f Sacc gfxs m x = m x
  saccSto (f : Format16) (Sacc : ℕ → Accumulator) :
    saccSto e f Sacc gfxs m = plainSaccSto f Sacc gfxs m ∧
    ∀ x, (∀ k < gfxs.length, x ≠ gfxs.Aop+k*gfxs.Astep) → saccSto e f Sacc gfxs m x = m x

theorem words16 (e : Endian) {gfxs : GenefxState} (hn : 0 < gfxs.length)
    (hphase : gfxs.Xphase < 65536) (m : Pixels 16) : Words16 e gfxs m where
  kto rgbMask hstep hsafe := ⟨bop16Kto_eq e rgbMask hstep hsafe hn m,by
    rw [bop16Kto_painted e rgbMask hstep hsafe hn]
    exact painted_within⟩
  toK rgbMask hstep hsafe := ⟨bop16ToK_iff e rgbMask hstep hsafe hn m,by
    rw [bop16ToK_painted e rgbMask hstep hsafe hn]
    exact painted_within⟩
  sto hapart := ⟨bop16Sto_eq e hn hphase hapart m,by
    rw [bop16Sto_eq e hn hphase hapart,plainSto_eq hapart]
    exact painted_within⟩
  saccTo f Sacc := ⟨saccTo_eq e f Sacc hn m,fun x hx => by
    rw [saccTo_eq e f Sacc hn]
    exact plainSacc_outside f Sacc gfxs m hx⟩
  saccSto f Sacc := ⟨saccSto_eq e f Sacc hn hphase m,fun x hx => by
    rw [saccSto_eq e f Sacc hn hphase]
    exact plainSaccSto_outside f Sacc gfxs m hx⟩

/-- The functions on pixels of 32 bits that process two of them as a word do what they would do
one pixel at a time under the conditions on the keys and the phase, and write nothing but the
pixels of their span. -/
structure Words32 (e : Endian) (gfxs : GenefxState) (m : Pixels 32) : Prop where
  cop : copTo64 e gfxs m = plainCop gfxs m ∧ Within gfxs.Aop gfxs.length m (copTo64 e gfxs m)
  kto : Safe 1 gfxs.Bop gfxs.Aop gfxs.length →
    (bopRgb32Kto64 e gfxs m = plainForward (ktoPixel 0x00ffffff gfxs.Skey) gfxs m ↔
      SkeyKept e gfxs m) ∧
    Within gfxs.Aop gfxs.length m (bopRgb32Kto64 e gfxs m)
  toK : Safe 1 gfxs.Bop gfxs.Aop gfxs.length →
    (bopRgb32ToK64 e gfxs m = plainForward (toKPixel 0x00ffffff gfxs.Dkey) gfxs m ↔
      DkeyKept gfxs m) ∧
    Within gfxs.Aop gfxs.length m (bopRgb32ToK64 e gfxs m)
  sto : Apart gfxs → (bop32Sto64 e gfxs m = plainSto gfxs m ↔ PhaseKept gfxs m) ∧
    Within gfxs.Aop gfxs.length m (bop32Sto64 e gfxs m)

theorem words32 (e : Endian) {gfxs : GenefxState} (hn : 0 < gfxs.length)
    (hphase : gfxs.Xphase < 65536) (m : Pixels 32) : Words32 e gfxs m where
  cop := ⟨copTo64_eq e hn m,by
    rw [copTo64_painted e hn]
    exact painted_within⟩
  kto hsafe := ⟨bopRgb32Kto64_iff e hn hsafe m,by
    rw [bopRgb32Kto64_painted e hn hsafe]
    exact painted_within⟩
  toK hsafe := ⟨bopRgb32ToK64_iff e hn hsafe m,by
    rw [bopRgb32ToK64_painted e hn hsafe]
    exact painted_within⟩
  sto hapart := ⟨bop32Sto64_iff e hn hphase hapart m,by
    rw [bop32Sto64_painted e hn hapart]
    exact painted_within⟩

/-- When the functions that work on words do what they would do one pixel at a time, and that
they never write anything but the pixels of their span. -/
theorem words_as_pixels (e : Endian) (gfxs : GenefxState) (hn : 0 < gfxs.length)
    (hphase : gfxs.Xphase < 65536) :
    (∀ m, Words16 e gfxs m) ∧ (∀ m, Words32 e gfxs m) ∧
    ∀ Dacc, (daccXor64 e gfxs Dacc = daccXor gfxs Dacc ↔ MarksKept gfxs Dacc) ∧
      Within 0 gfxs.length Dacc (daccXor64 e gfxs Dacc) := by
  refine ⟨words16 e hn hphase,words32 e hn hphase,fun Dacc => ⟨daccXor64_iff e gfxs Dacc,?_⟩⟩
  rw [daccXor64_painted]
  exact painted_within

def twoPixels : GenefxState where
  length := 2
  Aop := 0
  Bop := 2
  Astep := 1
  Ostep := 1
  Xphase := 0
  SperD := 65536
  Skey := 0
  Dkey := 0
  Cop := 0
  color := ⟨0,0,0,0⟩

def onePixel : Pixels 16 := fun x => if x = 0 then 0 else if x = 1 then 1 else 5

theorem two_as_pixels :
    bop16Kto .little 0xffff twoPixels onePixel = plain (ktoPixel 0xffff 0) twoPixels onePixel :=
  (((words_as_pixels .little twoPixels (by decide) (by decide)).1 onePixel).kto 0xffff (.inl rfl)
    (.inr (.inl (by decide)))).1

/-- Where one of two pixels matches the destination key, the other is written. -/
theorem other_half_written : 0 < twoPixels.length ∧ twoPixels.Ostep = 1 ∧
    twoPixels.Aop+twoPixels.length ≤ twoPixels.Bop ∧
    bop16ToK .little 0xffff twoPixels onePixel ≠ plain (toKPixel 0xffff 0) twoPixels onePixel ∧
    bop16ToK .big 0xffff twoPixels onePixel ≠ plain (toKPixel 0xffff 0) twoPixels onePixel := by
  refine ⟨by decide,rfl,by decide,fun h => ?_,fun h => ?_⟩
  · exact absurd (congrFun h 0) (by decide)
  · exact absurd (congrFun h 0) (by decide)

end Words

end Genefx

end DirectFB
