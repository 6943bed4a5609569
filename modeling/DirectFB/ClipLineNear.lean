import Mathlib.Data.Real.Basic
import DirectFB.ClipLine

/-! Lines that are clipped go where they went before, up to one pixel, as long as no line is divided
again after a division of it was rounded. -/
namespace DirectFB.Clip

section Rounding

/-- A quotient that is rounded to zero lies between zero and the quotient, and within one of it. -/
theorem tdiv_real (n : ℤ) {d : ℤ} (hd : d ≠ 0) :
    min 0 ((n : ℝ)/d) ≤ Int.tdiv n d ∧ (Int.tdiv n d : ℝ) ≤ max 0 ((n : ℝ)/d) ∧
    |(n : ℝ)/d-Int.tdiv n d| ≤ 1 := by
  have hpos {n d : ℤ} (hn : 0 ≤ n) (hd : 0 < d) : (0 : ℝ) ≤ Int.tdiv n d ∧
      (Int.tdiv n d : ℝ) ≤ (n : ℝ)/d ∧ (n : ℝ)/d-Int.tdiv n d ≤ 1 := by
    have hd' : (0 : ℝ) < d := by exact_mod_cast hd
    have hq := Int.tdiv_eq_ediv_of_nonneg (b := d) hn
    have hle := Int.ediv_mul_le n hd.ne'
    have hlt := Int.lt_ediv_add_one_mul_self n hd
    rw [hq]
    refine ⟨by exact_mod_cast Int.ediv_nonneg hn hd.le,?_,?_⟩
    · rw [le_div_iff₀ hd']
      exact_mod_cast hle
    · rw [sub_le_iff_le_add,div_le_iff₀ hd']
      have : (n : ℝ) < ((n/d : ℤ)+1)*d := by exact_mod_cast hlt
      linarith
  have hdpos {n d : ℤ} (hd : 0 < d) : min 0 ((n : ℝ)/d) ≤ Int.tdiv n d ∧
      (Int.tdiv n d : ℝ) ≤ max 0 ((n : ℝ)/d) ∧ |(n : ℝ)/d-Int.tdiv n d| ≤ 1 := by
    rcases le_total 0 n with hn | hn
    · obtain ⟨h0,h1,h2⟩ := hpos hn hd
      exact ⟨(min_le_left _ _).trans h0,h1.trans (le_max_right _ _),abs_le.mpr ⟨by linarith,h2⟩⟩
    · obtain ⟨h0,h1,h2⟩ := hpos (n := -n) (by omega) hd
      rw [Int.neg_tdiv] at h0 h1 h2
      push_cast at h0 h1 h2
      rw [neg_div] at h1 h2
      refine ⟨(min_le_right _ _).trans (by linarith),le_trans (by linarith) (le_max_left _ _),?_⟩
      exact abs_le.mpr ⟨by linarith,by linarith⟩
  rcases lt_or_gt_of_ne hd with h | h
  · have := hdpos (n := -n) (d := -d) (by omega)
    rw [Int.neg_tdiv_neg] at this
    push_cast at this
    rwa [neg_div_neg_eq] at this
  · exact hdpos h

theorem tdiv_exact {n d : ℤ} (hd : d ≠ 0) (h : d ∣ n) : (Int.tdiv n d : ℝ) = (n : ℝ)/d := by
  obtain ⟨k,rfl⟩ := h
  have hd' : (d : ℝ) ≠ 0 := by exact_mod_cast hd
  rw [Int.mul_tdiv_cancel_left k hd]
  push_cast
  field_simp

end Rounding

section Parameters

/-- The part of a line behind a point of it runs near a line from another point to the same end. -/
theorem near_of_first {u1 v1 u2 v2 u v ε k t : ℝ} (hk : k ≤ 1) (hu : u = u1+k*(u2-u1))
    (hv : |v1+k*(v2-v1)-v| ≤ ε) (hkt : k ≤ t) (ht : t ≤ 1) :
    ∃ s, 0 ≤ s ∧ s ≤ 1 ∧ u1+t*(u2-u1) = u+s*(u2-u) ∧
      |v1+t*(v2-v1)-(v+s*(v2-v))| ≤ ε := by
  have hε : 0 ≤ ε := (abs_nonneg _).trans hv
  rcases eq_or_lt_of_le hk with rfl | hk1
  · obtain rfl : t = 1 := le_antisymm ht hkt
    exact ⟨1,zero_le_one,le_rfl,by ring,by simpa using hε⟩
  · have hpos : 0 < 1-k := by linarith
    have hs0 : 0 ≤ (t-k)/(1-k) := div_nonneg (by linarith) hpos.le
    have hs1 : (t-k)/(1-k) ≤ 1 := (div_le_one hpos).mpr (by linarith)
    have hst : (t-k)/(1-k)*(1-k) = t-k := div_mul_cancel₀ _ hpos.ne'
    set s := (t-k)/(1-k)
    refine ⟨s,hs0,hs1,?_,?_⟩
    · rw [hu]
      linear_combination -(u2-u1)*hst
    · have heq : v1+t*(v2-v1)-(v+s*(v2-v)) = (1-s)*(v1+k*(v2-v1)-v) := by
        linear_combination -(v2-v1)*hst
      rw [heq,abs_mul,abs_of_nonneg (by linarith : 0 ≤ 1-s)]
      calc (1-s)*|v1+k*(v2-v1)-v| ≤ 1*|v1+k*(v2-v1)-v| := by
            exact mul_le_mul_of_nonneg_right (by linarith) (abs_nonneg _)
        _ ≤ ε := by linarith

/-- The part of a line before a point of it runs near a line from the same end to another point. -/
theorem near_of_second {u1 v1 u2 v2 u v ε k t : ℝ} (hk : 0 ≤ k) (hu : u = u1+k*(u2-u1))
    (hv : |v1+k*(v2-v1)-v| ≤ ε) (hkt : t ≤ k) (ht : 0 ≤ t) :
    ∃ s, 0 ≤ s ∧ s ≤ 1 ∧ u1+t*(u2-u1) = u1+s*(u-u1) ∧
      |v1+t*(v2-v1)-(v1+s*(v-v1))| ≤ ε := by
  obtain ⟨s,hs0,hs1,hs,hnear⟩ := @near_of_first u2 v2 u1 v1 u v ε (1-k) (1-t) (by linarith)
    (by rw [hu]; ring) (by rwa [show v2+(1-k)*(v1-v2)-v = v1+k*(v2-v1)-v by ring]) (by linarith)
    (by linarith)
  refine ⟨1-s,by linarith,by linarith,by linear_combination hs,?_⟩
  rwa [show v1+t*(v2-v1)-(v1+(1-s)*(v-v1)) = v2+(1-t)*(v1-v2)-(v+s*(v1-v)) by ring]

end Parameters

section Ends

variable {u1 v1 u2 v2 u : ℤ} {t : ℝ}

/-- The part of a line that is left of it at a division. -/
noncomputable def part (u1 u2 u : ℤ) : ℝ := ((u-u1 : ℤ) : ℝ)/((u2-u1 : ℤ) : ℝ)

theorem part_eq (hne : u1 ≠ u2) : (u : ℝ) = u1+part u1 u2 u*(u2-u1) := by
  have hd : ((u2-u1 : ℤ) : ℝ) ≠ 0 := by exact_mod_cast sub_ne_zero.mpr hne.symm
  have h := div_mul_cancel₀ ((u-u1 : ℤ) : ℝ) hd
  rw [← part] at h
  push_cast at h
  linarith

theorem part_mem (hne : u1 ≠ u2) (hu : min u1 u2 ≤ u ∧ u ≤ max u1 u2) :
    0 ≤ part u1 u2 u ∧ part u1 u2 u ≤ 1 := by
  rcases lt_or_gt_of_ne hne with h | h
  · have hd : (0 : ℝ) < ((u2-u1 : ℤ) : ℝ) := by exact_mod_cast (by omega : 0 < u2-u1)
    refine ⟨div_nonneg (by exact_mod_cast (by omega : 0 ≤ u-u1)) hd.le,(div_le_one hd).mpr ?_⟩
    exact_mod_cast (by omega : u-u1 ≤ u2-u1)
  · have hd : ((u2-u1 : ℤ) : ℝ) < 0 := by exact_mod_cast (by omega : u2-u1 < 0)
    refine ⟨div_nonneg_of_nonpos (by exact_mod_cast (by omega : u-u1 ≤ 0)) hd.le,
      (div_le_one_of_neg hd).mpr ?_⟩
    exact_mod_cast (by omega : u2-u1 ≤ u-u1)

/-- How far a division may be from the line. -/
noncomputable def error (u1 v1 u2 v2 u : ℤ) : ℝ :=
  if u2-u1 ∣ (v2-v1)*(u-u1) then 0 else 1

/-- Where a division is, other than the line. -/
theorem division_near (hne : u1 ≠ u2) :
    min 0 (part u1 u2 u*(v2-v1)) ≤ Int.tdiv ((v2-v1)*(u-u1)) (u2-u1) ∧
    (Int.tdiv ((v2-v1)*(u-u1)) (u2-u1) : ℝ) ≤ max 0 (part u1 u2 u*(v2-v1)) ∧
    |v1+part u1 u2 u*(v2-v1)-((v1+Int.tdiv ((v2-v1)*(u-u1)) (u2-u1) : ℤ) : ℝ)| ≤
      error u1 v1 u2 v2 u := by
  have hd : u2-u1 ≠ 0 := by omega
  have heq : (((v2-v1)*(u-u1) : ℤ) : ℝ)/((u2-u1 : ℤ) : ℝ) = part u1 u2 u*(v2-v1) := by
    rw [part]
    push_cast
    ring
  have h := tdiv_real ((v2-v1)*(u-u1)) hd
  rw [heq] at h
  refine ⟨h.1,h.2.1,?_⟩
  rw [error]
  push_cast
  split_ifs with hdvd
  · have hexact := tdiv_exact hd hdvd
    rw [heq] at hexact
    rw [hexact,abs_le]
    constructor <;> linarith
  · have := h.2.2
    rwa [show (v1 : ℝ)+part u1 u2 u*(v2-v1)-(v1+(Int.tdiv ((v2-v1)*(u-u1)) (u2-u1) : ℝ)) =
      part u1 u2 u*(v2-v1)-Int.tdiv ((v2-v1)*(u-u1)) (u2-u1) by ring]

theorem part_le (hside : u < u1 ∧ u2 ≤ u ∨ u1 < u ∧ u ≤ u2)
    (hin : (u < u1 → (u1+t*(u2-u1) : ℝ) ≤ u) ∧ (u1 < u → (u : ℝ) ≤ u1+t*(u2-u1))) :
    part u1 u2 u ≤ t := by
  have hne : u1 ≠ u2 := by omega
  have heq := part_eq (u := u) hne
  by_contra hlt
  push Not at hlt
  rcases hside with h | h
  · have := hin.1 h.1
    have hd : (u2 : ℝ) < u1 := by exact_mod_cast (by omega : u2 < u1)
    nlinarith
  · have := hin.2 h.1
    have hd : (u1 : ℝ) < u2 := by exact_mod_cast (by omega : u1 < u2)
    nlinarith

theorem le_part (hside : u < u2 ∧ u1 ≤ u ∨ u2 < u ∧ u ≤ u1)
    (hin : (u < u2 → (u1+t*(u2-u1) : ℝ) ≤ u) ∧ (u2 < u → (u : ℝ) ≤ u1+t*(u2-u1))) :
    t ≤ part u1 u2 u := by
  have hne : u1 ≠ u2 := by omega
  have heq := part_eq (u := u) hne
  by_contra hlt
  push Not at hlt
  rcases hside with h | h
  · have := hin.1 h.1
    have hd : (u1 : ℝ) < u2 := by exact_mod_cast (by omega : u1 < u2)
    nlinarith
  · have := hin.2 h.1
    have hd : (u2 : ℝ) < u1 := by exact_mod_cast (by omega : u2 < u1)
    nlinarith

/-- What is left of a line lies beyond a bound as the division of its first end and its second end
do. -/
theorem beyond {b : ℤ} (hne : u1 ≠ u2) (hu : min u1 u2 ≤ u ∧ u ≤ max u1 u2)
    (hv : b < v1+Int.tdiv ((v2-v1)*(u-u1)) (u2-u1)) (hv2 : b < v2) (ht : part u1 u2 u ≤ t)
    (ht1 : t ≤ 1) : (b : ℝ) < v1+t*(v2-v1) := by
  obtain ⟨hk0,hk1⟩ := part_mem hne hu
  obtain ⟨-,hle,-⟩ := @division_near u1 v1 u2 v2 u hne
  have hv' : (b : ℝ) < v1+(Int.tdiv ((v2-v1)*(u-u1)) (u2-u1) : ℝ) := by exact_mod_cast hv
  have hv2' : (b : ℝ) < v2 := by exact_mod_cast hv2
  -- the line is beyond the bound where it is divided
  have hcut : (b : ℝ) < v1+part u1 u2 u*(v2-v1) := by
    rcases le_total 0 (part u1 u2 u*((v2 : ℝ)-v1)) with h | h
    · rw [max_eq_right h] at hle
      linarith
    · have hneg : (v2 : ℝ)-v1 ≤ 0 ∨ part u1 u2 u = 0 := by
        by_contra hno
        push Not at hno
        have := mul_pos (lt_of_le_of_ne hk0 hno.2.symm) hno.1
        linarith
      rw [max_eq_left h] at hle
      rcases hneg with hneg | hzero
      · nlinarith
      · rw [hzero]
        linarith
  rcases le_total (v1 : ℝ) v2 with h | h
  · nlinarith
  · nlinarith

theorem before {b : ℤ} (hne : u1 ≠ u2) (hu : min u1 u2 ≤ u ∧ u ≤ max u1 u2)
    (hv : v1+Int.tdiv ((v2-v1)*(u-u1)) (u2-u1) < b) (hv2 : v2 < b) (ht : part u1 u2 u ≤ t)
    (ht1 : t ≤ 1) : v1+t*(v2-v1) < (b : ℝ) := by
  have hneg : (-v2 - -v1)*(u-u1) = -((v2-v1)*(u-u1)) := by ring
  have h := @beyond u1 (-v1) u2 (-v2) u t (-b) hne hu (by rw [hneg,Int.neg_tdiv]; omega) (by omega)
    ht ht1
  push_cast at h
  linarith

end Ends

section Lines

variable {clip line : Region}

def pointAt (line : Region) (t : ℝ) : ℝ × ℝ :=
  (line.x1+t*(line.x2-line.x1),line.y1+t*(line.y2-line.y1))

def InClip (clip : Region) (p : ℝ × ℝ) : Prop :=
  clip.x1 ≤ p.1 ∧ p.1 ≤ clip.x2 ∧ clip.y1 ≤ p.2 ∧ p.2 ≤ clip.y2

def Near (ε : ℝ) (clip line l : Region) : Prop :=
  ∀ t, 0 ≤ t → t ≤ 1 → InClip clip (pointAt line t) → ∃ s, 0 ≤ s ∧ s ≤ 1 ∧
    |(pointAt line t).1-(pointAt l s).1| ≤ ε ∧ |(pointAt line t).2-(pointAt l s).2| ≤ ε

def Misses (clip line : Region) : Prop := ∀ t, 0 ≤ t → t ≤ 1 → ¬ InClip clip (pointAt line t)

def Exact (clip line : Region) (c : Code) : Prop :=
  if c.below then line.y2-line.y1 ∣ (line.x2-line.x1)*(clip.y2-line.y1)
  else if c.above then line.y2-line.y1 ∣ (line.x2-line.x1)*(clip.y1-line.y1)
  else if c.right then line.x2-line.x1 ∣ (line.y2-line.y1)*(clip.x2-line.x1)
  else line.x2-line.x1 ∣ (line.y2-line.y1)*(clip.x1-line.x1)

instance (clip line : Region) (c : Code) : Decidable (Exact clip line c) := by
  unfold Exact
  infer_instance

theorem Near.refl (clip line : Region) : Near 0 clip line line :=
  fun t h0 h1 _ => ⟨t,h0,h1,by simp,by simp⟩

variable {l : Region} {y x : ℤ} {p : ℤ × ℤ} {b : Bool}

theorem Near.mono {ε ε' : ℝ} (h : Near ε clip line l) (hε : ε ≤ ε') : Near ε' clip line l := by
  intro t h0 h1 ht
  obtain ⟨s,hs0,hs1,hx,hy⟩ := h t h0 h1 ht
  exact ⟨s,hs0,hs1,hx.trans hε,hy.trans hε⟩

theorem Near.exists_eq (h : Near 0 clip line l) {t : ℝ} (h0 : 0 ≤ t) (h1 : t ≤ 1)
    (ht : InClip clip (pointAt line t)) : ∃ s, 0 ≤ s ∧ s ≤ 1 ∧ pointAt line t = pointAt l s := by
  obtain ⟨s,hs0,hs1,hx,hy⟩ := h t h0 h1 ht
  refine ⟨s,hs0,hs1,Prod.ext ?_ ?_⟩
  · exact sub_eq_zero.mp (abs_nonpos_iff.mp hx)
  · exact sub_eq_zero.mp (abs_nonpos_iff.mp hy)

theorem Near.trans {ε : ℝ} {l l' : Region} (h : Near 0 clip line l) (h' : Near ε clip l l') :
    Near ε clip line l' := by
  intro t h0 h1 ht
  obtain ⟨s,hs0,hs1,heq⟩ := h.exists_eq h0 h1 ht
  rw [heq] at ht ⊢
  exact h' s hs0 hs1 ht

theorem Near.misses (h : Near 0 clip line l) (hl : Misses clip l) : Misses clip line := by
  intro t h0 h1 ht
  obtain ⟨s,hs0,hs1,heq⟩ := h.exists_eq h0 h1 ht
  exact hl s hs0 hs1 (heq ▸ ht)

theorem lt_at {a b c t : ℝ} (h0 : 0 ≤ t) (h1 : t ≤ 1) (ha : c < a) (hb : c < b) :
    c < a+t*(b-a) := by
  rcases le_total a b with h | h
  · have := mul_nonneg h0 (sub_nonneg.mpr h)
    linarith
  · have := mul_nonneg (sub_nonneg.mpr h1) (sub_nonneg.mpr h)
    linarith

theorem at_lt {a b c t : ℝ} (h0 : 0 ≤ t) (h1 : t ≤ 1) (ha : a < c) (hb : b < c) :
    a+t*(b-a) < c := by
  have := lt_at h0 h1 (neg_lt_neg ha) (neg_lt_neg hb)
  linarith

theorem misses_of_common (h : (code clip line.x1 line.y1).common
    (code clip line.x2 line.y2) = true) : Misses clip line := by
  intro t h0 h1 ⟨hx1,hx2,hy1,hy2⟩
  rw [← Bool.not_eq_false,common_eq_false] at h
  simp only [pointAt] at hx1 hx2 hy1 hy2
  refine h ⟨fun hc => ?_,fun hc => ?_,fun hc => ?_,fun hc => ?_⟩
  · have := lt_at h0 h1 (Int.cast_lt (R := ℝ).mpr hc.1) (Int.cast_lt (R := ℝ).mpr hc.2)
    linarith
  · have := at_lt h0 h1 (Int.cast_lt (R := ℝ).mpr hc.1) (Int.cast_lt (R := ℝ).mpr hc.2)
    linarith
  · have := lt_at h0 h1 (Int.cast_lt (R := ℝ).mpr hc.1) (Int.cast_lt (R := ℝ).mpr hc.2)
    linarith
  · have := at_lt h0 h1 (Int.cast_lt (R := ℝ).mpr hc.1) (Int.cast_lt (R := ℝ).mpr hc.2)
    linarith

theorem abs_sub_of_eq {a b ε : ℝ} (h : a = b) (hε : 0 ≤ ε) : |a-b| ≤ ε := by
  rw [h,sub_self,abs_zero]
  exact hε

theorem eq_of_atRow (h : atRow line y = some p) : line.y1 ≠ line.y2 ∧
      p = (line.x1+Int.tdiv ((line.x2-line.x1)*(y-line.y1)) (line.y2-line.y1),y) := by
  rw [atRow] at h
  split_ifs at h with hd
  exact ⟨by omega,(Option.some.inj h).symm⟩

theorem eq_of_atColumn (h : atColumn line x = some p) : line.x1 ≠ line.x2 ∧
      p = (x,line.y1+Int.tdiv ((line.y2-line.y1)*(x-line.x1)) (line.x2-line.x1)) := by
  rw [atColumn] at h
  split_ifs at h with hd
  exact ⟨by omega,(Option.some.inj h).symm⟩

def BeyondRow (clip : Region) (y y1 y2 : ℤ) : Prop :=
  y < y1 ∧ y2 ≤ y ∧ clip.y2 ≤ y ∨ y1 < y ∧ y ≤ y2 ∧ y ≤ clip.y1

def BeyondColumn (clip : Region) (x x1 x2 : ℤ) : Prop :=
  x < x1 ∧ x2 ≤ x ∧ clip.x2 ≤ x ∨ x1 < x ∧ x ≤ x2 ∧ x ≤ clip.x1

theorem BeyondRow.side {y y1 y2 : ℤ} (h : BeyondRow clip y y1 y2) :
    y < y1 ∧ y2 ≤ y ∨ y1 < y ∧ y ≤ y2 := by
  unfold BeyondRow at h
  omega

theorem BeyondColumn.side {x x1 x2 : ℤ} (h : BeyondColumn clip x x1 x2) :
    x < x1 ∧ x2 ≤ x ∨ x1 < x ∧ x ≤ x2 := by
  unfold BeyondColumn at h
  omega

theorem BeyondRow.of_inClip {y y1 y2 : ℤ} (h : BeyondRow clip y y1 y2) {p : ℝ × ℝ}
    (hp : InClip clip p) : (y < y1 → p.2 ≤ y) ∧ (y1 < y → (y : ℝ) ≤ p.2) := by
  obtain ⟨-,-,h1,h2⟩ := hp
  rcases h with ⟨hlt,-,hle⟩ | ⟨hlt,-,hle⟩
  · have : (clip.y2 : ℝ) ≤ y := by exact_mod_cast hle
    exact ⟨fun _ => h2.trans this,fun hlt' => absurd hlt' (by omega)⟩
  · have : (y : ℝ) ≤ clip.y1 := by exact_mod_cast hle
    exact ⟨fun hlt' => absurd hlt' (by omega),fun _ => this.trans h1⟩

theorem BeyondColumn.of_inClip {x x1 x2 : ℤ} (h : BeyondColumn clip x x1 x2) {p : ℝ × ℝ}
    (hp : InClip clip p) : (x < x1 → p.1 ≤ x) ∧ (x1 < x → (x : ℝ) ≤ p.1) := by
  obtain ⟨h1,h2,-,-⟩ := hp
  rcases h with ⟨hlt,-,hle⟩ | ⟨hlt,-,hle⟩
  · have : (clip.x2 : ℝ) ≤ x := by exact_mod_cast hle
    exact ⟨fun _ => h2.trans this,fun hlt' => absurd hlt' (by omega)⟩
  · have : (x : ℝ) ≤ clip.x1 := by exact_mod_cast hle
    exact ⟨fun hlt' => absurd hlt' (by omega),fun _ => this.trans h1⟩

/-- A division keeps what lies in the clip, up to its error. -/
theorem near_row_first (h : BeyondRow clip y line.y1 line.y2)
    (hp : atRow line y = some p) :
    Near (error line.y1 line.x1 line.y2 line.x2 y) clip line (setFirst line p) := by
  obtain ⟨hne,rfl⟩ := eq_of_atRow hp
  have hside := h.side
  obtain ⟨-,hk1⟩ := part_mem (u := y) hne (by omega)
  obtain ⟨-,-,hv⟩ := @division_near line.y1 line.x1 line.y2 line.x2 y hne
  intro t h0 h1 ht
  obtain ⟨s,hs0,hs1,hu,hnear⟩ := near_of_first hk1 (part_eq hne) hv
    (part_le hside (h.of_inClip ht)) h1
  refine ⟨s,hs0,hs1,by simpa [pointAt,setFirst] using hnear,?_⟩
  exact abs_sub_of_eq hu ((abs_nonneg _).trans hv)

theorem near_row_second (h : BeyondRow clip y line.y2 line.y1)
    (hp : atRow line y = some p) :
    Near (error line.y1 line.x1 line.y2 line.x2 y) clip line (setSecond line p) := by
  obtain ⟨hne,rfl⟩ := eq_of_atRow hp
  have hside := h.side
  obtain ⟨hk0,-⟩ := part_mem (u := y) hne (by omega)
  obtain ⟨-,-,hv⟩ := @division_near line.y1 line.x1 line.y2 line.x2 y hne
  intro t h0 h1 ht
  obtain ⟨s,hs0,hs1,hu,hnear⟩ := near_of_second hk0 (part_eq hne) hv
    (le_part hside (h.of_inClip ht)) h0
  refine ⟨s,hs0,hs1,by simpa [pointAt,setSecond] using hnear,?_⟩
  exact abs_sub_of_eq hu ((abs_nonneg _).trans hv)

theorem near_column_first (h : BeyondColumn clip x line.x1 line.x2)
    (hp : atColumn line x = some p) :
    Near (error line.x1 line.y1 line.x2 line.y2 x) clip line (setFirst line p) := by
  obtain ⟨hne,rfl⟩ := eq_of_atColumn hp
  have hside := h.side
  obtain ⟨-,hk1⟩ := part_mem (u := x) hne (by omega)
  obtain ⟨-,-,hv⟩ := @division_near line.x1 line.y1 line.x2 line.y2 x hne
  intro t h0 h1 ht
  obtain ⟨s,hs0,hs1,hu,hnear⟩ := near_of_first hk1 (part_eq hne) hv
    (part_le hside (h.of_inClip ht)) h1
  refine ⟨s,hs0,hs1,?_,by simpa [pointAt,setFirst] using hnear⟩
  exact abs_sub_of_eq hu ((abs_nonneg _).trans hv)

theorem near_column_second (h : BeyondColumn clip x line.x2 line.x1)
    (hp : atColumn line x = some p) :
    Near (error line.x1 line.y1 line.x2 line.y2 x) clip line (setSecond line p) := by
  obtain ⟨hne,rfl⟩ := eq_of_atColumn hp
  have hside := h.side
  obtain ⟨hk0,-⟩ := part_mem (u := x) hne (by omega)
  obtain ⟨-,-,hv⟩ := @division_near line.x1 line.y1 line.x2 line.y2 x hne
  intro t h0 h1 ht
  obtain ⟨s,hs0,hs1,hu,hnear⟩ := near_of_second hk0 (part_eq hne) hv
    (le_part hside (h.of_inClip ht)) h0
  refine ⟨s,hs0,hs1,?_,by simpa [pointAt,setSecond] using hnear⟩
  exact abs_sub_of_eq hu ((abs_nonneg _).trans hv)

theorem misses_row (h : BeyondRow clip y line.y1 line.y2)
    (hp : atRow line y = some p)
    (hout : clip.x2 < p.1 ∧ clip.x2 < line.x2 ∨ p.1 < clip.x1 ∧ line.x2 < clip.x1) :
    Misses clip line := by
  obtain ⟨hne,rfl⟩ := eq_of_atRow hp
  have hside := h.side
  intro t h0 h1 ht
  have hpart := part_le hside (h.of_inClip ht)
  rcases hout with hout | hout
  · have hlt := beyond hne (by omega) hout.1 hout.2 hpart h1
    exact absurd ht.2.1 (not_le.mpr hlt)
  · have hlt := before hne (by omega) hout.1 hout.2 hpart h1
    exact absurd ht.1 (not_le.mpr hlt)

theorem misses_column (h : BeyondColumn clip x line.x1 line.x2)
    (hp : atColumn line x = some p)
    (hout : clip.y2 < p.2 ∧ clip.y2 < line.y2 ∨ p.2 < clip.y1 ∧ line.y2 < clip.y1) :
    Misses clip line := by
  obtain ⟨hne,rfl⟩ := eq_of_atColumn hp
  have hside := h.side
  intro t h0 h1 ht
  have hpart := part_le hside (h.of_inClip ht)
  rcases hout with hout | hout
  · have hlt := beyond hne (by omega) hout.1 hout.2 hpart h1
    exact absurd ht.2.2.2 (not_le.mpr hlt)
  · have hlt := before hne (by omega) hout.1 hout.2 hpart h1
    exact absurd ht.2.2.1 (not_le.mpr hlt)

/-- The error of a division for an end with this code. -/
noncomputable def divisionError (clip line : Region) (c : Code) : ℝ :=
  if Exact clip line c then 0 else 1

/-- A division of the first end keeps what lies in the clip, up to its error, and leaves a line that
misses the clip only if it did so before. -/
theorem divide_first (hclip : clip.Valid) (hout : ¬ clip.Contains (line.x1,line.y1))
    (hcommon : (code clip line.x1 line.y1).common (code clip line.x2 line.y2) = false)
    (hp : divide clip line (code clip line.x1 line.y1) = some p) :
    Near (divisionError clip line (code clip line.x1 line.y1)) clip line (setFirst line p) ∧
    ((code clip p.1 p.2).common (code clip line.x2 line.y2) = true → Misses clip line) := by
  obtain ⟨hx,hy⟩ := hclip
  rw [common_eq_false] at hcommon
  simp only [Region.Contains] at hout
  rw [← Bool.not_eq_false,common_eq_false]
  simp only [divide,code,decide_eq_true_eq] at hp
  simp only [divisionError,Exact,code,decide_eq_true_eq]
  split_ifs at hp with hbelow habove hright
  · have h : BeyondRow clip clip.y2 line.y1 line.y2 := .inl (by omega)
    simp only [if_pos hbelow]
    refine ⟨near_row_first h hp,fun hnew => misses_row h hp ?_⟩
    obtain ⟨-,rfl⟩ := eq_of_atRow hp
    dsimp only at hnew ⊢
    omega
  · have h : BeyondRow clip clip.y1 line.y1 line.y2 := .inr (by omega)
    simp only [if_neg hbelow,if_pos habove]
    refine ⟨near_row_first h hp,fun hnew => misses_row h hp ?_⟩
    obtain ⟨-,rfl⟩ := eq_of_atRow hp
    dsimp only at hnew ⊢
    omega
  · have h : BeyondColumn clip clip.x2 line.x1 line.x2 := .inl (by omega)
    simp only [if_neg hbelow,if_neg habove,if_pos hright]
    refine ⟨near_column_first h hp,fun hnew => misses_column h hp ?_⟩
    obtain ⟨-,rfl⟩ := eq_of_atColumn hp
    dsimp only at hnew ⊢
    omega
  · have h : BeyondColumn clip clip.x1 line.x1 line.x2 := .inr (by omega)
    simp only [if_neg hbelow,if_neg habove,if_neg hright]
    refine ⟨near_column_first h hp,fun hnew => misses_column h hp ?_⟩
    obtain ⟨-,rfl⟩ := eq_of_atColumn hp
    dsimp only at hnew ⊢
    omega

theorem divide_second (hout : ¬ clip.Contains (line.x2,line.y2))
    (hcommon : (code clip line.x1 line.y1).common (code clip line.x2 line.y2) = false)
    (hp : divide clip line (code clip line.x2 line.y2) = some p) :
    Near (divisionError clip line (code clip line.x2 line.y2)) clip line (setSecond line p) := by
  rw [common_eq_false] at hcommon
  simp only [Region.Contains] at hout
  simp only [divide,code,decide_eq_true_eq] at hp
  simp only [divisionError,Exact,code,decide_eq_true_eq]
  split_ifs at hp with hbelow habove hright
  · simp only [if_pos hbelow]
    exact near_row_second (.inl (by omega)) hp
  · simp only [if_neg hbelow,if_pos habove]
    exact near_row_second (.inr (by omega)) hp
  · simp only [if_neg hbelow,if_neg habove,if_pos hright]
    exact near_column_second (.inl (by omega)) hp
  · simp only [if_neg hbelow,if_neg habove,if_neg hright]
    exact near_column_second (.inr (by omega)) hp

def Settled (clip line : Region) : Prop :=
  clip.Contains (line.x1,line.y1) ∧ clip.Contains (line.x2,line.y2) ∨
    (code clip line.x1 line.y1).common (code clip line.x2 line.y2) = true

instance (clip line : Region) : Decidable (Settled clip line) := inferInstanceAs (Decidable (_ ∨ _))

/-- Within the rounds of the loop no line is divided again after a division of it was rounded. -/
def Unrounded (clip : Region) : ℕ → Region → Prop
  | 0, _ => True
  | n+1, line =>
    if Settled clip line then True
    else if clip.Contains (line.x1,line.y1) then
      ∀ p ∈ divide clip line (code clip line.x2 line.y2), Settled clip (setSecond line p) ∨
        Exact clip line (code clip line.x2 line.y2) ∧ Unrounded clip n (setSecond line p)
    else
      ∀ p ∈ divide clip line (code clip line.x1 line.y1), Settled clip (setFirst line p) ∨
        Exact clip line (code clip line.x1 line.y1) ∧ Unrounded clip n (setFirst line p)

instance decidableUnrounded (clip : Region) : ∀ n line, Decidable (Unrounded clip n line)
  | 0, _ => isTrue trivial
  | n+1, line => by
    have := decidableUnrounded clip n
    unfold Unrounded
    infer_instance

theorem loop_settled (h : Settled clip line) {n : ℕ}
    (hl : clipLineLoop clip n line = some (b,l)) :
    b = true ∧ l = line ∨
      b = false ∧ (code clip line.x1 line.y1).common (code clip line.x2 line.y2) = true := by
  cases n with
  | zero => cases hl
  | succ n =>
    rw [clipLineLoop] at hl
    rcases h with ⟨h1,h2⟩ | hcommon
    · rw [outside_eq_false.mpr h1,outside_eq_false.mpr h2] at hl
      cases hl
      exact .inl ⟨rfl,rfl⟩
    · have hout : (code clip line.x1 line.y1).outside = true := by
        rw [← Bool.not_eq_false,outside_eq_false]
        intro hin
        rw [← Bool.not_eq_false,common_eq_false] at hcommon
        simp only [Region.Contains] at hin
        omega
      rw [hout,hcommon] at hl
      cases hl
      exact .inr ⟨rfl,hcommon⟩

def Faithful (clip line : Region) (b : Bool) (l : Region) : Prop :=
  (b = true → Near 1 clip line l) ∧ (b = false → Misses clip line)

theorem Faithful.of_near {l l' : Region} (h : Near 0 clip line l)
    (h' : Faithful clip l b l') : Faithful clip line b l' :=
  ⟨fun hb => h.trans (h'.1 hb),fun hb => h.misses (h'.2 hb)⟩

theorem divisionError_le (clip line : Region) (c : Code) : divisionError clip line c ≤ 1 := by
  rw [divisionError]
  split_ifs <;> norm_num

theorem not_common_of_contains (h : clip.Contains (line.x1,line.y1)) :
    (code clip line.x1 line.y1).common (code clip x y) = false := by
  rw [common_eq_false]
  simp only [Region.Contains] at h
  omega

/-- While nothing is rounded before it is done, the loop loses nothing that lies in the clip. -/
theorem loop_faithful (hclip : clip.Valid) {n : ℕ} (h : Unrounded clip n line) (hl : clipLineLoop clip n line = some (b,l)) : Faithful clip line b l := by
  induction n generalizing line with
  | zero => cases hl
  | succ n ih =>
    by_cases hset : Settled clip line
    · rcases loop_settled hset hl with ⟨rfl,rfl⟩ | ⟨rfl,hcommon⟩
      · exact ⟨fun _ => (Near.refl clip l).mono zero_le_one,fun hb => (nomatch hb)⟩
      · exact ⟨fun hb => (nomatch hb),fun _ => misses_of_common hcommon⟩
    simp only [Unrounded,if_neg hset] at h
    have hcommon : (code clip line.x1 line.y1).common (code clip line.x2 line.y2) = false := by
      rw [← Bool.not_eq_true]
      exact fun hc => hset (.inr hc)
    rw [clipLineLoop] at hl
    by_cases hin : clip.Contains (line.x1,line.y1)
    · have hout : ¬ clip.Contains (line.x2,line.y2) := fun hc => hset (.inl ⟨hin,hc⟩)
      have hcode : (code clip line.x2 line.y2).outside = true := by
        rwa [← Bool.not_eq_false,outside_eq_false]
      rw [if_pos hin] at h
      rw [outside_eq_false.mpr hin,hcode,hcommon] at hl
      obtain ⟨p,hp,hl⟩ := Option.bind_eq_some_iff.mp hl
      have hnear := divide_second hout hcommon hp
      rcases h p hp with hs | ⟨hexact,hrest⟩
      · rcases loop_settled hs hl with ⟨rfl,rfl⟩ | ⟨rfl,hc⟩
        · exact ⟨fun _ => hnear.mono (divisionError_le _ _ _),fun hb => (nomatch hb)⟩
        · rw [@not_common_of_contains clip (setSecond line p) _ _ hin] at hc
          cases hc
      · rw [divisionError,if_pos hexact] at hnear
        exact (ih hrest hl).of_near hnear
    · have hcode : (code clip line.x1 line.y1).outside = true := by
        rwa [← Bool.not_eq_false,outside_eq_false]
      rw [if_neg hin] at h
      rw [hcode,hcommon] at hl
      obtain ⟨p,hp,hl⟩ := Option.bind_eq_some_iff.mp hl
      obtain ⟨hnear,hmiss⟩ := divide_first hclip hin hcommon hp
      rcases h p hp with hs | ⟨hexact,hrest⟩
      · rcases loop_settled hs hl with ⟨rfl,rfl⟩ | ⟨rfl,hc⟩
        · exact ⟨fun _ => hnear.mono (divisionError_le _ _ _),fun hb => (nomatch hb)⟩
        · exact ⟨fun hb => (nomatch hb),fun _ => hmiss hc⟩
      · rw [divisionError,if_pos hexact] at hnear
        exact (ih hrest hl).of_near hnear

end Lines

/-- A line keeps what lies in the clip, up to one pixel, and is given up only if it has no pixel
there. -/
structure Unbent (clip line : Region) : Prop where
  near : ∀ l, clipLine clip line = some l → Near 1 clip line l
  missed : clipLine clip line = none → ∀ q : ℤ × ℤ,
    (∃ t : ℝ, 0 ≤ t ∧ t ≤ 1 ∧ pointAt line t = (↑q.1,↑q.2)) → ¬ clip.Contains q

/-- A line that is not divided again after it was rounded goes where it went. -/
theorem clip_line_unbent {clip line : Region} (hclip : clip.Valid) (h : Unrounded clip 5 line) :
    Unbent clip line := by
  obtain ⟨b,l,hl,-⟩ := @clipLineLoop_ends clip line hclip 5
    (Nat.lt_succ_of_le (divisions_le clip line))
  obtain ⟨hnear,hmiss⟩ := loop_faithful hclip h hl
  have hclipLine : clipLine clip line = if b then some l else none := by
    rw [clipLine,hl]
    rfl
  constructor
  · intro l' hl'
    cases b with
    | false =>
      rw [hclipLine] at hl'
      cases hl'
    | true =>
      rw [hclipLine] at hl'
      obtain rfl : l = l' := Option.some.inj hl'
      exact hnear rfl
  · rintro hnone q ⟨t,h0,h1,hq⟩ hin
    cases b with
    | true =>
      rw [hclipLine] at hnone
      cases hnone
    | false =>
      refine hmiss rfl t h0 h1 ?_
      rw [hq]
      obtain ⟨hx1,hx2,hy1,hy2⟩ := hin
      exact ⟨Int.cast_le.mpr hx1,Int.cast_le.mpr hx2,Int.cast_le.mpr hy1,Int.cast_le.mpr hy2⟩

/-- A line of which only the last division is rounded. -/
theorem clip_line_unbent_once : Unbent ⟨0,0,9,9⟩ ⟨-4,-2,20,10⟩ :=
  clip_line_unbent ⟨by decide,by decide⟩ (by decide)

/-- A line through a pixel of the clip is given up: its first end is rounded away from it. -/
theorem line_lost : ¬ ∀ clip line : Region, clip.Valid → Unbent clip line := by
  intro h
  have hlost := (h ⟨0,0,0,1⟩ ⟨-1,-2,1,4⟩ ⟨by decide,by decide⟩).missed (by decide) (0,1)
  refine hlost ⟨1/2,by norm_num,by norm_num,?_⟩ (by decide)
  simp only [pointAt]
  norm_num

end DirectFB.Clip
