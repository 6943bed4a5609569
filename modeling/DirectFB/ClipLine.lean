import DirectFB.Clip

/-! Lines that are clipped: every line is done after four divisions at most, none of them by zero,
and what is left of it lies in the clip. -/
namespace DirectFB.Clip

section Divisions

theorem tdiv_between {n k d : ℤ} (hd : 0 < d) (hk : 0 ≤ k) (hkd : k ≤ d) :
    min 0 n ≤ Int.tdiv (n*k) d ∧ Int.tdiv (n*k) d ≤ max 0 n := by
  have hpos {n : ℤ} (hn : 0 ≤ n) : 0 ≤ Int.tdiv (n*k) d ∧ Int.tdiv (n*k) d ≤ n := by
    have hnk : 0 ≤ n*k := mul_nonneg hn hk
    refine ⟨Int.tdiv_nonneg hnk hd.le,?_⟩
    rw [Int.tdiv_eq_ediv_of_nonneg hnk]
    exact Int.ediv_le_of_le_mul hd (mul_le_mul_of_nonneg_left hkd hn)
  rcases le_total 0 n with hn | hn
  · have := hpos hn
    omega
  · have hneg := hpos (n := -n) (by omega)
    rw [neg_mul,Int.neg_tdiv] at hneg
    omega

theorem tdiv_between_of_mem {n k d : ℤ} (hd : d ≠ 0) (hk : min 0 d ≤ k ∧ k ≤ max 0 d) :
    min 0 n ≤ Int.tdiv (n*k) d ∧ Int.tdiv (n*k) d ≤ max 0 n := by
  rcases lt_or_gt_of_ne hd with h | h
  · have hneg := @tdiv_between n (-k) (-d) (by omega) (by omega) (by omega)
    rw [mul_neg,Int.neg_tdiv_neg] at hneg
    exact hneg
  · exact tdiv_between h (by omega) (by omega)

theorem atRow_mem {line : Region} {y : ℤ} (hne : line.y1 ≠ line.y2)
    (hy : min line.y1 line.y2 ≤ y ∧ y ≤ max line.y1 line.y2) :
    ∃ x, atRow line y = some (x,y) ∧ min line.x1 line.x2 ≤ x ∧ x ≤ max line.x1 line.x2 := by
  have hd : line.y2-line.y1 ≠ 0 := by omega
  have hmem := @tdiv_between_of_mem (line.x2-line.x1) (y-line.y1) _ hd (by omega)
  exact ⟨_,by rw [atRow,if_neg hd],by omega,by omega⟩

theorem atColumn_mem {line : Region} {x : ℤ} (hne : line.x1 ≠ line.x2)
    (hx : min line.x1 line.x2 ≤ x ∧ x ≤ max line.x1 line.x2) :
    ∃ y, atColumn line x = some (x,y) ∧ min line.y1 line.y2 ≤ y ∧ y ≤ max line.y1 line.y2 := by
  have hd : line.x2-line.x1 ≠ 0 := by omega
  have hmem := @tdiv_between_of_mem (line.y2-line.y1) (x-line.x1) _ hd (by omega)
  exact ⟨_,by rw [atColumn,if_neg hd],by omega,by omega⟩

end Divisions

section Codes

variable {clip line : Region} {x y x' y' : ℤ}

theorem outside_eq_false : (code clip x y).outside = false ↔ clip.Contains (x,y) := by
  simp only [code,Code.outside,Region.Contains,Bool.or_eq_false_iff,decide_eq_false_iff_not]
  omega

theorem common_eq_false : (code clip x y).common (code clip x' y') = false ↔
    ¬ (y > clip.y2 ∧ y' > clip.y2) ∧ ¬ (y < clip.y1 ∧ y' < clip.y1) ∧
    ¬ (x > clip.x2 ∧ x' > clip.x2) ∧ ¬ (x < clip.x1 ∧ x' < clip.x1) := by
  simp only [code,Code.common,Bool.or_eq_false_iff,← Bool.decide_and,decide_eq_false_iff_not]
  tauto

def bounds (line : Region) : Region :=
  ⟨min line.x1 line.x2,min line.y1 line.y2,max line.x1 line.x2,max line.y1 line.y2⟩

/-- A point of a line where it is divided for an end at some place: it lies within the line's
bounds, and in the rows of the clip, or in the columns where the end is in the rows. -/
structure Division (clip line : Region) (x y : ℤ) (p : ℤ × ℤ) : Prop where
  bounds : (bounds line).Contains p
  rows : ¬ (clip.y1 ≤ y ∧ y ≤ clip.y2) → clip.y1 ≤ p.2 ∧ p.2 ≤ clip.y2
  columns : clip.y1 ≤ y ∧ y ≤ clip.y2 → clip.x1 ≤ p.1 ∧ p.1 ≤ clip.x2

/-- A line that goes on both sides of a bound of the clip is divided there. -/
theorem divide_division (hclip : clip.Valid) (hout : ¬ clip.Contains (x,y))
    (hcommon : (code clip x y).common (code clip x' y') = false)
    (hline : line.x1 = x ∧ line.y1 = y ∧ line.x2 = x' ∧ line.y2 = y' ∨
      line.x1 = x' ∧ line.y1 = y' ∧ line.x2 = x ∧ line.y2 = y) :
    ∃ p, divide clip line (code clip x y) = some p ∧ Division clip line x y p := by
  obtain ⟨hx,hy⟩ := hclip
  rw [common_eq_false] at hcommon
  simp only [Region.Contains] at hout
  simp only [divide,code,decide_eq_true_eq]
  split_ifs with hbelow habove hright
  · obtain ⟨x₀,hp,hx₀⟩ := @atRow_mem line clip.y2 (by omega) (by omega)
    refine ⟨_,hp,⟨?_,fun _ => ⟨hy,le_rfl⟩,fun h => absurd h.2 (by omega)⟩⟩
    simp only [Region.Contains,bounds]
    omega
  · obtain ⟨x₀,hp,hx₀⟩ := @atRow_mem line clip.y1 (by omega) (by omega)
    refine ⟨_,hp,⟨?_,fun _ => ⟨le_rfl,hy⟩,fun h => absurd h.1 (by omega)⟩⟩
    simp only [Region.Contains,bounds]
    omega
  · obtain ⟨y₀,hp,hy₀⟩ := @atColumn_mem line clip.x2 (by omega) (by omega)
    refine ⟨_,hp,⟨?_,fun h => absurd ⟨not_lt.mp habove,not_lt.mp hbelow⟩ h,fun _ => ⟨hx,le_rfl⟩⟩⟩
    simp only [Region.Contains,bounds]
    omega
  · obtain ⟨y₀,hp,hy₀⟩ := @atColumn_mem line clip.x1 (by omega) (by omega)
    refine ⟨_,hp,⟨?_,fun h => absurd ⟨not_lt.mp habove,not_lt.mp hbelow⟩ h,fun _ => ⟨le_rfl,hx⟩⟩⟩
    simp only [Region.Contains,bounds]
    omega

end Codes

section Loop

variable {clip line : Region}

def cost (clip : Region) (x y : ℤ) : ℕ :=
  if clip.y1 ≤ y ∧ y ≤ clip.y2 then if clip.x1 ≤ x ∧ x ≤ clip.x2 then 0 else 1 else 2

def divisions (clip line : Region) : ℕ :=
  if (code clip line.x1 line.y1).common (code clip line.x2 line.y2) then 0
  else cost clip line.x1 line.y1+cost clip line.x2 line.y2

theorem divisions_le (clip line : Region) : divisions clip line ≤ 4 := by
  simp only [divisions,cost]
  split_ifs <;> omega

theorem divisions_eq (hcommon : (code clip line.x1 line.y1).common
    (code clip line.x2 line.y2) = false) :
    divisions clip line = cost clip line.x1 line.y1+cost clip line.x2 line.y2 := by
  rw [divisions,hcommon,if_neg Bool.false_ne_true]

theorem cost_pos {x y : ℤ} (h : ¬ clip.Contains (x,y)) : 0 < cost clip x y := by
  simp only [Region.Contains] at h
  rw [cost]
  split_ifs <;> omega

theorem divisions_setFirst {p : ℤ × ℤ} (hout : ¬ clip.Contains (line.x1,line.y1))
    (hcommon : (code clip line.x1 line.y1).common (code clip line.x2 line.y2) = false)
    (hp : Division clip line line.x1 line.y1 p) :
    divisions clip (setFirst line p) < divisions clip line := by
  have hcost := cost_pos hout
  rw [divisions_eq hcommon]
  cases hnew : (code clip p.1 p.2).common (code clip line.x2 line.y2) with
  | true =>
    rw [divisions,show (code clip (setFirst line p).x1 (setFirst line p).y1).common
      (code clip (setFirst line p).x2 (setFirst line p).y2) = true from hnew,if_pos rfl]
    omega
  | false =>
    obtain ⟨hb,hrows,hcolumns⟩ := hp
    rw [@divisions_eq clip (setFirst line p) hnew]
    rw [common_eq_false] at hnew hcommon
    simp only [Region.Contains,bounds] at hb hout
    have hless : cost clip p.1 p.2 < cost clip line.x1 line.y1 := by
      simp only [cost]
      split_ifs <;> omega
    exact add_lt_add_left hless _

theorem divisions_setSecond {p : ℤ × ℤ} (hin : clip.Contains (line.x1,line.y1))
    (hout : ¬ clip.Contains (line.x2,line.y2))
    (hp : Division clip line line.x2 line.y2 p) :
    divisions clip (setSecond line p) < divisions clip line := by
  obtain ⟨hb,hrows,hcolumns⟩ := hp
  simp only [Region.Contains,bounds] at hb hout hin
  have hcommon (x y : ℤ) : (code clip line.x1 line.y1).common (code clip x y) = false := by
    rw [common_eq_false]
    omega
  rw [divisions_eq (hcommon _ _),@divisions_eq clip (setSecond line p) (hcommon _ _)]
  have hless : cost clip p.1 p.2 < cost clip line.x2 line.y2 := by
    simp only [cost]
    split_ifs <;> omega
  exact add_lt_add_right hless _

/-- What is left of a line: its ends lie in the clip and within the line's bounds, and an end that
was in the clip is kept. -/
structure Clipped (clip line l : Region) : Prop where
  first : clip.Contains (l.x1,l.y1)
  second : clip.Contains (l.x2,l.y2)
  bounds_first : (bounds line).Contains (l.x1,l.y1)
  bounds_second : (bounds line).Contains (l.x2,l.y2)
  keeps_first : clip.Contains (line.x1,line.y1) → l.x1 = line.x1 ∧ l.y1 = line.y1
  keeps_second : clip.Contains (line.x2,line.y2) → l.x2 = line.x2 ∧ l.y2 = line.y2

theorem Clipped.setFirst {l : Region} {p : ℤ × ℤ} (h : Clipped clip (setFirst line p) l)
    (hout : ¬ clip.Contains (line.x1,line.y1)) (hp : (bounds line).Contains p) :
    Clipped clip line l := by
  obtain ⟨h1,h2,hb1,hb2,-,hk2⟩ := h
  refine ⟨h1,h2,?_,?_,fun hin => absurd hin hout,hk2⟩
  all_goals simp only [Region.Contains,bounds,Clip.setFirst] at *; omega

theorem Clipped.setSecond {l : Region} {p : ℤ × ℤ} (h : Clipped clip (setSecond line p) l)
    (hout : ¬ clip.Contains (line.x2,line.y2)) (hp : (bounds line).Contains p) :
    Clipped clip line l := by
  obtain ⟨h1,h2,hb1,hb2,hk1,-⟩ := h
  refine ⟨h1,h2,?_,?_,hk1,fun hin => absurd hin hout⟩
  all_goals simp only [Region.Contains,bounds,Clip.setSecond] at *; omega

/-- With a round for each division and one more, the loop ends. -/
theorem clipLineLoop_ends (hclip : clip.Valid) (n : ℕ) (hn : divisions clip line < n) :
    ∃ b l, clipLineLoop clip n line = some (b,l) ∧ (b = true → Clipped clip line l) := by
  induction n generalizing line with
  | zero => omega
  | succ n ih =>
    rw [clipLineLoop]
    cases h1 : (code clip line.x1 line.y1).outside with
    | true =>
      cases hcommon : (code clip line.x1 line.y1).common (code clip line.x2 line.y2) with
      | true => exact ⟨false,line,by simp,by simp⟩
      | false =>
        have hout : ¬ clip.Contains (line.x1,line.y1) := by
          rw [← outside_eq_false,h1]
          simp
        obtain ⟨p,hp,hdiv⟩ := @divide_division clip line _ _ _ _ hclip hout hcommon
          (.inl ⟨rfl,rfl,rfl,rfl⟩)
        have hless := divisions_setFirst hout hcommon hdiv
        obtain ⟨b,l,hl,hin⟩ := @ih (setFirst line p) (by omega)
        exact ⟨b,l,by simp [hp,hl],fun hb => (hin hb).setFirst hout hdiv.bounds⟩
    | false =>
      have hin1 := outside_eq_false.mp h1
      cases h2 : (code clip line.x2 line.y2).outside with
      | false =>
        have hin2 := outside_eq_false.mp h2
        refine ⟨true,line,by simp,fun _ => ⟨hin1,hin2,?_,?_,fun _ => ⟨rfl,rfl⟩,fun _ => ⟨rfl,rfl⟩⟩⟩
        all_goals simp only [Region.Contains,bounds]; omega
      | true =>
        have hout : ¬ clip.Contains (line.x2,line.y2) := by
          rw [← outside_eq_false,h2]
          simp
        have hcommon : (code clip line.x1 line.y1).common (code clip line.x2 line.y2) = false := by
          rw [common_eq_false]
          simp only [Region.Contains] at hin1
          omega
        have hcommon' : (code clip line.x2 line.y2).common (code clip line.x1 line.y1) = false := by
          rw [common_eq_false] at hcommon ⊢
          tauto
        obtain ⟨p,hp,hdiv⟩ := @divide_division clip line _ _ _ _ hclip hout hcommon'
          (.inr ⟨rfl,rfl,rfl,rfl⟩)
        have hless := divisions_setSecond hin1 hout hdiv
        obtain ⟨b,l,hl,hin⟩ := @ih (setSecond line p) (by omega)
        exact ⟨b,l,by simp [hcommon,hp,hl],fun hb => (hin hb).setSecond hout hdiv.bounds⟩

theorem clipLineLoop_succ {n : ℕ} {r : Bool × Region} (h : clipLineLoop clip n line = some r) :
    clipLineLoop clip (n+1) line = some r := by
  induction n generalizing line with
  | zero => cases h
  | succ n ih =>
    rw [clipLineLoop] at h ⊢
    split_ifs at h ⊢
    · exact h
    · obtain ⟨p,hp,h⟩ := Option.bind_eq_some_iff.mp h
      exact Option.bind_eq_some_iff.mpr ⟨p,hp,ih h⟩
    · obtain ⟨p,hp,h⟩ := Option.bind_eq_some_iff.mp h
      exact Option.bind_eq_some_iff.mpr ⟨p,hp,ih h⟩
    · exact h

theorem clipLineLoop_add {n : ℕ} {r : Bool × Region} (h : clipLineLoop clip n line = some r)
    (k : ℕ) : clipLineLoop clip (n+k) line = some r := by
  induction k with
  | zero => exact h
  | succ k ih => exact clipLineLoop_succ ih

/-- Every line is done after four divisions, none of them by zero. -/
theorem clip_line_terminates (clip line : Region) (hclip : clip.Valid) :
    ∃ b l, (∀ n, clipLineLoop clip (5+n) line = some (b,l)) ∧ (b = true → Clipped clip line l) := by
  have hle := divisions_le clip line
  obtain ⟨b,l,hl,hin⟩ := clipLineLoop_ends hclip 5 (Nat.lt_succ_of_le hle)
  exact ⟨b,l,clipLineLoop_add hl,hin⟩

/-- A line that is divided twice at each end. -/
theorem clip_line_terminates_crossing : ∃ b l,
    (∀ n, clipLineLoop ⟨0,0,9,9⟩ (5+n) ⟨-30,-26,16,14⟩ = some (b,l)) ∧
    (b = true → Clipped ⟨0,0,9,9⟩ ⟨-30,-26,16,14⟩ l) :=
  clip_line_terminates _ _ ⟨by decide,by decide⟩

end Loop

end DirectFB.Clip
