import Mathlib.Tactic

/-! The position of a playback in its buffer, with a stop position and a pitch of either sign. -/
namespace DirectFB.Playback

/-- `FS_PITCH_ONE` -/
def pitchOne : ℤ := 16384

/-- A `CorePlayback` with its buffer, and the rate it is mixed with. -/
structure CorePlayback where
  length : ℤ
  rate : ℤ
  pitch : ℤ
  destRate : ℤ
  stop : ℤ
  position : ℤ
  running : Bool := true

/-- The passes of the loops in a mixing function, `for (; i < max; i += inc)`. -/
def passes (inc max i : ℤ) : ℕ :=
  if 0 < inc ∧ i < max then passes inc max (i+inc)+1 else 0
termination_by (max-i).toNat
decreasing_by omega

/-- What `fs_buffer_mixto` returns. -/
structure Mixed where
  last : Bool
  pos : ℤ
  num : ℤ
  len : ℤ

def CorePlayback.inc (p : CorePlayback) : ℤ := (p.rate*p.pitch).tdiv p.destRate

/-- How far a call goes at most, where the stop position was moved, if need be, to be reached in the
playing direction. -/
def CorePlayback.limit (p : CorePlayback) : ℤ :=
  if p.pitch < 0 then (if p.position ≤ p.stop then p.stop-p.length else p.stop)-p.position
  else (if p.stop ≤ p.position then p.stop+p.length else p.stop)-p.position

/-- `fs_buffer_mixto`, where levels may make the buffer inaudible. -/
def CorePlayback.bufferMixto (p : CorePlayback) (maxFrames : ℕ) (audible : Bool) : Mixed :=
  let wanted := maxFrames*p.inc
  let limit := p.limit*pitchOne
  let last : Bool := 0 ≤ p.stop ∧ if p.pitch < 0 then wanted ≤ limit else limit ≤ wanted
  let max := if last then limit else wanted
  let len : ℤ :=
    if p.inc ≠ 0 ∧ audible then
      if p.pitch < 0 then passes (-p.inc) (-max) 0 else passes p.inc max 0
    else if p.inc ≠ 0 then max.tdiv p.inc else maxFrames
  let num := max/pitchOne
  let pos := (p.position+num).tmod p.length
  ⟨last,if pos < 0 then pos+p.length else pos,|num|,len⟩

/-- `fs_playback_mixto`, with the advance that is reported. -/
def CorePlayback.mixto (p : CorePlayback) (maxFrames : ℕ) (audible : Bool) : CorePlayback × ℤ :=
  let r := p.bufferMixto maxFrames audible
  ({p with position := r.pos, running := p.running && !r.last},r.num)

/-- Calls as long as the playback is running, with the sum of the advances. -/
def run : CorePlayback × ℤ → List (ℕ × Bool) → CorePlayback × ℤ
  | s, [] => s
  | s, (maxFrames,audible)::calls =>
    if s.1.running then
      let r := s.1.mixto maxFrames audible
      run (r.1,s.2+r.2) calls
    else s

/-- How many samples are to be played until the stop position. -/
def CorePlayback.distance (p : CorePlayback) : ℤ := |p.limit|

structure CorePlayback.Valid (p : CorePlayback) : Prop where
  rate : 0 < p.rate
  destRate : 0 < p.destRate
  start : 0 ≤ p.position ∧ p.position < p.length
  stop : 0 ≤ p.stop ∧ p.stop ≤ p.length

/-- In reverse, less than a sample is left before the stop position, and it is rounded away. -/
def CorePlayback.Rounded (p : CorePlayback) (maxFrames : ℕ) : Prop :=
  p.pitch < 0 ∧ -p.distance*pitchOne < maxFrames*p.inc ∧ maxFrames*p.inc < (1-p.distance)*pitchOne

def CorePlayback.direction (p : CorePlayback) : ℤ := if p.pitch < 0 then -1 else 1

theorem inc_nonneg {p : CorePlayback} (h : p.Valid) (hp : 0 ≤ p.pitch) : 0 ≤ p.inc :=
  Int.tdiv_nonneg (by have := h.rate; positivity) h.destRate.le

theorem inc_nonpos {p : CorePlayback} (h : p.Valid) (hp : p.pitch < 0) : p.inc ≤ 0 := by
  have hneg : p.rate*p.pitch ≤ 0 := by nlinarith [h.rate]
  unfold CorePlayback.inc
  rw [← neg_neg (p.rate*p.pitch),Int.neg_tdiv,neg_nonpos]
  exact Int.tdiv_nonneg (by omega) h.destRate.le

theorem passes_le {inc max i : ℤ} {n : ℕ} (h : max ≤ i+n*inc) : passes inc max i ≤ n := by
  induction n generalizing i with
  | zero =>
    rw [passes,if_neg (by simp at h; omega)]
  | succ n ih =>
    rw [passes]
    split_ifs
    · have := ih (i := i+inc) (by push_cast at h; linarith)
      omega
    · omega

theorem wrap_eq (a : ℤ) {b : ℤ} (hb : 0 < b) :
    (if a.tmod b < 0 then a.tmod b+b else a.tmod b) = a % b := by
  have h₁ := Int.emod_nonneg a hb.ne'
  have h₂ := Int.emod_lt_of_pos a hb
  rw [Int.tmod_eq_emod]
  split_ifs <;> omega

theorem wrapped {a b : ℤ} (hlow : -b ≤ a) (hhigh : a < 2*b) :
    a % b = a ∨ a % b = a+b ∨ a % b = a-b := by
  rcases lt_or_ge a 0 with h | h
  · rw [← Int.add_emod_right,Int.emod_eq_of_lt (by omega) (by omega)]
    exact .inr (.inl rfl)
  · rcases lt_or_ge a b with h' | h'
    · exact .inl (Int.emod_eq_of_lt h h')
    · rw [← Int.sub_emod_right,Int.emod_eq_of_lt (by omega) (by omega)]
      exact .inr (.inr rfl)

theorem mixto_eq {p : CorePlayback} (h : p.Valid) (hrun : p.running) (maxFrames : ℕ)
    (audible : Bool) :
    ∃ last : Bool, (last ↔ if p.pitch < 0 then maxFrames*p.inc ≤ p.limit*pitchOne
        else p.limit*pitchOne ≤ maxFrames*p.inc) ∧
      ∃ num, num = (if last then p.limit else maxFrames*p.inc/pitchOne) ∧
        p.mixto maxFrames audible =
          ({p with position := (p.position+num) % p.length, running := !last},|num|) := by
  have hone : p.limit*pitchOne/pitchOne = p.limit := Int.mul_ediv_cancel _ (by decide)
  refine ⟨(p.bufferMixto maxFrames audible).last,?_,_,rfl,?_⟩
  · simp only [CorePlayback.bufferMixto,h.stop.1,true_and,decide_eq_true_eq]
  unfold CorePlayback.mixto CorePlayback.bufferMixto
  simp only [wrap_eq _ (h.start.1.trans_lt h.start.2),hrun,h.stop.1,true_and,Bool.true_and]
  split_ifs <;> simp_all

/-- One call that is not rounded: it goes on in the playing direction, and stops just when no
distance is left. -/
theorem mixto_spec {p : CorePlayback} (h : p.Valid) (hrun : p.running) {maxFrames : ℕ}
    (audible : Bool) (hr : ¬p.Rounded maxFrames) :
    let r := p.mixto maxFrames audible
    0 ≤ r.2 ∧ r.2 ≤ p.distance ∧ r.1.position = (p.position+p.direction*r.2) % p.length ∧
      (r.1.running = false ↔ r.2 = p.distance) ∧
      (r.1.running → r.1.distance = p.distance-r.2) := by
  obtain ⟨hlow,hhigh⟩ := h.start
  obtain ⟨hstop,hstop'⟩ := h.stop
  obtain ⟨last,hlast,num,hnum,heq⟩ := mixto_eq h hrun maxFrames audible
  intro r
  rw [show r = _ from heq]
  unfold CorePlayback.Rounded CorePlayback.distance pitchOne at *
  rcases lt_or_ge p.pitch 0 with hp | hp
  · have hinc : maxFrames*p.inc ≤ 0 := mul_nonpos_of_nonneg_of_nonpos (by simp) (inc_nonpos h hp)
    have hlimit : p.limit ≤ 0 ∧ -p.length ≤ p.limit := by
      rw [CorePlayback.limit,if_pos hp]
      split_ifs <;> omega
    rw [abs_of_nonpos hlimit.1] at *
    have hn : p.limit ≤ num ∧ num ≤ 0 ∧ (last = true ↔ num = p.limit) := by
      rw [if_pos hp] at hlast
      -- what is not the last call ends a whole sample before the stop position
      have hwhole : maxFrames*p.inc ≤ p.limit*16384 ∨ (1+p.limit)*16384 ≤ maxFrames*p.inc := by
        by_contra hno
        exact hr ⟨hp,by omega,by omega⟩
      cases last <;> simp only [Bool.false_eq_true,if_false,if_true,true_iff,false_iff] at * <;>
        omega
    have hdir : p.direction = -1 := if_pos hp
    rw [abs_of_nonpos hn.2.1,hdir]
    refine ⟨by omega,by omega,by simp,by simp [hn.2.2],fun hrest => ?_⟩
    have hmod := wrapped (a := p.position+num) (b := p.length) (by omega) (by omega)
    have h₁ := Int.emod_nonneg (p.position+num) (b := p.length) (by omega)
    have h₂ := Int.emod_lt_of_pos (p.position+num) (b := p.length) (by omega)
    have hmore : num ≠ p.limit := fun he => by simp [hn.2.2.mpr he] at hrest
    unfold CorePlayback.limit at *
    simp only [if_pos hp] at *
    rw [abs_of_nonpos (by split_ifs <;> omega)]
    split_ifs at * <;> omega
  · have hinc : 0 ≤ maxFrames*p.inc := mul_nonneg (by simp) (inc_nonneg h hp)
    have hlimit : 0 < p.limit ∧ p.limit ≤ p.length := by
      rw [CorePlayback.limit,if_neg hp.not_gt]
      split_ifs <;> omega
    have hn : 0 ≤ num ∧ num ≤ p.limit ∧ (last = true ↔ num = p.limit) := by
      rw [if_neg hp.not_gt] at hlast
      cases last <;> simp only [Bool.false_eq_true,if_false,if_true,true_iff,false_iff] at * <;>
        omega
    have hdir : p.direction = 1 := if_neg hp.not_gt
    rw [abs_of_nonneg hn.1,abs_of_nonneg hlimit.1.le,hdir,one_mul]
    refine ⟨hn.1,hn.2.1,rfl,by simp [hn.2.2],fun hrest => ?_⟩
    have hmod := wrapped (a := p.position+num) (b := p.length) (by omega) (by omega)
    have h₁ := Int.emod_nonneg (p.position+num) (b := p.length) (by omega)
    have h₂ := Int.emod_lt_of_pos (p.position+num) (b := p.length) (by omega)
    have hmore : num ≠ p.limit := fun he => by simp [hn.2.2.mpr he] at hrest
    unfold CorePlayback.limit at *
    simp only [if_neg hp.not_gt] at *
    rw [abs_of_nonneg (by split_ifs <;> omega)]
    split_ifs at * <;> omega

theorem tdiv_bounds {inc max : ℤ} {n : ℕ} (hinc : 0 < inc) (h : 0 ≤ max) (hmax : max ≤ n*inc) :
    0 ≤ max.tdiv inc ∧ max.tdiv inc ≤ n := by
  rw [Int.tdiv_eq_ediv_of_nonneg h]
  exact ⟨Int.ediv_nonneg h hinc.le,Int.ediv_le_of_le_mul hinc hmax⟩

/-- No call writes more frames than there is room for. -/
theorem len_bounds {p : CorePlayback} (h : p.Valid) (maxFrames : ℕ) (audible : Bool) :
    0 ≤ (p.bufferMixto maxFrames audible).len ∧
      (p.bufferMixto maxFrames audible).len ≤ maxFrames := by
  obtain ⟨hlow,hhigh⟩ := h.start
  obtain ⟨hstop,hstop'⟩ := h.stop
  unfold CorePlayback.bufferMixto
  simp only [h.stop.1,true_and,decide_eq_true_eq]
  rcases lt_or_ge p.pitch 0 with hp | hp
  · have hinc := inc_nonpos h hp
    have hlimit : p.limit*pitchOne ≤ 0 := by
      rw [CorePlayback.limit,if_pos hp,pitchOne]
      split_ifs <;> omega
    simp only [if_pos hp]
    generalize hmax : (if maxFrames*p.inc ≤ p.limit*pitchOne then p.limit*pitchOne
      else maxFrames*p.inc) = max
    have hle : 0 ≤ -max ∧ -max ≤ maxFrames*(-p.inc) := by
      have := mul_nonpos_of_nonneg_of_nonpos (Int.natCast_nonneg maxFrames) hinc
      rw [mul_neg]
      split_ifs at hmax <;> omega
    split_ifs with h₁ h₂
    · exact ⟨by simp,by exact_mod_cast passes_le (by simpa using hle.2)⟩
    · rw [← Int.neg_tdiv_neg]
      exact tdiv_bounds (by omega) hle.1 hle.2
    · exact ⟨by simp,le_rfl⟩
  · have hinc := inc_nonneg h hp
    have hlimit : 0 ≤ p.limit*pitchOne := by
      rw [CorePlayback.limit,if_neg hp.not_gt,pitchOne]
      split_ifs <;> omega
    simp only [if_neg hp.not_gt]
    generalize hmax : (if p.limit*pitchOne ≤ maxFrames*p.inc then p.limit*pitchOne
      else maxFrames*p.inc) = max
    have hle : 0 ≤ max ∧ max ≤ maxFrames*p.inc := by
      have := mul_nonneg (Int.natCast_nonneg maxFrames) hinc
      split_ifs at hmax <;> omega
    split_ifs with h₁ h₂
    · exact ⟨by simp,by exact_mod_cast passes_le (by simpa using hle.2)⟩
    · exact tdiv_bounds (by omega) hle.1 hle.2
    · exact ⟨by simp,le_rfl⟩

/-- A position that is the stop position has a whole buffer or nothing left. -/
theorem distance_spec {p : CorePlayback} (h : p.Valid) :
    (p.position+p.direction*p.distance) % p.length = p.stop % p.length ∧ p.distance ≤ p.length ∧
      (p.position = p.stop % p.length → p.distance = p.length ∨ p.distance = 0) := by
  obtain ⟨hlow,hhigh⟩ := h.start
  obtain ⟨hstop,hstop'⟩ := h.stop
  have hmod : p.stop % p.length = p.stop ∨ p.stop = p.length ∧ p.stop % p.length = 0 := by
    rcases hstop'.lt_or_eq with hlt | heq
    · exact .inl (Int.emod_eq_of_lt hstop hlt)
    · exact .inr ⟨heq,by rw [heq,Int.emod_self]⟩
  unfold CorePlayback.direction CorePlayback.distance CorePlayback.limit
  rcases lt_or_ge p.pitch 0 with hp | hp
  · simp only [if_pos hp]
    rw [abs_of_nonpos (by split_ifs <;> omega),neg_mul_neg,one_mul,add_sub_cancel]
    refine ⟨?_,by split_ifs <;> omega,by split_ifs <;> omega⟩
    split_ifs
    exacts [Int.sub_emod_right _ _,rfl]
  · simp only [if_neg hp.not_gt]
    rw [abs_of_nonneg (by split_ifs <;> omega),one_mul,add_sub_cancel]
    refine ⟨?_,by split_ifs <;> omega,by split_ifs <;> omega⟩
    split_ifs
    exacts [Int.add_emod_right _ _,rfl]

/-- No call rounds the rest before the stop position away. -/
def Steady : CorePlayback × ℤ → List (ℕ × Bool) → Prop
  | _, [] => True
  | s, (maxFrames,audible)::calls =>
    s.1.running → ¬s.1.Rounded maxFrames ∧
      Steady ((s.1.mixto maxFrames audible).1,s.2+(s.1.mixto maxFrames audible).2) calls

/-- What calls that start at `p` come to: the advances are the distance that was travelled, and the
stop position is reached when the playback stops, and not before. -/
structure Plays (p : CorePlayback) (r : CorePlayback × ℤ) : Prop where
  room : ∀ q ∈ [p,r.1], ∀ maxFrames audible, 0 ≤ (q.bufferMixto maxFrames audible).len ∧
    (q.bufferMixto maxFrames audible).len ≤ maxFrames
  position_bounds : 0 ≤ r.1.position ∧ r.1.position < p.length
  position_eq : r.1.position = (p.position+p.direction*r.2) % p.length
  advance_bounds : 0 ≤ r.2 ∧ r.2 ≤ p.distance
  stopped_iff : r.1.running = false ↔ r.2 = p.distance
  at_stop : r.1.running = false → r.1.position = p.stop % p.length
  away : r.1.running → r.1.position = p.stop % p.length → r.2 = 0

/-- What holds after some calls that start at `p`. -/
structure Inv (p : CorePlayback) (s : CorePlayback × ℤ) : Prop where
  same : ∃ position running, s.1 = {p with position, running}
  start : 0 ≤ s.1.position ∧ s.1.position < p.length
  position_eq : s.1.position = (p.position+p.direction*s.2) % p.length
  advance : 0 ≤ s.2
  left : s.1.running → s.1.distance+s.2 = p.distance
  stopped : s.1.running = false → s.2 = p.distance

theorem Inv.step {p : CorePlayback} {s : CorePlayback × ℤ} (hv : p.Valid) (h : Inv p s)
    (hrun : s.1.running) {maxFrames : ℕ} (audible : Bool) (hr : ¬s.1.Rounded maxFrames) :
    let r := s.1.mixto maxFrames audible
    Inv p (r.1,s.2+r.2) ∧ (r.1.running → r.1.distance ≠ 0) := by
  obtain ⟨position,running,hsame⟩ := h.same
  have hv' : s.1.Valid := by
    rw [hsame]
    exact ⟨hv.rate,hv.destRate,by simpa [hsame] using h.start,hv.stop⟩
  obtain ⟨h₁,h₂,h₃,h₄,h₅⟩ := mixto_spec hv' hrun audible hr
  have hlen : s.1.length = p.length := by rw [hsame]
  have hdir : s.1.direction = p.direction := by rw [hsame]; rfl
  have hleft := h.left hrun
  have hkeep : ∃ position running,
      (s.1.mixto maxFrames audible).1 = {p with position, running} := by
    rw [hsame]
    exact ⟨_,_,rfl⟩
  dsimp only
  generalize s.1.mixto maxFrames audible = r at *
  refine ⟨⟨hkeep,?_,?_,add_nonneg h.advance h₁,fun hr' => ?_,fun hr' => ?_⟩,fun hr' he => ?_⟩
  · show 0 ≤ r.1.position ∧ r.1.position < p.length
    rw [h₃,hlen]
    exact ⟨Int.emod_nonneg _ (by have := h.start; omega),
      Int.emod_lt_of_pos _ (by have := h.start; omega)⟩
  · show r.1.position = _
    rw [h₃,hlen,hdir,h.position_eq,Int.emod_add_emod,mul_add,add_assoc]
  · have := h₅ hr'
    show r.1.distance+(s.2+r.2) = _
    omega
  · have := h₄.mp hr'
    show s.2+r.2 = _
    omega
  · have := h₅ hr'
    have := h₄.mpr (by omega)
    simp_all

theorem run_inv {p : CorePlayback} (hv : p.Valid) {s : CorePlayback × ℤ} (h : Inv p s)
    (hd : s.1.running → s.1.distance ≠ 0) (calls : List (ℕ × Bool)) (hs : Steady s calls) :
    Inv p (run s calls) ∧ ((run s calls).1.running → (run s calls).1.distance ≠ 0) := by
  induction calls generalizing s with
  | nil => exact ⟨h,hd⟩
  | cons c calls ih =>
    unfold run
    split_ifs with hrun
    · obtain ⟨hr,hs⟩ := hs hrun
      obtain ⟨h',hd'⟩ := h.step hv hrun c.2 hr
      exact ih h' hd' hs
    · exact ⟨h,hd⟩

/-- In every run of calls that do not round the rest away, the playback stops at its stop position,
exactly when the whole distance was travelled. -/
theorem run_plays {p : CorePlayback} (h : p.Valid) (hrun : p.running) (c : ℕ × Bool)
    (calls : List (ℕ × Bool)) (hs : Steady (p,0) (c::calls)) : Plays p (run (p,0) (c::calls)) := by
  have hstart : Inv p (p,0) := ⟨⟨_,_,rfl⟩,h.start,by simp [Int.emod_eq_of_lt h.start.1 h.start.2],
    le_rfl,fun _ => add_zero _,by simp [hrun]⟩
  obtain ⟨hr,hs⟩ := hs hrun
  obtain ⟨h₁,hd₁⟩ := hstart.step h hrun c.2 hr
  obtain ⟨hinv,hd⟩ := run_inv h h₁ hd₁ calls hs
  obtain ⟨hstop,hle,-⟩ := distance_spec h
  rw [run,if_pos hrun]
  generalize run _ calls = r at *
  obtain ⟨position,running,hsame⟩ := hinv.same
  have hv : r.1.Valid := by
    rw [hsame]
    exact ⟨h.rate,h.destRate,by simpa [hsame] using hinv.start,h.stop⟩
  have hnear := (distance_spec hv).2.2
  rw [show r.1.stop = p.stop by rw [hsame],show r.1.length = p.length by rw [hsame]] at hnear
  have hdist : 0 ≤ r.1.distance := abs_nonneg _
  have hiff : r.1.running = false ↔ r.2 = p.distance := by
    refine ⟨hinv.stopped,fun he => ?_⟩
    by_contra hr
    have hr : r.1.running = true := by simpa using hr
    exact hd hr (by have := hinv.left hr; omega)
  refine ⟨fun q hq => ?_,hinv.start,hinv.position_eq,⟨hinv.advance,?_⟩,hiff,fun hr => ?_,
    fun hr he => ?_⟩
  · rcases List.mem_pair.mp hq with rfl | rfl
    exacts [len_bounds h,len_bounds hv]
  · cases hr : r.1.running with
    | false => exact (hinv.stopped hr).le
    | true =>
      have := hinv.left hr
      omega
  · rw [hinv.position_eq,hinv.stopped hr,hstop]
  · have := hinv.left hr
    have := hnear he
    have := hinv.advance
    have := hd hr
    omega

theorem half_speed_stops : Plays ⟨4,8000,-8192,8000,0,3,true⟩
    (run (⟨4,8000,-8192,8000,0,3,true⟩,0) [(2,true),(4,true)]) :=
  run_plays ⟨by decide,by decide,by decide,by decide⟩ rfl (2,true) [(4,true)]
    fun _ => ⟨by unfold CorePlayback.Rounded; decide,fun _ =>
      ⟨by unfold CorePlayback.Rounded; decide,trivial⟩⟩

/-- Half a sample before the stop position the position is rounded onto it, and the playback goes
on. -/
theorem stop_passed : ¬∀ (p : CorePlayback) (c : ℕ × Bool) (calls : List (ℕ × Bool)),
    p.Valid → p.running → Plays p (run (p,0) (c::calls)) := by
  intro h
  have := (h ⟨4,8000,-8192,8000,0,3,true⟩ (5,false) [] ⟨by decide,by decide,by decide,by decide⟩
    rfl).stopped_iff
  revert this
  decide

end DirectFB.Playback
