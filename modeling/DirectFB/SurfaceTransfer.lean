import DirectFB.LineCopy

/-! Reading from and writing to the buffers of a surface. -/
namespace DirectFB.SurfaceTransfer
open LineCopy

/-- The `DFBResult` codes that are told apart. -/
inductive Result
  | ok | invArea | unsupported | noAllocation | other (code : ℕ)
  deriving DecidableEq

structure Rect where
  x : ℤ
  y : ℤ
  w : ℤ
  h : ℤ
  deriving DecidableEq

structure Surface where
  w : ℕ
  h : ℕ
  bits : ℕ

/-- `DFB_BYTES_PER_LINE` -/
def bytesPerLine (bits : ℕ) (width : ℤ) : ℤ := (bits*width+7)/8

/-- An allocation, of which the pitch has room for a line, and whether the CPU may access it. -/
structure Allocation (s : Surface) where
  pitch : ℤ
  cpu : Bool
  fits : bytesPerLine s.bits s.w ≤ pitch

/-- What a function of a pool returns, and the bytes of each line that it has copied when it
returns an error. -/
structure Attempt where
  ret : Result
  done : ℕ → ℤ → Bool

/-- The answers of `CoreSurface_PreLockBuffer2`, the function for reading or writing and the one
for locking of the pool. -/
structure Answers where
  prelock : Result
  attempt : Attempt
  lock : Result

/-- A result with the memory that was written to and the references that are held. -/
structure Outcome where
  ret : Result
  memory : ℤ → UInt8
  refs : ℤ

/-- `dfb_rectangle_intersect` -/
def Rect.intersect (r clip : Rect) : Option Rect :=
  let r := if clip.x > r.x then {r with w := r.w-(clip.x-r.x), x := clip.x} else r
  let r := if clip.y > r.y then {r with h := r.h-(clip.y-r.y), y := clip.y} else r
  let r := if clip.x+clip.w-1 < r.x+r.w-1 then {r with w := clip.x+clip.w-1-r.x+1} else r
  let r := if clip.y+clip.h-1 < r.y+r.h-1 then {r with h := clip.y+clip.h-1-r.y+1} else r
  if r.w ≤ 0 ∨ r.h ≤ 0 then none else some r

def area (s : Surface) (prect : Option Rect) : Option Rect :=
  match prect with
  | none => some ⟨0,0,s.w,s.h⟩
  | some p => (Rect.intersect ⟨0,0,s.w,s.h⟩ p).filter (· = p)

/-- `dfb_surface_allocation_unref` -/
def Outcome.unref (o : Outcome) : Outcome := {o with refs := o.refs-1}

section Transfers

variable {s : Surface}

def lineStart (alloc : Allocation s) (rect : Rect) : ℤ := s.bits*rect.x/8+rect.y*alloc.pitch

def copyStart (alloc : Allocation s) (rect : Rect) : ℤ :=
  bytesPerLine s.bits rect.x+rect.y*alloc.pitch

def Attempt.mask (t : Attempt) : ℕ → ℤ → Bool := if t.ret = .ok then all else t.done

/-- `dfb_surface_read_buffer` -/
def readBuffer (alloc : Allocation s) (a : Answers) (memory destination : ℤ → UInt8) (pitch : ℤ)
    (prect : Option Rect) : Outcome :=
  match area s prect with
  | none => ⟨.invArea,destination,0⟩
  | some rect =>
    let bytes := bytesPerLine s.bits rect.w
    let h := rect.h.toNat
    if a.prelock = .noAllocation then
      ⟨.ok,copyLines all (fun _ => 0) bytes h destination 0 pitch 0 0,0⟩
    else if a.prelock ≠ .ok then ⟨a.prelock,destination,0⟩
    else
      let destination := copyLines a.attempt.mask memory bytes h destination 0 pitch
        (lineStart alloc rect) alloc.pitch
      if a.attempt.ret ≠ .ok ∧ alloc.cpu then
        if a.lock ≠ .ok then Outcome.unref ⟨a.lock,destination,1⟩
        else Outcome.unref ⟨.ok,copyLines all memory bytes h destination 0 pitch
          (copyStart alloc rect) alloc.pitch,1⟩
      else Outcome.unref ⟨.ok,destination,1⟩

def written (source : Option (ℤ → UInt8)) : ℤ → UInt8 := source.getD fun _ => 0

def attempted (source : Bool) (t : Attempt) : Attempt :=
  if source then t else ⟨.unsupported,fun _ _ => false⟩

/-- `dfb_surface_write_buffer` -/
def writeBuffer (alloc : Allocation s) (a : Answers) (memory : ℤ → UInt8)
    (source : Option (ℤ → UInt8)) (pitch : ℤ) (prect : Option Rect) : Outcome :=
  match area s prect with
  | none => ⟨.invArea,memory,0⟩
  | some rect =>
    let bytes := bytesPerLine s.bits rect.w
    let h := rect.h.toNat
    if a.prelock ≠ .ok then ⟨a.prelock,memory,0⟩
    else
      let t := attempted source.isSome a.attempt
      let memory := copyLines t.mask (written source) bytes h memory
        (lineStart alloc rect) alloc.pitch 0 pitch
      if t.ret ≠ .ok ∧ alloc.cpu then
        if a.lock ≠ .ok then Outcome.unref ⟨a.lock,memory,1⟩
        else Outcome.unref ⟨.ok,copyLines all (written source) bytes h memory
          (copyStart alloc rect) alloc.pitch 0 pitch,1⟩
      else Outcome.unref ⟨.ok,memory,1⟩

/-- What is asked of a read: with `DFB_OK` the destination has the bytes of the allocation, or
zeros, and the reference is given back. -/
structure Reads (alloc : Allocation s) (a : Answers) (memory : ℤ → UInt8) (pitch : ℤ)
    (prect : Option Rect) (o : Outcome) : Prop where
  filled : o.ret = .ok → ∃ rect, area s prect = some rect ∧ ∀ y < rect.h.toNat, ∀ k, 0 ≤ k →
    k < bytesPerLine s.bits rect.w → o.memory (y*pitch+k) =
      if a.prelock = .noAllocation then 0 else memory (lineStart alloc rect+y*alloc.pitch+k)
  refs : o.refs = 0

/-- What is asked of a write: with `DFB_OK` the allocation has the bytes of the source, nothing
else is written, and the reference is given back. -/
structure Writes (alloc : Allocation s) (memory : ℤ → UInt8) (source : Option (ℤ → UInt8))
    (pitch : ℤ) (prect : Option Rect) (o : Outcome) : Prop where
  written : o.ret = .ok → ∃ rect, area s prect = some rect ∧ ∀ y < rect.h.toNat, ∀ k, 0 ≤ k →
    k < bytesPerLine s.bits rect.w →
      o.memory (lineStart alloc rect+y*alloc.pitch+k) = written source (y*pitch+k)
  untouched : ∀ x, (∀ rect, area s prect = some rect → ∀ y < rect.h.toNat, ∀ k, 0 ≤ k →
    k < bytesPerLine s.bits rect.w → x ≠ lineStart alloc rect+y*alloc.pitch+k) →
      o.memory x = memory x
  refs : o.refs = 0

def MadeUp (alloc : Allocation s) (a : Answers) (t : Attempt) (prect : Option Rect) : Prop :=
  ∀ rect, area s prect = some rect → a.prelock = .ok → t.ret ≠ .ok →
    if alloc.cpu then a.lock = .ok → (8 : ℤ) ∣ s.bits*rect.x
    else ∀ y < rect.h.toNat, ∀ k, 0 ≤ k → k < bytesPerLine s.bits rect.w → t.done y k = true

/-- A rectangle of a surface is within it, and not empty where it does not start a line. -/
structure Within (s : Surface) (rect : Rect) : Prop where
  x : 0 ≤ rect.x
  w : rect.w ≤ s.w
  inner : rect.x ≠ 0 → 0 < rect.w ∧ 0 < rect.h

theorem Rect.intersect_within {r clip q : Rect} (h : r.intersect clip = some q) :
    r.x ≤ q.x ∧ q.x+q.w ≤ r.x+r.w ∧ 0 < q.w ∧ 0 < q.h := by
  unfold Rect.intersect at h
  dsimp only at h
  split_ifs at h <;> obtain rfl := Option.some.inj h <;> (try dsimp only at *) <;> omega

theorem area_within {prect : Option Rect} {rect : Rect} (h : area s prect = some rect) :
    Within s rect := by
  cases prect with
  | none =>
    obtain rfl := Option.some.inj h
    exact ⟨le_rfl,le_rfl,fun h => absurd rfl h⟩
  | some p =>
    obtain ⟨h,hp⟩ := Option.filter_eq_some_iff.mp h
    obtain ⟨hx,hw,hpos⟩ := Rect.intersect_within h
    dsimp only at hx hw
    exact ⟨hx,by omega,fun _ => hpos⟩

theorem bytesPerLine_mono {bits : ℕ} {w w' : ℤ} (h : w ≤ w') :
    bytesPerLine bits w ≤ bytesPerLine bits w' := by
  unfold bytesPerLine
  have : (bits : ℤ)*w ≤ bits*w' := by gcongr
  omega

theorem copyStart_aligned {alloc : Allocation s} {rect : Rect} (h : (8 : ℤ) ∣ s.bits*rect.x) :
    copyStart alloc rect = lineStart alloc rect := by
  unfold copyStart lineStart bytesPerLine
  omega

theorem copyStart_unaligned {alloc : Allocation s} {rect : Rect} (h : ¬ (8 : ℤ) ∣ s.bits*rect.x) :
    copyStart alloc rect = lineStart alloc rect+1 := by
  unfold copyStart lineStart bytesPerLine
  omega

theorem bytes_le_pitch (alloc : Allocation s) {rect : Rect} (h : Within s rect) :
    bytesPerLine s.bits rect.w ≤ alloc.pitch :=
  (bytesPerLine_mono h.w).trans alloc.fits

theorem unaligned_pos {rect : Rect} (hr : Within s rect) (h : ¬ (8 : ℤ) ∣ s.bits*rect.x) :
    0 < rect.h.toNat ∧ 0 < bytesPerLine s.bits rect.w := by
  have hbits : s.bits ≠ 0 := by
    rintro hzero
    simp [hzero] at h
  have hx : rect.x ≠ 0 := by
    rintro hzero
    simp [hzero] at h
  obtain ⟨hw,hh⟩ := hr.inner hx
  have hone : (1 : ℤ) ≤ s.bits*rect.w := by
    have : (1 : ℤ)*1 ≤ s.bits*rect.w := by gcongr <;> omega
    omega
  unfold bytesPerLine
  omega

theorem copyLines_own {mask : ℕ → ℤ → Bool} {src m : ℤ → UInt8} {n pitch s spitch k : ℤ} {h y : ℕ}
    (hpitch : n ≤ pitch) (hy : y < h) (hk : 0 ≤ k) (hn : k < n) :
    copyLines mask src n h m 0 pitch s spitch (y*pitch+k) =
      if mask y k then src (s+y*spitch+k) else m (y*pitch+k) := by
  have hcopied : copyLines mask src n h m 0 pitch s spitch (0+y*pitch+k) = _ :=
    copyLines_inside hpitch hy hk hn
  rwa [zero_add] at hcopied

theorem mask_ok {t : Attempt} (h : t.ret = .ok) : t.mask = all := if_pos h

theorem mask_failed {t : Attempt} (h : t.ret ≠ .ok) : t.mask = t.done := if_neg h

section Read

variable {alloc : Allocation s} {a : Answers} {memory destination : ℤ → UInt8} {pitch : ℤ}
  {prect : Option Rect} {rect : Rect}

/-- What a read makes of the destination where it returns `DFB_OK`. -/
theorem readBuffer_cases (hrect : area s prect = some rect) (hok : a.prelock = .ok) :
    readBuffer alloc a memory destination pitch prect =
      let bytes := bytesPerLine s.bits rect.w
      let direct := copyLines a.attempt.mask memory bytes rect.h.toNat destination 0 pitch
        (lineStart alloc rect) alloc.pitch
      if a.attempt.ret ≠ .ok ∧ alloc.cpu then
        if a.lock ≠ .ok then ⟨a.lock,direct,0⟩
        else ⟨.ok,copyLines all memory bytes rect.h.toNat direct 0 pitch (copyStart alloc rect)
          alloc.pitch,0⟩
      else ⟨.ok,direct,0⟩ := by
  unfold readBuffer
  rw [hrect]
  simp only [hok,reduceCtorEq,if_false,ne_eq,not_true_eq_false]
  rfl

theorem read_made_up (hpitch : bytesPerLine s.bits rect.w ≤ pitch) (hrect : area s prect = some rect)
    (hok : a.prelock = .ok) (h : MadeUp alloc a a.attempt prect) :
    Reads alloc a memory pitch prect (readBuffer alloc a memory destination pitch prect) := by
  rw [readBuffer_cases hrect hok]
  have hmade := h rect hrect hok
  have hno : a.prelock ≠ .noAllocation := by simp [hok]
  dsimp only
  split_ifs with hfail hlock
  · exact ⟨fun hret => absurd hret hlock,rfl⟩
  · have haligned := hmade hfail.1
    rw [if_pos hfail.2] at haligned
    refine ⟨fun _ => ⟨rect,hrect,fun y hy k hk hn => ?_⟩,rfl⟩
    dsimp only
    rw [copyLines_own hpitch hy hk hn,copyStart_aligned (haligned (not_not.mp hlock)),if_neg hno]
    rfl
  · refine ⟨fun _ => ⟨rect,hrect,fun y hy k hk hn => ?_⟩,rfl⟩
    dsimp only
    rw [copyLines_own hpitch hy hk hn,if_neg hno,if_pos]
    by_cases hret : a.attempt.ret = .ok
    · rw [mask_ok hret]
      rfl
    · have hdone := hmade hret
      rw [if_neg fun hcpu => hfail ⟨hret,hcpu⟩] at hdone
      rw [mask_failed hret]
      exact hdone y hy k hk hn

/-- A read that is not made up for leaves the destination with other bytes, for some contents. -/
theorem read_not_made_up (hpitch : ∀ rect, area s prect = some rect →
      bytesPerLine s.bits rect.w ≤ pitch)
    (h : ∀ memory destination, Reads alloc a memory pitch prect
      (readBuffer alloc a memory destination pitch prect)) : MadeUp alloc a a.attempt prect := by
  intro rect hrect hok hret
  have hpitch := hpitch rect hrect
  have hno : a.prelock ≠ .noAllocation := by simp [hok]
  split_ifs with hcpu
  · intro hlock
    by_contra haligned
    obtain ⟨hh,hbytes⟩ := unaligned_pos (area_within hrect) haligned
    have hread := h (fun x => if x = lineStart alloc rect then 1 else 0) fun _ => 0
    rw [readBuffer_cases hrect hok] at hread
    simp only [hret,hcpu,hlock,ne_eq,not_true_eq_false,not_false_eq_true,and_self,if_true,
      if_false] at hread
    obtain ⟨rect',hrect',hfilled⟩ := hread.filled rfl
    obtain rfl := Option.some.inj (hrect.symm.trans hrect')
    have hbyte := hfilled 0 hh 0 le_rfl hbytes
    dsimp only at hbyte
    rw [copyLines_own hpitch hh le_rfl hbytes,copyStart_unaligned haligned,if_neg hno] at hbyte
    simp [all] at hbyte
  · intro y hy k hk hn
    by_contra hdone
    have hread := h (fun _ => 0) fun _ => 1
    rw [readBuffer_cases hrect hok] at hread
    simp only [hcpu,and_false,if_false,Bool.false_eq_true] at hread
    obtain ⟨rect',hrect',hfilled⟩ := hread.filled rfl
    obtain rfl := Option.some.inj (hrect.symm.trans hrect')
    have hbyte := hfilled y hy k hk hn
    dsimp only at hbyte
    rw [copyLines_own hpitch hy hk hn,mask_failed hret,if_neg hdone,if_neg hno] at hbyte
    exact absurd hbyte (by decide)

theorem read_iff (hpitch : ∀ rect, area s prect = some rect → bytesPerLine s.bits rect.w ≤ pitch) :
    (∀ memory destination, Reads alloc a memory pitch prect
      (readBuffer alloc a memory destination pitch prect)) ↔ MadeUp alloc a a.attempt prect := by
  refine ⟨read_not_made_up hpitch,fun h memory destination => ?_⟩
  cases hrect : area s prect with
  | none =>
    unfold readBuffer
    rw [hrect]
    exact ⟨fun hret => (nomatch hret),rfl⟩
  | some rect =>
    by_cases hok : a.prelock = .ok
    · exact read_made_up (hpitch rect hrect) hrect hok h
    unfold readBuffer
    rw [hrect]
    by_cases hno : a.prelock = .noAllocation
    · simp only [if_pos hno]
      refine ⟨fun _ => ⟨rect,hrect,fun y hy k hk hn => ?_⟩,rfl⟩
      dsimp only
      rw [copyLines_own (hpitch rect hrect) hy hk hn,if_pos hno]
      rfl
    · simp only [if_neg hno,ne_eq,hok,not_false_eq_true,if_true]
      exact ⟨fun hret => absurd hret hok,rfl⟩

end Read

section Write

variable {alloc : Allocation s} {a : Answers} {memory : ℤ → UInt8} {source : Option (ℤ → UInt8)}
  {pitch : ℤ} {prect : Option Rect} {rect : Rect}

/-- What a write makes of the allocation where `CoreSurface_PreLockBuffer2` returns it. -/
theorem writeBuffer_cases (hrect : area s prect = some rect) (hok : a.prelock = .ok) :
    writeBuffer alloc a memory source pitch prect =
      let bytes := bytesPerLine s.bits rect.w
      let t := attempted source.isSome a.attempt
      let direct := copyLines t.mask (written source) bytes rect.h.toNat memory
        (lineStart alloc rect) alloc.pitch 0 pitch
      if t.ret ≠ .ok ∧ alloc.cpu then
        if a.lock ≠ .ok then ⟨a.lock,direct,0⟩
        else ⟨.ok,copyLines all (written source) bytes rect.h.toNat direct (copyStart alloc rect)
          alloc.pitch 0 pitch,0⟩
      else ⟨.ok,direct,0⟩ := by
  unfold writeBuffer
  rw [hrect]
  simp only [hok,ne_eq,not_true_eq_false,if_false]
  rfl

theorem write_made_up (hrect : area s prect = some rect) (hok : a.prelock = .ok)
    (h : MadeUp alloc a (attempted source.isSome a.attempt) prect) :
    Writes alloc memory source pitch prect (writeBuffer alloc a memory source pitch prect) := by
  rw [writeBuffer_cases hrect hok]
  have hmade := h rect hrect hok
  have hpitch := bytes_le_pitch alloc (area_within hrect)
  dsimp only
  split_ifs with hfail hlock
  · refine ⟨fun hret => absurd hret hlock,fun x hx => ?_,rfl⟩
    exact copyLines_outside (hx rect hrect)
  · have haligned := hmade hfail.1
    rw [if_pos hfail.2] at haligned
    rw [copyStart_aligned (haligned (not_not.mp hlock))]
    refine ⟨fun _ => ⟨rect,hrect,fun y hy k hk hn => ?_⟩,fun x hx => ?_,rfl⟩
    · dsimp only
      rw [copyLines_inside hpitch hy hk hn,zero_add]
      rfl
    · dsimp only
      rw [copyLines_outside (hx rect hrect),copyLines_outside (hx rect hrect)]
  · refine ⟨fun _ => ⟨rect,hrect,fun y hy k hk hn => ?_⟩,fun x hx => ?_,rfl⟩
    · dsimp only
      rw [copyLines_inside hpitch hy hk hn,zero_add,if_pos]
      by_cases hret : (attempted source.isSome a.attempt).ret = .ok
      · rw [mask_ok hret]
        rfl
      · have hdone := hmade hret
        rw [if_neg fun hcpu => hfail ⟨hret,hcpu⟩] at hdone
        rw [mask_failed hret]
        exact hdone y hy k hk hn
    · exact copyLines_outside (hx rect hrect)

theorem exists_other (b : Bool) :
    ∃ (source : Option (ℤ → UInt8)) (v : UInt8), source.isSome = b ∧ ∀ x, written source x ≠ v := by
  cases b
  · exact ⟨none,1,rfl,fun _ => by simp [written]⟩
  · exact ⟨some fun _ => 1,0,rfl,fun _ => by simp [written]⟩

theorem write_not_made_up {b : Bool} (h : ∀ memory source, source.isSome = b →
      Writes alloc memory source pitch prect (writeBuffer alloc a memory source pitch prect)) :
    MadeUp alloc a (attempted b a.attempt) prect := by
  intro rect hrect hok hret
  have hpitch := bytes_le_pitch alloc (area_within hrect)
  obtain ⟨source,v,rfl,hother⟩ := exists_other b
  have hwrite := h (fun _ => v) source rfl
  rw [writeBuffer_cases hrect hok] at hwrite
  split_ifs with hcpu
  · intro hlock
    by_contra haligned
    obtain ⟨hh,hbytes⟩ := unaligned_pos (area_within hrect) haligned
    simp only [hret,hcpu,hlock,ne_eq,not_true_eq_false,not_false_eq_true,and_self,if_true,
      if_false] at hwrite
    -- the byte behind the last line is written
    obtain ⟨n,hn⟩ : ∃ n, rect.h.toNat = n+1 := Nat.exists_eq_succ_of_ne_zero hh.ne'
    have hbehind := hwrite.untouched (lineStart alloc rect+n*alloc.pitch+bytesPerLine s.bits rect.w)
      fun rect' hrect' y hy k hk hkn heq => by
        obtain rfl := Option.some.inj (hrect.symm.trans hrect')
        have hle : (y : ℤ)*alloc.pitch ≤ n*alloc.pitch := by gcongr <;> omega
        omega
    dsimp only at hbehind
    rw [copyStart_unaligned haligned,show lineStart alloc rect+n*alloc.pitch+
      bytesPerLine s.bits rect.w = lineStart alloc rect+1+n*alloc.pitch+
        (bytesPerLine s.bits rect.w-1) by ring,
      copyLines_inside hpitch (by omega) (by omega) (by omega)] at hbehind
    exact hother _ hbehind
  · intro y hy k hk hn
    by_contra hdone
    simp only [hcpu,and_false,if_false,Bool.false_eq_true] at hwrite
    obtain ⟨rect',hrect',hwritten⟩ := hwrite.written rfl
    obtain rfl := Option.some.inj (hrect.symm.trans hrect')
    have hbyte := hwritten y hy k hk hn
    dsimp only at hbyte
    rw [copyLines_inside hpitch hy hk hn,mask_failed hret,if_neg hdone] at hbyte
    exact hother _ hbyte.symm

theorem write_iff {b : Bool} : (∀ memory source, source.isSome = b →
    Writes alloc memory source pitch prect (writeBuffer alloc a memory source pitch prect)) ↔
      MadeUp alloc a (attempted b a.attempt) prect := by
  refine ⟨write_not_made_up,?_⟩
  rintro h memory source rfl
  cases hrect : area s prect with
  | none =>
    unfold writeBuffer
    rw [hrect]
    exact ⟨fun hret => (nomatch hret),fun _ _ => rfl,rfl⟩
  | some rect =>
    by_cases hok : a.prelock = .ok
    · exact write_made_up hrect hok h
    unfold writeBuffer
    rw [hrect]
    simp only [ne_eq,hok,not_false_eq_true,if_true]
    exact ⟨fun hret => absurd hret hok,fun _ _ => rfl,rfl⟩

end Write

end Transfers

/-- Reads and writes do what they report, for all contents, just when an error of the function of
the pool is made up for. The pitch of the destination has room for a line. -/
theorem transfers_reported {s : Surface} (alloc : Allocation s) (a : Answers) (pitch : ℤ)
    (prect : Option Rect)
    (hpitch : ∀ rect, area s prect = some rect → bytesPerLine s.bits rect.w ≤ pitch) :
    ((∀ memory destination, Reads alloc a memory pitch prect
      (readBuffer alloc a memory destination pitch prect)) ↔ MadeUp alloc a a.attempt prect) ∧
    ∀ b, (∀ memory source, source.isSome = b →
      Writes alloc memory source pitch prect (writeBuffer alloc a memory source pitch prect)) ↔
        MadeUp alloc a (attempted b a.attempt) prect :=
  ⟨read_iff hpitch,fun _ => write_iff⟩

def gpuOnly : Allocation ⟨2,1,32⟩ := ⟨8,false,by decide⟩

/-- The function of the pool succeeds. -/
theorem transfers_reported_direct : Reads gpuOnly ⟨.ok,⟨.ok,fun _ _ => false⟩,.ok⟩ (fun _ => 7) 8 none
    (readBuffer gpuOnly ⟨.ok,⟨.ok,fun _ _ => false⟩,.ok⟩ (fun _ => 7) (fun _ => 0) 8 none) :=
  (transfers_reported gpuOnly ⟨.ok,⟨.ok,fun _ _ => false⟩,.ok⟩ 8 none (by
    rintro rect ⟨⟩
    decide)).1.mpr (fun _ _ _ hret => absurd rfl hret) _ _

/-- The pool has no function for reading: nothing is filled. -/
theorem unsupported_ok : ¬ ∀ (s : Surface) (alloc : Allocation s) (a : Answers)
    (memory destination : ℤ → UInt8) (pitch : ℤ) (prect : Option Rect),
    bytesPerLine s.bits s.w ≤ pitch → Reads alloc a memory pitch prect
      (readBuffer alloc a memory destination pitch prect) := by
  intro h
  obtain ⟨hfilled,-⟩ := h _ gpuOnly ⟨.ok,⟨.unsupported,fun _ _ => false⟩,.ok⟩ (fun _ => 7)
    (fun _ => 0) 8 none (by decide)
  obtain ⟨rect,hrect,hall⟩ := hfilled rfl
  obtain rfl := Option.some.inj hrect
  exact absurd (hall 0 (by decide) 0 le_rfl (by decide)) (by decide)

end DirectFB.SurfaceTransfer
