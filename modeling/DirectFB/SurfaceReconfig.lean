import DirectFB.SurfaceFlip

/-! A surface gets another configuration, with new buffers. -/
namespace DirectFB.SurfaceReconfig
open Function (update)
export SurfaceFlip (StereoEye)
open Transition

/-- The `DSCAPS_` that are looked at. -/
structure Caps where
  systemOnly : Bool := false
  videoOnly : Bool := false
  double : Bool := false
  triple : Bool := false
  rotated : Bool := false
  stereo : Bool := false
  others : UInt32 := 0
  deriving DecidableEq

/-- `CoreSurfaceTypeFlags` -/
structure TypeFlags where
  internal : Bool := false
  external : Bool := false
  preallocated : Bool := false
  others : UInt32 := 0
  deriving DecidableEq

/-- `CoreSurfaceConfigFlags` -/
structure ConfigFlags where
  size : Bool := false
  format : Bool := false
  caps : Bool := false
  colorspace : Bool := false
  preallocated : Bool := false
  deriving DecidableEq

/-- `CoreSurfaceConfig` without what belongs to preallocated memory. -/
structure Config where
  flags : ConfigFlags := {}
  size : ℤ × ℤ
  format : UInt32
  colorspace : UInt32 := 0
  caps : Caps := {}
  minSize : ℤ × ℤ := (0,0)
  deriving DecidableEq

/-- A `CoreSurface` with the number of its lock's acquisitions. Buffers are told apart by the
number of those that were created before. -/
@[ext] structure CoreSurface where
  type : TypeFlags
  config : Config
  eye : StereoEye
  buffers : StereoEye → ℕ → Option ℕ
  numBuffers : ℕ
  bufferIndices : ℕ → ℕ
  locks : ℕ
  created : ℕ

structure Answers where
  prevail : Bool
  check : DirectResult
  create : StereoEye → ℕ → DirectResult
  surfaceClear : Bool

def Caps.eyes (caps : Caps) : List StereoEye := if caps.stereo then [.left,.right] else [.left]

def Caps.buffers (caps : Caps) : ℕ := if caps.triple then 3 else if caps.double then 2 else 1

/-- `fusion_skirmish_prevail` -/
def CoreSurface.prevail (s : CoreSurface) : CoreSurface := {s with locks := s.locks+1}

/-- `fusion_skirmish_dismiss` -/
def CoreSurface.dismiss (s : CoreSurface) : CoreSurface := {s with locks := s.locks-1}

def Fits (s : CoreSurface) (config : Config) : Prop :=
  (config.flags = {size := true} ∨
    config.flags = {size := true, format := true} ∧ config.format = s.config.format) ∧
    config.size.1 ≤ s.config.minSize.1 ∧ config.size.2 ≤ s.config.minSize.2

instance (s : CoreSurface) (config : Config) : Decidable (Fits s config) :=
  inferInstanceAs (Decidable (_ ∧ _))

/-- `new_config` -/
def newConfig (s : CoreSurface) (config : Config) : Config :=
  let caps := if config.flags.caps then {config.caps with rotated := false} else s.config.caps
  {s.config with
    size := if config.flags.size then config.size else s.config.size
    format := if config.flags.format then config.format else s.config.format
    colorspace := if config.flags.colorspace then config.colorspace else s.config.colorspace
    caps := if caps.triple ∨ caps.double then caps else {caps with rotated := false}}

def newType (type : TypeFlags) (caps : Caps) : TypeFlags :=
  if caps.systemOnly then {type with external := false, internal := true}
  else if caps.videoOnly then {type with internal := false, external := true}
  else {type with internal := false, external := false}

/-- `surface->buffers[i] = buffer` -/
def CoreSurface.setBuffer (s : CoreSurface) (i : ℕ) (buffer : Option ℕ) : CoreSurface :=
  {s with buffers :=
    update s.buffers s.eye (update (s.buffers s.eye) i buffer)}

def destroyEye (s : CoreSurface) (eye : StereoEye) : CoreSurface :=
  (List.range s.numBuffers).foldl (fun s i => s.setBuffer i none) {s with eye := eye}

def destroy (s : CoreSurface) : CoreSurface :=
  {s.config.caps.eyes.foldl destroyEye s with eye := .left, numBuffers := 0}

/-- The `switch`, in which each case goes on with the next one. -/
def setIndices (indices : ℕ → ℕ) (i : ℕ) : ℕ → ℕ :=
  match i with
  | 0 => update (update (update indices 0 0) 1 0) 2 0
  | 1 => update (update indices 1 1) 2 1
  | 2 => update indices 2 2
  | _ => indices

def createBuffer (a : Answers) (s : CoreSurface) (i : ℕ) :
    Except (DirectResult × CoreSurface) CoreSurface :=
  if a.create s.eye i ≠ .ok then .error (a.create s.eye i,s)
  else .ok {s.setBuffer i (some s.created) with
    numBuffers := if s.eye = .left then s.numBuffers+1 else s.numBuffers
    bufferIndices := setIndices s.bufferIndices i
    created := s.created+1}

def createEye (a : Answers) (buffers : ℕ) (s : CoreSurface) (eye : StereoEye) :
    Except (DirectResult × CoreSurface) CoreSurface :=
  (List.range buffers).foldlM (createBuffer a) {s with eye := eye}

/-- The lock is taken and given back by `dfb_surface_clear_buffers`, which changes pixels only. -/
def clearBuffers (s : CoreSurface) : CoreSurface :=
  if s.numBuffers = 0 then s else s.prevail.dismiss

/-- The last part of `dfb_surface_reconfig`, where the buffers are exchanged. -/
def recreate (s : CoreSurface) (new : Config) (a : Answers) : DirectResult × CoreSurface :=
  match new.caps.eyes.foldlM (createEye a new.caps.buffers) {destroy s with config := new} with
  | .error (ret,s) => (ret,s.dismiss)
  | .ok s =>
    let s := {s with eye := .left}
    (.ok,(if a.surfaceClear then clearBuffers s else s).dismiss)

def CoreSurface.setType (s : CoreSurface) (caps : Caps) : CoreSurface :=
  {s with type := newType s.type caps}

/-- `dfb_surface_reconfig` -/
def reconfig (s : CoreSurface) (config : Config) (a : Answers) : DirectResult × CoreSurface :=
  if config.flags.preallocated then (.unsupported,s)
  else if ¬ a.prevail then (.fusion,s)
  else if s.prevail.type.preallocated then (.unsupported,s.prevail.dismiss)
  else if Fits s.prevail config then
    (.ok,CoreSurface.dismiss {s.prevail with config := {s.config with size := config.size}})
  else
    let new := newConfig s.prevail config
    let s := s.prevail.setType new.caps
    if a.check ≠ .ok then (a.check,s) else recreate s new a

/-- `dfb_surface_destroy_buffers` -/
def destroyBuffers (s : CoreSurface) (prevail : Bool) : DirectResult × CoreSurface :=
  if ¬ prevail then (.fusion,s)
  else if s.type.preallocated then (.unsupported,s.prevail.dismiss)
  else (.ok,(destroy s.prevail).dismiss)

/-- The exchange of two indices by `dfb_surface_flip_buffers`. -/
def swapIndices (s : CoreSurface) (back front : ℕ) : CoreSurface :=
  let indices := update s.bufferIndices back (s.bufferIndices front)
  {s with bufferIndices := update indices front (s.bufferIndices back)}

inductive Event
  | reconfig (config : Config) (a : Answers)
  | destroyBuffers (prevail : Bool)
  | flip (back front : ℕ)

def step (s : CoreSurface) : Event → Option CoreSurface
  | .reconfig config a => some (reconfig s config a).2
  | .destroyBuffers prevail => some (destroyBuffers s prevail).2
  | .flip back front =>
    if back < s.numBuffers ∧ front < s.numBuffers then some (swapIndices s back front) else none

structure Sound (s : CoreSurface) : Prop where
  buffers : ∀ eye ∈ s.config.caps.eyes, ∀ i < s.numBuffers, s.buffers eye i ≠ none
  indices : ∀ i < s.numBuffers, s.bufferIndices i < s.numBuffers

def AsBefore (s t : CoreSurface) : Prop :=
  t.type = s.type ∧ t.config = s.config ∧ t.numBuffers = s.numBuffers ∧ t.buffers = s.buffers

def Replaced (s t : CoreSurface) : Prop :=
  t.numBuffers = t.config.caps.buffers ∧ ∀ eye ∈ t.config.caps.eyes, ∀ i < t.numBuffers,
    ∃ b, t.buffers eye i = some b ∧ s.created ≤ b

def Atomic (s : CoreSurface) (r : DirectResult × CoreSurface) : Prop :=
  r.2.locks = s.locks ∧ (r.1 ≠ .ok → AsBefore s r.2 ∨ Replaced s r.2) ∧ Sound r.2

/-- The function returns before it changes the type, or nothing fails. A surface without buffers
may stay without them. -/
def Meets (s : CoreSurface) : Event → Prop
  | .reconfig config a =>
    let new := newConfig s config
    config.flags.preallocated ∨ ¬ a.prevail ∨ s.type.preallocated ∨ Fits s config ∨ a.check = .ok ∧
        ((∀ eye ∈ new.caps.eyes, ∀ i < new.caps.buffers, a.create eye i = .ok) ∨
          a.create .left 0 ≠ .ok ∧ s.numBuffers = 0 ∧ newType s.type new.caps = s.type ∧
            new = s.config)
  | _ => True

/-- What `dfb_surface_create` leaves. -/
structure Created (s : CoreSurface) : Prop where
  numBuffers : s.numBuffers = s.config.caps.buffers
  used : ∀ eye ∈ s.config.caps.eyes, ∀ i < s.numBuffers, ∃ b < s.created, s.buffers eye i = some b
  unused : ∀ eye i, ¬ (eye ∈ s.config.caps.eyes ∧ i < s.numBuffers) → s.buffers eye i = none
  indices : ∀ i < s.numBuffers, s.bufferIndices i = i

structure Inv (s : CoreSurface) : Prop where
  used : ∀ eye ∈ s.config.caps.eyes, ∀ i < s.numBuffers, ∃ b < s.created, s.buffers eye i = some b
  unused : ∀ eye i, ¬ (eye ∈ s.config.caps.eyes ∧ i < s.numBuffers) → s.buffers eye i = none
  indices : ∀ i < s.numBuffers, s.bufferIndices i < s.numBuffers

def made (s : CoreSurface) (n : ℕ) : CoreSurface :=
  {s with
    buffers := fun eye i =>
      if eye = s.eye ∧ i < n then some (s.created+i) else s.buffers eye i
    numBuffers := if s.eye = .left then s.numBuffers+n else s.numBuffers
    bufferIndices := (List.range n).foldl setIndices s.bufferIndices
    created := s.created+n}

section Loops

variable {s t : CoreSurface} {a : Answers} {eye : StereoEye} {config new : Config} {n : ℕ}

@[simp] theorem mem_eyes {caps : Caps} : eye ∈ caps.eyes ↔ eye = .left ∨ caps.stereo = true := by
  cases eye <;> cases h : caps.stereo <;> simp [Caps.eyes,h]

theorem destroyed_range (s : CoreSurface) (n : ℕ) :
    (List.range n).foldl (fun s i => s.setBuffer i none) s =
      {s with buffers := fun e i => if e = s.eye ∧ i < n then none else s.buffers e i} := by
  induction n with
  | zero => simp
  | succ n ih =>
    rw [List.range_succ,List.foldl_append,ih]
    simp only [List.foldl_cons,List.foldl_nil,CoreSurface.setBuffer,CoreSurface.mk.injEq,true_and,
      and_true]
    funext e i
    by_cases he : e = s.eye
    · rcases lt_trichotomy i n with hi | rfl | hi
      · simp [he,hi,hi.ne,hi.le]
      · simp [he]
      · simp [he,hi.ne',hi.not_ge,hi.not_gt]
    · simp [he]

theorem destroyEye_eq (s : CoreSurface) (eye : StereoEye) : destroyEye s eye = {s with
      eye := eye
      buffers := fun e i => if e = eye ∧ i < s.numBuffers then none else s.buffers e i} :=
  destroyed_range _ _

theorem destroy_eq (h : Inv s) :
    destroy s = {s with eye := .left, numBuffers := 0, buffers := fun _ _ => none} := by
  have hbuffers : (s.config.caps.eyes.foldl destroyEye s).buffers = fun _ _ => none := by
    funext eye i
    have hnone := h.unused eye i
    rw [mem_eyes] at hnone
    cases hs : s.config.caps.stereo <;> cases eye <;> by_cases hi : i < s.numBuffers <;>
      simp_all [Caps.eyes,destroyEye_eq]
  cases hs : s.config.caps.stereo <;> simp_all [destroy,Caps.eyes,destroyEye_eq]

theorem createBuffer_made (a : Answers) (s : CoreSurface) (n : ℕ) : createBuffer a (made s n) n =
    if a.create s.eye n ≠ .ok then .error (a.create s.eye n,made s n)
    else .ok (made s (n+1)) := by
  unfold createBuffer
  change (if a.create s.eye n ≠ .ok then _ else _) = _
  by_cases hok : a.create s.eye n = .ok
  · rw [if_neg (not_not.mpr hok),if_neg (not_not.mpr hok)]
    refine congrArg Except.ok (CoreSurface.ext rfl rfl rfl ?_ ?_ ?_ rfl rfl)
    · funext e i
      by_cases he : e = s.eye
      · rcases lt_trichotomy i n with hi | rfl | hi
        · simp [made,CoreSurface.setBuffer,he,hi,hi.ne,hi.le]
        · simp [made,CoreSurface.setBuffer,he]
        · simp [made,CoreSurface.setBuffer,he,hi.ne',hi.not_ge,hi.not_gt]
      · simp [made,CoreSurface.setBuffer,he]
    · by_cases heye : s.eye = .left <;> simp [made,heye,Nat.add_assoc]
    · simp [made,List.range_succ]
  · rw [if_pos hok,if_pos hok]
    rfl

@[simp] theorem made_zero (s : CoreSurface) : made s 0 = s := by simp [made]

theorem createEye_cases (a : Answers) (n : ℕ) (s : CoreSurface) (eye : StereoEye) :
    (∀ i < n, a.create eye i = .ok) ∧ createEye a n s eye = .ok (made {s with eye := eye} n) ∨
      ∃ i < n, (∀ j < i, a.create eye j = .ok) ∧ a.create eye i ≠ .ok ∧
        createEye a n s eye = .error (a.create eye i,made {s with eye := eye} i) := by
  unfold createEye
  induction n with
  | zero => exact Or.inl ⟨by simp,by rw [made_zero]; rfl⟩
  | succ n ih =>
    rw [List.range_succ,List.foldlM_append]
    obtain ⟨hok,heq⟩ | ⟨i,hi,hbefore,hfail,heq⟩ := ih
    · have hlast : (Except.ok (made {s with eye := eye} n) >>= fun s =>
          List.foldlM (createBuffer a) s [n]) = createBuffer a (made {s with eye := eye} n) n := by
        change (createBuffer a (made {s with eye := eye} n) n >>= pure) = _
        exact bind_pure _
      rw [heq,hlast,createBuffer_made]
      by_cases hn : a.create eye n = .ok
      · refine Or.inl ⟨fun i hi => ?_,if_neg (not_not.mpr hn)⟩
        obtain hlt | rfl := Nat.lt_succ_iff_lt_or_eq.mp hi
        · exact hok i hlt
        · exact hn
      · exact Or.inr ⟨n,Nat.lt_succ_self n,hok,hn,if_pos hn⟩
    · rw [heq]
      exact Or.inr ⟨i,hi.trans (Nat.lt_succ_self n),hbefore,hfail,rfl⟩

def emptied (s : CoreSurface) (new : Config) : CoreSurface :=
  {s with
    config := new
    eye := .left
    buffers := fun _ _ => none
    numBuffers := 0}

theorem recreate_eq (h : Inv s) : recreate s new a =
    match new.caps.eyes.foldlM (createEye a new.caps.buffers) (emptied s new) with
    | .error (ret,t) => (ret,t.dismiss)
    | .ok t => (.ok,CoreSurface.dismiss {t with eye := .left}) := by
  have hclear : ∀ t, (if a.surfaceClear then clearBuffers t else t) = t := fun t => by
    unfold clearBuffers
    split_ifs <;> rfl
  unfold recreate
  rw [destroy_eq h]
  simp only [hclear]
  rfl

def second (s : CoreSurface) (n i : ℕ) : CoreSurface := made {made s n with eye := .right} i

theorem createEyes_cases (a : Answers) (n : ℕ) (caps : Caps) (hs : s.eye = .left) :
    (∃ i < n, (∀ j < i, a.create .left j = .ok) ∧ a.create .left i ≠ .ok ∧
      caps.eyes.foldlM (createEye a n) s = .error (a.create .left i,made s i)) ∨
    (∀ i < n, a.create .left i = .ok) ∧ (caps.stereo = true ∧ (∃ i < n, a.create .right i ≠ .ok ∧
        caps.eyes.foldlM (createEye a n) s = .error (a.create .right i,second s n i)) ∨
      (caps.stereo = true → ∀ i < n, a.create .right i = .ok) ∧ caps.eyes.foldlM (createEye a n) s =
          .ok (if caps.stereo then second s n n else made s n)) := by
  have hleft := createEye_cases a n s .left
  have hsame : {s with eye := .left} = s := by rw [← hs]
  rw [hsame] at hleft
  have hright := createEye_cases a n (made s n) .right
  cases hstereo : caps.stereo
  · simp only [Caps.eyes,hstereo,Bool.false_eq_true,if_false,List.foldlM_cons,List.foldlM_nil,
      bind_pure]
    obtain ⟨hok,heq⟩ | hfail := hleft
    · exact Or.inr ⟨hok,Or.inr ⟨by simp,heq⟩⟩
    · exact Or.inl hfail
  · simp only [Caps.eyes,hstereo,if_true,List.foldlM_cons,List.foldlM_nil,bind_pure]
    obtain ⟨hok,heq⟩ | ⟨i,hi,hbefore,hfail,heq⟩ := hleft
    · rw [heq]
      obtain ⟨hok',heq'⟩ | hfail' := hright
      · exact Or.inr ⟨hok,Or.inr ⟨fun _ => hok',heq'⟩⟩
      · obtain ⟨i,hi,-,hfail,heq'⟩ := hfail'
        exact Or.inr ⟨hok,Or.inl ⟨trivial,i,hi,hfail,heq'⟩⟩
    · rw [heq]
      exact Or.inl ⟨i,hi,hbefore,hfail,rfl⟩

theorem buffers_le (caps : Caps) : 0 < caps.buffers ∧ caps.buffers ≤ 3 := by
  unfold Caps.buffers
  split_ifs <;> decide

theorem setIndices_range (indices : ℕ → ℕ) (hn : n ≤ 3) :
    ∀ i < n, (List.range n).foldl setIndices indices i = i := by
  intro i hi
  interval_cases n <;> interval_cases i <;> rfl

end Loops

section Calls

variable {s t : CoreSurface} {a : Answers} {config : Config} {i : ℕ}

def Early (s : CoreSurface) (config : Config) (a : Answers) : Prop :=
  config.flags.preallocated ∨ ¬ a.prevail ∨ s.type.preallocated ∨ Fits s config

theorem reconfig_early (h : Early s config a) : (reconfig s config a).2 = s ∨
    reconfig s config a = (.ok,{s with config := {s.config with size := config.size}}) := by
  unfold reconfig
  by_cases hflags : config.flags.preallocated
  · exact Or.inl (by rw [if_pos hflags])
  by_cases hprevail : ¬ a.prevail
  · exact Or.inl (by rw [if_neg hflags,if_pos hprevail])
  by_cases htype : s.prevail.type.preallocated
  · exact Or.inl (by rw [if_neg hflags,if_neg hprevail,if_pos htype]; rfl)
  have hfits : Fits s.prevail config :=
    ((h.resolve_left hflags).resolve_left hprevail).resolve_left htype
  exact Or.inr (by rw [if_neg hflags,if_neg hprevail,if_neg htype,if_pos hfits]; rfl)

theorem reconfig_rest (h : ¬ Early s config a) : reconfig s config a =
    if a.check ≠ .ok then (a.check,s.prevail.setType (newConfig s config).caps)
    else recreate (s.prevail.setType (newConfig s config).caps) (newConfig s config) a := by
  simp only [Early,not_or] at h
  obtain ⟨hflags,hprevail,htype,hfits⟩ := h
  unfold reconfig
  rw [if_neg hflags,if_neg hprevail]
  exact (if_neg htype).trans (if_neg hfits)

theorem Inv.sound (h : Inv s) : Sound s :=
  ⟨fun eye heye i hi => by
    obtain ⟨b,-,hb⟩ := h.used eye heye i hi
    simp [hb],h.indices⟩

theorem destroyed_inv (h : Inv s) : Inv (destroy s) := by
  rw [destroy_eq h]
  exact ⟨fun _ _ i hi => absurd hi (Nat.not_lt_zero i),fun _ _ _ => rfl,
    fun i hi => absurd hi (Nat.not_lt_zero i)⟩

/-- All buffers of the configuration are created. -/
theorem created_inv (s : CoreSurface) (new : Config) :
    Inv (if new.caps.stereo then second (emptied s new) new.caps.buffers new.caps.buffers
      else made (emptied s new) new.caps.buffers) := by
  obtain ⟨-,hle⟩ := buffers_le new.caps
  have hindices := setIndices_range s.bufferIndices hle
  cases hs : new.caps.stereo
  · refine ⟨fun eye heye i hi => ?_,fun eye i hno => ?_,fun i hi => ?_⟩
    · simp_all [made,emptied]
    · cases eye <;> simp_all [made,emptied]
    · simp_all [made,emptied]
  · refine ⟨fun eye heye i hi => ?_,fun eye i hno => ?_,fun i hi => ?_⟩
    · cases eye
      · simp_all [second,made,emptied]
        omega
      · simp_all [second,made,emptied]
    · cases eye <;> simp_all [second,made,emptied]
    · have hagain := setIndices_range
        ((List.range new.caps.buffers).foldl setIndices s.bufferIndices) hle
      simp_all [second,made,emptied]

/-- Where a buffer of the left eye is not created, fewer are left than the configuration has. -/
theorem left_failed {new : Config} (hinv : Inv s) (hi : i < new.caps.buffers)
    (hu : t.created = s.created)
    (h : Atomic s (a.create .left i,(made (emptied t new) i).dismiss))
    (hfail : a.create .left i ≠ .ok) :
    i = 0 ∧ s.numBuffers = 0 ∧ t.type = s.type ∧ new = s.config := by
  obtain ⟨-,hkept,-⟩ := h
  obtain ⟨htype,hconfig,hnum,hbuffers⟩ | ⟨hnum,-⟩ := hkept hfail
  · have hi' : i = s.numBuffers := by simpa [CoreSurface.dismiss,made,emptied] using hnum
    cases i with
    | zero => exact ⟨rfl,hi'.symm,htype,hconfig⟩
    | succ i =>
      obtain ⟨b,hb,hused⟩ := hinv.used .left (by simp) 0 (by omega)
      have hnew : some t.created = s.buffers .left 0 := by
        simpa [CoreSurface.dismiss,made,emptied] using congrFun (congrFun hbuffers .left) 0
      rw [hused] at hnew
      have := Option.some.inj hnew
      omega
  · simp only [CoreSurface.dismiss,made,emptied] at hnum
    simp at hnum
    omega

theorem right_failed {new : Config} {r : DirectResult} (hstereo : new.caps.stereo = true)
    (hi : i < new.caps.buffers) :
    ¬ Atomic s (r,(second (emptied t new) new.caps.buffers i).dismiss) := by
  rintro ⟨-,-,hsound⟩
  exact hsound.buffers .right (by simp [CoreSurface.dismiss,second,made,emptied,hstereo]) i
    (by simpa [CoreSurface.dismiss,second,made,emptied] using hi)
    (by simp [CoreSurface.dismiss,second,made,emptied])

theorem meets_early (h : Early s config a) : Meets s (.reconfig config a) := by
  obtain h | h | h | h := h
  · exact Or.inl h
  · exact Or.inr (Or.inl h)
  · exact Or.inr (Or.inr (Or.inl h))
  · exact Or.inr (Or.inr (Or.inr (Or.inl h)))

theorem meets_rest (h : ¬ Early s config a) : Meets s (.reconfig config a) ↔ a.check = .ok ∧
      ((∀ eye ∈ (newConfig s config).caps.eyes, ∀ i < (newConfig s config).caps.buffers,
        a.create eye i = .ok) ∨
      a.create .left 0 ≠ .ok ∧ s.numBuffers = 0 ∧
        newType s.type (newConfig s config).caps = s.type ∧ newConfig s config = s.config) := by
  simp only [Early,not_or] at h
  simp [Meets,h]

theorem recreate_atomic {new : Config} (hinv : Inv s) (ht : Inv t) (hlocks : t.locks = s.locks+1)
    (hcreated : t.created = s.created) :
    (Atomic s (recreate t new a) ↔
      (∀ eye ∈ new.caps.eyes, ∀ i < new.caps.buffers, a.create eye i = .ok) ∨
        a.create .left 0 ≠ .ok ∧ s.numBuffers = 0 ∧ t.type = s.type ∧ new = s.config) ∧
      (Atomic s (recreate t new a) → Inv (recreate t new a).2) := by
  obtain ⟨hpos,-⟩ := buffers_le new.caps
  rw [recreate_eq ht]
  obtain ⟨i,hi,hbefore,hfail,heq⟩ | ⟨hleft,⟨hstereo,i,hi,hfail,heq⟩ | ⟨hright,heq⟩⟩ :=
    createEyes_cases a new.caps.buffers new.caps (s := emptied t new) rfl
  · rw [heq]
    refine ⟨⟨fun h => ?_,?_⟩,?_⟩
    · obtain ⟨rfl,hrest⟩ := left_failed hinv hi hcreated h hfail
      exact Or.inr ⟨hfail,hrest⟩
    · rintro (h | ⟨hzero,hnum,htype,rfl⟩)
      · exact absurd (h .left (by simp) i hi) hfail
      · obtain rfl : i = 0 := Nat.eq_zero_of_not_pos fun h => hzero (hbefore 0 h)
        refine ⟨by simp [CoreSurface.dismiss,emptied,hlocks],fun _ => Or.inl ⟨htype,rfl,?_,?_⟩,?_⟩
        · simp [CoreSurface.dismiss,emptied,hnum]
        · funext eye i
          have hnone := hinv.unused eye i (by simp [hnum])
          simp [CoreSurface.dismiss,emptied,hnone]
        · exact ⟨fun _ _ i hi => by simp [CoreSurface.dismiss,emptied] at hi,fun i hi => by
            simp [CoreSurface.dismiss,emptied] at hi⟩
    · intro h
      obtain ⟨rfl,-⟩ := left_failed hinv hi hcreated h hfail
      exact ⟨fun _ _ i hi => by simp [CoreSurface.dismiss,emptied] at hi,fun _ _ _ => by
        simp [CoreSurface.dismiss,emptied],fun i hi => by simp [CoreSurface.dismiss,emptied] at hi⟩
  · rw [heq]
    refine ⟨iff_of_false (right_failed hstereo hi) ?_,fun h => absurd h (right_failed hstereo hi)⟩
    rintro (h | ⟨hzero,-⟩)
    · exact hfail (h .right (by simp [hstereo]) i hi)
    · exact hzero (hleft 0 hpos)
  · rw [heq]
    have hall : ∀ eye ∈ new.caps.eyes, ∀ i < new.caps.buffers, a.create eye i = .ok := by
      intro eye heye
      cases eye
      · exact hleft
      · exact hright (by simpa using heye)
    have hnew := created_inv t new
    have hlast : (if new.caps.stereo then second (emptied t new) new.caps.buffers new.caps.buffers
        else made (emptied t new) new.caps.buffers).locks = s.locks+1 := by
      split_ifs <;> exact hlocks
    have hkept : Inv (CoreSurface.dismiss {(if new.caps.stereo then
        second (emptied t new) new.caps.buffers new.caps.buffers
        else made (emptied t new) new.caps.buffers) with eye := .left}) :=
      ⟨hnew.used,hnew.unused,hnew.indices⟩
    refine ⟨iff_of_true ⟨?_,fun hno => absurd rfl hno,hkept.sound⟩ (Or.inl hall),fun _ => hkept⟩
    simp only [CoreSurface.dismiss,hlast,Nat.add_sub_cancel]

theorem reconfig_atomic (hinv : Inv s) :
    (Atomic s (reconfig s config a) ↔ Meets s (.reconfig config a)) ∧
      (Meets s (.reconfig config a) → Inv (reconfig s config a).2) := by
  by_cases hearly : Early s config a
  · have hmeets := meets_early hearly
    obtain hsame | hfits := reconfig_early hearly
    · refine ⟨iff_of_true ⟨by rw [hsame],fun _ => Or.inl ?_,?_⟩ hmeets,fun _ => ?_⟩
      · rw [hsame]
        exact ⟨rfl,rfl,rfl,rfl⟩
      · rw [hsame]
        exact hinv.sound
      · rwa [hsame]
    · rw [hfits]
      exact ⟨iff_of_true ⟨rfl,fun hno => absurd rfl hno,hinv.sound.buffers,hinv.indices⟩ hmeets,
        fun _ => ⟨hinv.used,hinv.unused,hinv.indices⟩⟩
  rw [reconfig_rest hearly,meets_rest hearly]
  by_cases hcheck : a.check = .ok
  · rw [if_neg (not_not.mpr hcheck)]
    have ht : Inv (s.prevail.setType (newConfig s config).caps) :=
      ⟨hinv.used,hinv.unused,hinv.indices⟩
    obtain ⟨hiff,hkept⟩ := recreate_atomic (a := a) hinv ht rfl rfl
    have hmeets := hiff.trans (and_iff_right hcheck).symm
    exact ⟨hmeets,fun h => hkept (hmeets.mpr h)⟩
  · rw [if_pos hcheck]
    refine ⟨iff_of_false (fun h => ?_) fun h => hcheck h.1,fun h => absurd h.1 hcheck⟩
    exact absurd h.1 (Nat.succ_ne_self s.locks)

theorem destroyBuffers_inv (h : Inv s) (prevail : Bool) : Inv (destroyBuffers s prevail).2 := by
  have hempty := destroyed_inv (s := s.prevail) ⟨h.used,h.unused,h.indices⟩
  unfold destroyBuffers
  split_ifs
  · exact h
  · exact ⟨hempty.used,hempty.unused,hempty.indices⟩
  · exact h

theorem swapIndices_inv {back front : ℕ} (h : Inv s) (hback : back < s.numBuffers)
    (hfront : front < s.numBuffers) : Inv (swapIndices s back front) := by
  refine ⟨h.used,h.unused,fun i hi => ?_⟩
  change update (update s.bufferIndices back (s.bufferIndices front)) front
    (s.bufferIndices back) i < s.numBuffers
  by_cases hif : i = front
  · simpa [hif] using h.indices back hback
  by_cases hib : i = back
  · subst hib
    simpa [hif] using h.indices front hfront
  · simpa [hif,hib] using h.indices i hi

theorem step_inv {e : Event} (h : Inv s) (hmeets : Meets s e) (hs : step s e = some t) : Inv t := by
  cases e with
  | reconfig config a =>
    cases hs
    exact (reconfig_atomic h).2 hmeets
  | destroyBuffers prevail =>
    cases hs
    exact destroyBuffers_inv h prevail
  | flip back front =>
    simp only [step,Option.ite_none_right_eq_some,Option.some.injEq] at hs
    obtain ⟨⟨hback,hfront⟩,rfl⟩ := hs
    exact swapIndices_inv h hback hfront

theorem reaches_inv (h : Reaches step Meets Created s) : Inv s :=
  h.invariant Inv (fun s (h : Created s) => ⟨h.used,h.unused,fun i hi => by rwa [h.indices i hi]⟩)
    fun _ _ _ hinv hok hs => step_inv hinv hok hs

end Calls

/-- In runs whose calls all meet the condition surfaces can be used at any time. A call leaves a
surface as it was or with all of its new configuration just when it meets the condition. -/
theorem reconfig_atomic_iff {s : CoreSurface} (h : Reaches step Meets Created s) :
    Sound s ∧ ∀ config a, Atomic s (reconfig s config a) ↔ Meets s (.reconfig config a) :=
  ⟨(reaches_inv h).sound,fun _ _ => (reconfig_atomic (reaches_inv h)).1⟩

def single : CoreSurface where
  type := {}
  config := {size := (4,4), format := 0}
  eye := .left
  buffers := fun eye i => if eye = .left ∧ i = 0 then some 0 else none
  numBuffers := 1
  bufferIndices := fun _ => 0
  locks := 0
  created := 1

theorem single_created : Created single where
  numBuffers := rfl
  used := by
    intro eye heye i hi
    obtain rfl : i = 0 := by simpa [single] using hi
    obtain rfl : eye = .left := by simpa [single] using heye
    exact ⟨0,by decide,rfl⟩
  unused := by
    intro eye i hno
    refine if_neg fun h => hno ?_
    obtain ⟨rfl,rfl⟩ := h
    decide
  indices := by
    intro i hi
    obtain rfl : i = 0 := by simpa [single] using hi
    rfl

/-- It gets three buffers, all of which can be created. -/
theorem reconfig_atomic_iff_single : Atomic single (reconfig single
    {flags := {caps := true}, size := (0,0), format := 0, caps := {triple := true}}
    ⟨true,.ok,fun _ _ => .ok,true⟩) :=
  ((reconfig_atomic_iff (.init single_created)).2 _ _).mpr
    (Or.inr (Or.inr (Or.inr (Or.inr ⟨rfl,Or.inl fun _ _ _ _ => rfl⟩))))

/-- The resource manager refuses another size: the lock is not given back. -/
theorem refused_held : ¬ ∀ s, Reaches step Meets Created s → ∀ config a,
    Atomic s (reconfig s config a) := by
  intro h
  have hatomic := h single (.init single_created)
    {flags := {size := true}, size := (8,8), format := 0} ⟨true,.failure,fun _ _ => .ok,true⟩
  exact absurd hatomic.1 (by decide)

end DirectFB.SurfaceReconfig
