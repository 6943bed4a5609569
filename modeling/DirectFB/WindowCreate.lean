import DirectFB.Types

/-! What a window leaves behind whose creation has failed. -/
namespace DirectFB.WindowCreate

inductive DFBResult
  | limitExceeded
  | noSharedMemory
  | of (r : DirectResult)
  deriving DecidableEq

/-- `DWCAPS_ALPHACHANNEL`, `DWCAPS_SUBWINDOW`, and `DWCAPS_INPUTONLY | DWCAPS_COLOR`. -/
structure Caps where
  alphaChannel : Bool := false
  subwindow : Bool := false
  hidden : Bool := false

/-- Formats and color spaces that are not given are unknown. -/
structure Description (F C : Type*) where
  width : ℤ
  height : ℤ
  caps : Caps
  pixelformat : Option F
  colorspace : Option C
  toplevelId : ℕ

/-- The configuration of DirectFB and of the layer context, where `windows` is `DLBM_WINDOWS`. -/
structure Config (F C : Type*) where
  translucentWindows : Bool
  windows : Bool
  pixelformat : Option F
  hasAlpha : F → Bool
  compatible : C → F → Bool
  argb : F
  rgb16 : F

variable {ω F C : Type*}

def Config.caps (c : Config F C) (d : Description F C) : Caps where
  alphaChannel := d.caps.alphaChannel && c.translucentWindows
  subwindow := d.toplevelId ≠ 0
  hidden := d.caps.hidden

def Config.chosen (c : Config F C) (d : Description F C) : Option F :=
  match d.pixelformat with
  | none =>
    if (c.caps d).alphaChannel then some (((c.pixelformat).filter c.hasAlpha).getD c.argb)
    else some (c.pixelformat.getD c.rgb16)
  | some f => if (c.caps d).alphaChannel && !c.hasAlpha f then none else some f

/-- The holds on the lock of the stack, its windows, the sub windows and references of each window,
and the references of the primary region and of a surface that the window manager provides. -/
structure Stack (ω : Type*) where
  locks : ℕ
  num : ℕ
  subwindows : ω → List ω
  refs : ω → ℕ
  primaryRegion : ℕ
  wmSurface : ℕ

/-- What is made for a window: objects, window data, and the references of a region and of a surface.
`held` tells whether the region has the surface. -/
structure Trace (ω : Type*) extends Stack ω where
  objects : ℕ := 0
  windowData : ℕ := 0
  region : ℕ := 0
  surface : ℕ := 0
  held : Bool := false

/-- What the functions that are called return. `caps` and `provides` are what the window manager makes
of the window, and `nested` is a top level window that is found and a sub window itself. -/
structure Answers (ω : Type*) where
  lock : DirectResult := .ok
  object : Bool := true
  dataSize : ℕ := 0
  data : Bool := true
  preconfigure : DirectResult := .ok
  caps : Caps → Caps := id
  provides : Bool := false
  lookup : DirectResult := .ok
  toplevel : ω
  nested : Bool := false
  add : Bool := true
  regionCreate : DirectResult := .ok
  alpha : Bool := false
  configure : Bool → Bool → DirectResult := fun _ _ => .ok
  surfaceCreate : DirectResult := .ok
  setSurface : DirectResult := .ok
  enable : DirectResult := .ok
  primaryRegion : DirectResult := .ok
  surface : DirectResult := .ok
  addWindow : DirectResult := .ok

inductive Surface
  | none
  | provided
  | created
  deriving DecidableEq

structure CoreWindow where
  caps : Caps
  surface : Surface := .none
  region : Bool := false
  primaryRegion : Bool := false

namespace Trace

def unlock (t : Trace ω) : Trace ω := {t with locks := t.locks-1}

/-- `fusion_object_destroy`, and the lock. -/
def destroy (t : Trace ω) : Trace ω := {t with objects := t.objects-1}.unlock

def unrefSurface (t : Trace ω) : Trace ω := {t with surface := t.surface-1}

def unrefRegion (t : Trace ω) : Trace ω :=
  let t := {t with region := t.region-1}
  if t.region = 0 ∧ t.held then {t with held := false}.unrefSurface else t

end Trace

/-- `dfb_wm_preconfigure_window` -/
def preconfigureWindow (a : Answers ω) (caps : Caps) (t : Trace ω) :
    DFBResult × Trace ω × CoreWindow :=
  if a.dataSize ≠ 0 ∧ !a.data then (.noSharedMemory,t,{caps})
  else if a.preconfigure ≠ .ok then (.of a.preconfigure,t,{caps})
  else
    let t := if a.dataSize ≠ 0 then {t with windowData := t.windowData+1} else t
    (.of .ok,if a.provides then {t with wmSurface := t.wmSurface+1} else t,
      {caps := a.caps caps, surface := if a.provides then .provided else .none})

def Answers.configured (a : Answers ω) : DirectResult :=
  if a.configure true a.alpha = .ok then .ok
  else if a.configure false a.alpha = .ok ∨ !a.alpha then a.configure false a.alpha
  else if a.configure true false = .ok then .ok
  else a.configure false false

/-- `dfb_window_create_region` without a surface of the window. -/
def createRegion (a : Answers ω) (t : Trace ω) : DirectResult × Trace ω :=
  if a.regionCreate ≠ .ok then (a.regionCreate,t) else
  let t := {t with region := 1}
  if a.configured ≠ .ok then (a.configured,t.unrefRegion)
  else if a.surfaceCreate ≠ .ok then (a.surfaceCreate,t.unrefRegion) else
  let t := {t with surface := 1}
  if a.setSurface ≠ .ok then (a.setSurface,t.unrefSurface.unrefRegion) else
  let t := {t with surface := t.surface+1, held := true}
  if a.enable ≠ .ok then (a.enable,t.unrefSurface.unrefRegion) else (.ok,t)

/-- The surface of a window that has one, in a region of its own or shown by the primary region. -/
def createSurface (windows : Bool) (a : Answers ω) (window : CoreWindow) (t : Trace ω) :
    DirectResult × Trace ω × CoreWindow :=
  if windows then
    let (ret,t) := createRegion a t
    if ret ≠ .ok then (ret,t,window)
    else
      let t := {t with region := t.region+1}.unrefRegion
      (.ok,{t with surface := t.surface+1}.unrefSurface,
        {window with region := true, surface := .created})
  else if a.primaryRegion ≠ .ok then (a.primaryRegion,t,window)
  else
    let t := {t with primaryRegion := t.primaryRegion+1+1-1}
    let window := {window with primaryRegion := true}
    if window.surface ≠ .none then (.ok,t,window)
    else if a.surface ≠ .ok then
      (a.surface,{t with primaryRegion := t.primaryRegion-1},{window with primaryRegion := false})
    else (.ok,{t with surface := 1+1}.unrefSurface,{window with surface := .created})

def unlinkAll (window : CoreWindow) (t : Trace ω) : Trace ω :=
  let t := match window.surface with
    | .none => t
    | .provided => {t with wmSurface := t.wmSurface-1}
    | .created => t.unrefSurface
  let t := if window.primaryRegion then {t with primaryRegion := t.primaryRegion-1} else t
  if window.region then t.unrefRegion else t

/-- `dfb_wm_add_window` and what follows. -/
def addWindow (a : Answers ω) (window : CoreWindow) (t : Trace ω) : DFBResult × Trace ω :=
  if a.addWindow ≠ .ok then
    (.of a.addWindow,(unlinkAll window {t with windowData := t.windowData-1}).destroy)
  else (.of .ok,{t with num := t.num+1}.unlock)

def Surfaced (windows : Bool) (a : Answers ω) : Prop :=
  if windows then a.regionCreate = .ok ∧ a.configured = .ok ∧ a.surfaceCreate = .ok ∧
    a.setSurface = .ok ∧ a.enable = .ok
  else a.primaryRegion = .ok ∧ (a.provides ∨ a.surface = .ok)

instance (windows : Bool) (a : Answers ω) : Decidable (Surfaced windows a) := by
  unfold Surfaced
  infer_instance

def preconfigured (a : Answers ω) (caps : Caps) : CoreWindow :=
  {caps := a.caps caps, surface := if a.provides then .provided else .none}

def counted (a : Answers ω) (s : Stack ω) : Trace ω :=
  {s with
    locks := s.locks+1
    wmSurface := if a.provides then s.wmSurface+1 else s.wmSurface
    objects := 1
    windowData := if a.dataSize ≠ 0 then 1 else 0}

theorem preconfigureWindow_spec (a : Answers ω) (caps : Caps) (s : Stack ω) :
    let r := preconfigureWindow a caps {s with locks := s.locks+1, objects := 0+1}
    ((a.dataSize ≠ 0 → a.data) ∧ a.preconfigure = .ok) ∧
      r = (.of .ok,counted a s,preconfigured a caps) ∨
    ¬((a.dataSize ≠ 0 → a.data) ∧ a.preconfigure = .ok) ∧
      r.1 ≠ .of .ok ∧ r.2.1 = {s with locks := s.locks+1, objects := 0+1} := by
  unfold preconfigureWindow
  by_cases hd : a.dataSize = 0 <;> cases a.data <;> by_cases hp : a.preconfigure = .ok <;>
    cases hs : a.provides <;> simp [hd,hp,hs,counted,preconfigured]

theorem createRegion_spec {a : Answers ω} {t : Trace ω} (hr : t.region = 0) (hs : t.surface = 0)
    (hh : t.held = false) :
    Surfaced true a ∧ createRegion a t = (.ok,{t with region := 1, surface := 2, held := true}) ∨
      ¬Surfaced true a ∧ ∃ ret, ret ≠ .ok ∧ createRegion a t = (ret,t) := by
  obtain ⟨s,objects,windowData,region,surface,held⟩ := t
  obtain ⟨rfl,rfl,rfl⟩ : region = 0 ∧ surface = 0 ∧ held = false := ⟨hr,hs,hh⟩
  unfold createRegion Surfaced Trace.unrefRegion Trace.unrefSurface
  split_ifs <;> simp_all

/-- What the window manager refuses is unlinked, but for a surface of its own that was replaced. -/
theorem createSurface_spec (windows : Bool) {a : Answers ω} {caps : Caps} {t : Trace ω}
    (hr : t.region = 0) (hs : t.surface = 0) (hh : t.held = false) :
    let r := createSurface windows a (preconfigured a caps) t
    Surfaced windows a ∧ r.1 = .ok ∧
      unlinkAll r.2.2 {r.2.1 with windowData := r.2.1.windowData-1} = {t with
        windowData := t.windowData-1
        wmSurface := if a.provides && !windows then t.wmSurface-1 else t.wmSurface} ∨
      ¬Surfaced windows a ∧ r.1 ≠ .ok ∧ r.2.1 = t := by
  obtain ⟨s,objects,windowData,region,surface,held⟩ := t
  obtain ⟨rfl,rfl,rfl⟩ : region = 0 ∧ surface = 0 ∧ held = false := ⟨hr,hs,hh⟩
  unfold createSurface
  cases windows with
  | true =>
    obtain ⟨hok,heq⟩ | ⟨hno,ret,hret,heq⟩ := createRegion_spec (a := a) hr hs hh
    · simp [hok,heq,unlinkAll,preconfigured,Trace.unrefRegion,Trace.unrefSurface]
    · simp [hno,heq,hret]
  | false =>
    unfold Surfaced preconfigured
    cases a.provides <;> by_cases hr : a.primaryRegion = .ok <;> by_cases hs : a.surface = .ok <;>
      simp [hr,hs,unlinkAll,Trace.unrefSurface]

def complete (windows : Bool) (a : Answers ω) (window : CoreWindow) (t : Trace ω) :
    DFBResult × Trace ω :=
  let (ret,t,window) := if window.caps.hidden then (.ok,t,window)
    else createSurface windows a window t
  if ret ≠ .ok then (.of ret,t.destroy) else addWindow a window t

theorem complete_failed {windows : Bool} {a : Answers ω} {caps : Caps} {t : Trace ω}
    (hr : t.region = 0) (hs : t.surface = 0) (hh : t.held = false)
    (h : (complete windows a (preconfigured a caps) t).1 ≠ .of .ok) :
    (complete windows a (preconfigured a caps) t).2 =
      Trace.destroy (if (a.caps caps).hidden ∨ Surfaced windows a then {t with
        windowData := t.windowData-1
        wmSurface := if a.provides && (!windows || (a.caps caps).hidden) then t.wmSurface-1
          else t.wmSurface}
      else t) := by
  have hadd {window : CoreWindow} {t : Trace ω} (h : (addWindow a window t).1 ≠ .of .ok) :
      (addWindow a window t).2 = (unlinkAll window {t with windowData := t.windowData-1}).destroy := by
    unfold addWindow at *
    split_ifs at * <;> simp_all
  unfold complete at *
  by_cases hhidden : (a.caps caps).hidden
  · rw [if_pos (show (preconfigured a caps).caps.hidden from hhidden)] at *
    dsimp only at h ⊢
    rw [if_neg (not_not_intro rfl)] at *
    rw [hadd h,if_pos (.inl hhidden),hhidden,Bool.or_true,Bool.and_true]
    cases hp : a.provides <;> simp [unlinkAll,preconfigured,hp]
  · rw [if_neg (show ¬(preconfigured a caps).caps.hidden from hhidden)] at *
    rw [show (a.caps caps).hidden = false by simpa using hhidden,Bool.or_false]
    obtain ⟨hok,hret,heq⟩ | ⟨hno,hret,heq⟩ := createSurface_spec windows hr hs hh
    · dsimp only at h ⊢
      rw [if_neg (not_not_intro hret)] at *
      rw [hadd h,heq]
      simp only [hok,or_true,if_true]
    · dsimp only
      rw [if_pos hret,if_neg (by simp [hno]),heq]

variable [DecidableEq ω]

def initSubwindow (a : Answers ω) (w : ω) (t : Trace ω) : DFBResult × Trace ω :=
  if a.lookup ≠ .ok then (.of a.lookup,t)
  else if a.nested then (.of .invArg,t)
  else if a.add then (.of .ok,{t with
    subwindows := Function.update t.subwindows a.toplevel (t.subwindows a.toplevel++[w])})
  else (.noSharedMemory,{t with
    refs := Function.update t.refs a.toplevel (t.refs a.toplevel-1)})

/-- `dfb_window_create` of the window `w`, once it is preconfigured. -/
def createPreconfigured (windows : Bool) (a : Answers ω) (w : ω) (window : CoreWindow) (t : Trace ω) :
    DFBResult × Trace ω :=
  let (ret,t) := if window.caps.subwindow then initSubwindow a w t else (.of .ok,t)
  if ret ≠ .of .ok then (ret,t.destroy) else complete windows a window t

def create (c : Config F C) (d : Description F C) (a : Answers ω) (w : ω) (s : Stack ω) :
    DFBResult × Trace ω :=
  if 4096 < d.width ∨ 4096 < d.height then (.limitExceeded,{s with})
  else if a.lock ≠ .ok then (.of .fusion,{s with}) else
  let t : Trace ω := {s with locks := s.locks+1}
  match c.chosen d with
  | none => (.of .invArg,t.unlock)
  | some f =>
    if d.colorspace.any fun space => !c.compatible space f then (.of .invArg,t.unlock)
    else if !a.object then (.of .fusion,t.unlock) else
    let (ret,t,window) := preconfigureWindow a (c.caps d) {t with objects := t.objects+1}
    if ret ≠ .of .ok then (ret,t.destroy) else createPreconfigured c.windows a w window t

def Preconfigured (c : Config F C) (d : Description F C) (a : Answers ω) : Prop :=
  d.width ≤ 4096 ∧ d.height ≤ 4096 ∧ a.lock = .ok ∧
    (∃ f, c.chosen d = some f ∧ ∀ space ∈ d.colorspace, c.compatible space f) ∧ a.object ∧
    (a.dataSize ≠ 0 → a.data) ∧ a.preconfigure = .ok

def Answers.added (a : Answers ω) : Bool := a.lookup = .ok && !a.nested && a.add

def Undone (c : Config F C) (d : Description F C) (a : Answers ω) : Prop :=
  let caps := a.caps (c.caps d)
  Preconfigured c d a →
    if caps.subwindow && !a.added then a.dataSize = 0 ∧ a.provides = false
    else caps.subwindow = false ∧
      if caps.hidden ∨ Surfaced c.windows a then a.provides → c.windows → caps.hidden
      else a.dataSize = 0 ∧ a.provides = false

/-- All is as before, except for the references of windows. -/
@[mk_iff] structure Restored (s : Stack ω) (t : Trace ω) : Prop where
  locks : t.locks = s.locks
  num : t.num = s.num
  subwindows : t.subwindows = s.subwindows
  primaryRegion : t.primaryRegion = s.primaryRegion
  wmSurface : t.wmSurface = s.wmSurface
  objects : t.objects = 0
  windowData : t.windowData = 0
  region : t.region = 0
  surface : t.surface = 0

/-- A call fails early and leaves nothing, or comes past the preconfiguration. -/
theorem create_cases (c : Config F C) (d : Description F C) (a : Answers ω) (w : ω) (s : Stack ω) :
    ¬Preconfigured c d a ∧ Restored s (create c d a w s).2 ∨
    Preconfigured c d a ∧ create c d a w s =
      createPreconfigured c.windows a w (preconfigured a (c.caps d)) (counted a s) := by
  have hrestored : Restored s {s with} := ⟨rfl,rfl,rfl,rfl,rfl,rfl,rfl,rfl,rfl⟩
  unfold Preconfigured create
  by_cases hsize : 4096 < d.width ∨ 4096 < d.height
  · rw [if_pos hsize]
    exact .inl ⟨by omega,hrestored⟩
  rw [if_neg hsize]
  by_cases hlock : a.lock = .ok
  swap
  · rw [if_pos hlock]
    exact .inl ⟨by tauto,hrestored⟩
  rw [if_neg (not_not_intro hlock)]
  cases hf : c.chosen d with
  | none => exact .inl ⟨by simp,hrestored⟩
  | some f =>
    dsimp only
    by_cases hspace : d.colorspace.any fun space => !c.compatible space f
    · rw [if_pos hspace]
      refine .inl ⟨fun ⟨_,_,_,⟨g,hg,hall⟩,_⟩ => ?_,hrestored⟩
      obtain rfl := Option.some.inj hg
      cases hc : d.colorspace with
      | none => simp [hc] at hspace
      | some space => simp [hc,hall space hc] at hspace
    rw [if_neg hspace]
    have hformat : ∃ g, some f = some g ∧ ∀ space ∈ d.colorspace, c.compatible space g :=
      ⟨f,rfl,fun space hs => by simpa [Option.mem_def.mp hs] using hspace⟩
    by_cases hobject : a.object
    swap
    · rw [if_pos (by simpa using hobject)]
      exact .inl ⟨fun h => hobject h.2.2.2.2.1,hrestored⟩
    rw [if_neg (by simpa using hobject)]
    obtain ⟨hpre,heq⟩ | ⟨hno,hret,heq⟩ := preconfigureWindow_spec a (c.caps d) s
    · rw [heq]
      exact .inr ⟨⟨by omega,by omega,hlock,hformat,hobject,hpre⟩,if_neg (by simp)⟩
    · rw [if_pos hret,heq]
      exact .inl ⟨fun h => hno h.2.2.2.2.2,hrestored⟩

/-- A window whose creation fails leaves nothing just when the failure is one that is undone. -/
theorem create_restored_iff (c : Config F C) (d : Description F C) (a : Answers ω) (w : ω)
    (s : Stack ω) (h : (create c d a w s).1 ≠ .of .ok) :
    Restored s (create c d a w s).2 ↔ Undone c d a := by
  unfold Undone
  obtain ⟨hno,hrestored⟩ | ⟨hpre,heq⟩ := create_cases c d a w s
  · exact iff_of_true hrestored fun hp => absurd hp hno
  rw [heq] at h ⊢
  simp only [hpre,true_imp_iff]
  cases hsub : (a.caps (c.caps d)).subwindow with
  | false =>
    have hold : createPreconfigured c.windows a w (preconfigured a (c.caps d)) (counted a s) =
        complete c.windows a (preconfigured a (c.caps d)) (counted a s) := by
      simp [createPreconfigured,preconfigured,hsub]
    rw [hold] at h ⊢
    rw [complete_failed rfl rfl rfl h]
    by_cases hs : (a.caps (c.caps d)).hidden ∨ Surfaced c.windows a
    · rw [if_pos hs,if_pos hs]
      cases hp : a.provides <;> cases c.windows <;> cases (a.caps (c.caps d)).hidden <;>
        by_cases hd : a.dataSize = 0 <;>
          simp [restored_iff,Trace.destroy,Trace.unlock,counted,hp,hd]
    · rw [if_neg hs,if_neg hs]
      by_cases hd : a.dataSize = 0 <;> cases hp : a.provides <;>
        simp [restored_iff,Trace.destroy,Trace.unlock,counted,hd,hp]
  | true =>
    have hinit : createPreconfigured c.windows a w (preconfigured a (c.caps d)) (counted a s) =
        let r := initSubwindow a w (counted a s)
        if r.1 ≠ .of .ok then (r.1,r.2.destroy)
        else complete c.windows a (preconfigured a (c.caps d)) r.2 := by
      simp [createPreconfigured,preconfigured,hsub]
    rw [hinit] at h ⊢
    have hleft : Restored s (counted a s).destroy ↔ a.dataSize = 0 ∧ a.provides = false := by
      by_cases hd : a.dataSize = 0 <;> cases hp : a.provides <;>
        simp [restored_iff,Trace.destroy,Trace.unlock,counted,hd,hp]
    unfold initSubwindow Answers.added at *
    by_cases hl : a.lookup = .ok
    swap
    · simpa [hl] using hleft
    cases hn : a.nested with
    | true => simpa [hl] using hleft
    | false =>
    cases hadd : a.add with
    | false => simpa [hl,restored_iff,Trace.destroy,Trace.unlock] using hleft
    | true =>
      refine iff_of_false (fun hr => ?_) (by simp [hl])
      have hsame := congrFun hr.subwindows a.toplevel
      simp only [hl,hn,hadd,Bool.false_eq_true,if_true,ne_eq,not_true_eq_false,if_false] at h hsame
      rw [complete_failed rfl rfl rfl h] at hsame
      split_ifs at hsame <;> simp [Trace.destroy,Trace.unlock,counted] at hsame

theorem destroyed_listed : ¬∀ (c : Config Unit Unit) (d : Description Unit Unit) (a : Answers ℕ)
    (w : ℕ) (s : Stack ℕ), (create c d a w s).1 ≠ .of .ok → Restored s (create c d a w s).2 := by
  intro h
  have := (h ⟨true,false,none,fun _ => true,fun _ _ => true,(),()⟩ ⟨64,64,{},none,none,1⟩
    {toplevel := 1, addWindow := .itemNotFound} 2 ⟨0,1,fun _ => [],fun _ => 1,1,0⟩
    (by decide)).subwindows
  exact absurd (congrFun this 1) (by decide)

theorem lookup_restored : Restored (⟨0,1,fun _ => [],fun _ => 1,1,0⟩ : Stack ℕ)
    (create (F := Unit) (C := Unit) ⟨true,false,none,fun _ => true,fun _ _ => true,(),()⟩
      ⟨64,64,{},none,none,1⟩ {toplevel := 1, lookup := .itemNotFound} 2
      ⟨0,1,fun _ => [],fun _ => 1,1,0⟩).2 :=
  (create_restored_iff _ _ _ _ _ (by decide)).mpr fun _ => by decide

end DirectFB.WindowCreate
