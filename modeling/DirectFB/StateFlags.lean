import DirectFB.StateAcquire

/-! The flags of a state against what they stand for: each change of a field sets its flag, and a
function stays checked only while nothing changed that its answer depends on. -/
namespace DirectFB.StateFresh

open CardState StateAcquire

def depends (accel : Accel) : Finset Modification :=
  {.destination,.srcBlend,.dstBlend,.renderOptions} ∪
    if accel.blitting then {.source,.blittingFlags,.sourceMask,.sourceMaskVals} ∪
      (if accel = .blit2 then {.source2} else ∅)
    else {.drawingFlags}

section Fields

variable {S : Type*} [DecidableEq S]

def sources (s : CardState S) (accel : Accel) : Finset Modification :=
  if accel.blitting then
    {.source} ∪ (if s.masked then {.sourceMask} else ∅) ∪ (if accel = .blit2 then {.source2} else ∅)
  else ∅

def used (s : CardState S) (accel : Accel) : Finset Modification :=
  insert .destination (sources s accel)

/-- The field under a flag has another value. The buffers of a surface belong to it. -/
def Differs (s s' : CardState S) : Modification → Prop
  | .drawingFlags => s.drawingflags ≠ s'.drawingflags
  | .blittingFlags => s.blittingflags ≠ s'.blittingflags
  | .clip => s.clip ≠ s'.clip
  | .color => s.colorIndex ≠ s'.colorIndex
  | .srcBlend => s.srcBlend ≠ s'.srcBlend
  | .dstBlend => s.dstBlend ≠ s'.dstBlend
  | .srcColorkey => s.srcColorkey ≠ s'.srcColorkey
  | .dstColorkey => s.dstColorkey ≠ s'.dstColorkey
  | .destination => s.destination ≠ s'.destination ∨ s.toRole ≠ s'.toRole ∨ s.toEye ≠ s'.toEye
  | .source => s.source ≠ s'.source ∨ s.fromRole ≠ s'.fromRole ∨ s.fromEye ≠ s'.fromEye ∨
      s.sourceFlipCount ≠ s'.sourceFlipCount ∨ s.sourceFlipCountUsed ≠ s'.sourceFlipCountUsed
  | .sourceMask => s.sourceMask ≠ s'.sourceMask ∨ s.fromRole ≠ s'.fromRole ∨
      s.fromEye ≠ s'.fromEye
  | .sourceMaskVals => s.srcMaskOffset ≠ s'.srcMaskOffset ∨ s.srcMaskFlags ≠ s'.srcMaskFlags
  | .writeMaskBits => s.writeMaskBits ≠ s'.writeMaskBits
  | .renderOptions => s.renderOptions ≠ s'.renderOptions
  | .source2 => s.source2 ≠ s'.source2 ∨ s.fromRole ≠ s'.fromRole ∨ s.fromEye ≠ s'.fromEye
  | .ropCode => s.ropCode ≠ s'.ropCode
  | .fromBuffer => s.fromRole ≠ s'.fromRole ∨ s.fromEye ≠ s'.fromEye
  | .toBuffer => s.toRole ≠ s'.toRole ∨ s.toEye ≠ s'.toEye

instance (s s' : CardState S) : DecidablePred (Differs s s') := fun x => by
  cases x <;> dsimp only [Differs] <;> infer_instance

def changes (s s' : CardState S) : Finset Modification := Modification.all.filter (Differs s s')

def surfaceOf (s : CardState S) : Modification → Option S
  | .destination => s.destination
  | .source => s.source
  | .sourceMask => s.sourceMask
  | .source2 => s.source2
  | _ => none

def holding (s : CardState S) (u : S) : Finset Modification :=
  Modification.all.filter fun x => surfaceOf s x = some u

/-- A call of one of the setters. -/
inductive Setter (S : Type*)
  | drawingFlags (flags : UInt32)
  | blittingFlags (flags : UInt32)
  | colorIndex (index : UInt32)
  | srcBlend (blend : UInt32)
  | dstBlend (blend : UInt32)
  | srcColorkey (key : UInt32)
  | dstColorkey (key : UInt32)
  | renderOptions (opts : UInt32)
  | writeMaskBits (bits : UInt64)
  | ropCode (code : UInt32)
  | clip (region : Region)
  | sourceMaskVals (offset : ℤ × ℤ) (flags : UInt32)
  | fromBuffer (role : BufferRole) (eye : StereoEye)
  | toBuffer (role : BufferRole) (eye : StereoEye)
  | destination (destination : Option S) (ref : Bool)
  | source (source : Option S) (ref : Bool)
  | sourceFlip (source : Option S) (flipCount : UInt32) (ref : Bool)
  | source2 (source2 : Option S) (ref : Bool)
  | sourceMask (sourceMask : Option S) (ref : Bool)

def Setter.apply (surfaces : S → CoreSurface) (s : CardState S) : Setter S → CardState S
  | .drawingFlags flags => s.setDrawingFlags flags
  | .blittingFlags flags => s.setBlittingFlags flags
  | .colorIndex index => s.setColorIndex index
  | .srcBlend blend => s.setSrcBlend blend
  | .dstBlend blend => s.setDstBlend blend
  | .srcColorkey key => s.setSrcColorkey key
  | .dstColorkey key => s.setDstColorkey key
  | .renderOptions opts => s.setRenderOptions opts
  | .writeMaskBits bits => s.setWriteMaskBits bits
  | .ropCode code => s.setRopCode code
  | .clip region => s.setClip region
  | .sourceMaskVals offset flags => s.setSourceMaskVals offset flags
  | .fromBuffer role eye => s.setFrom role eye
  | .toBuffer role eye => s.setTo role eye
  | .destination u ref => s.setDestination surfaces u ref
  | .source u ref => s.setSource surfaces u ref
  | .sourceFlip u flipCount ref => s.setSourceFlip surfaces u flipCount ref
  | .source2 u ref => s.setSource2 surfaces u ref
  | .sourceMask u ref => s.setSourceMask surfaces u ref

end Fields

/-- The fields that were changed, and those whose surface was reconfigured, since something. -/
structure Since where
  changed : Finset Modification
  reconfigured : Finset Modification

def Since.change (w : Since) (x : Finset Modification) : Since := {w with changed := w.changed ∪ x}

@[simp] theorem Since.change_empty (w : Since) : w.change ∅ = w := by
  simp [Since.change]

def Since.reconfigure (w : Since) (x : Finset Modification) : Since :=
  {w with reconfigured := w.reconfigured ∪ x}

def Rechecks {S : Type*} (surfaces : S → CoreSurface) (s : CardState S) (accel : Accel) : Prop :=
  ∀ x ∈ used s accel, outdated surfaces s x = true → ∀ g ∈ s.checked, g ∈ s.accel → x ∉ depends g

section Flagged

variable {S : Type*} {surfaces : S → CoreSurface} {s s' s'' : CardState S}

def serialOf (s : CardState S) : Modification → ℕ
  | .destination => s.dstSerial
  | .source => s.srcSerial
  | .sourceMask => s.srcMaskSerial
  | .source2 => s.src2Serial
  | _ => 0

theorem outdated_eq (s : CardState S) (x : Modification) :
    outdated surfaces s x = behind surfaces (serialOf s x) (surfaceOf s x) := by
  cases x <;> rfl

variable {x flag : Modification}

@[simp] theorem mem_changes [DecidableEq S] : x ∈ changes s s' ↔ Differs s s' x := by
  simp [changes]

@[simp] theorem mem_holding [DecidableEq S] {u : S} : x ∈ holding s u ↔ surfaceOf s x = some u := by
  simp [holding]

theorem Differs.or (h : Differs s s'' x) (s' : CardState S) :
    Differs s s' x ∨ Differs s' s'' x := by
  by_contra hn
  rw [not_or] at hn
  cases x <;> simp_all [Differs]

theorem masked_eq (h : ¬ Differs s s' .blittingFlags) : s'.masked = s.masked := by
  have hflags : s.blittingflags = s'.blittingflags := not_not.mp h
  rw [masked,masked,hflags]

theorem used_eq (h : ¬ Differs s s' .blittingFlags) (accel : Accel) :
    used s' accel = used s accel := by
  rw [used,used,sources,sources,masked_eq h]

def Synced (surfaces : S → CoreSurface) (s : CardState S) : Prop :=
  ∀ x, ∀ u ∈ surfaceOf s x, serialOf s x ≤ (surfaces u).serial

/-- The state went on to another one in which the flag of every field is set that changed. -/
structure Flagged (surfaces : S → CoreSurface) (s s' : CardState S) : Prop where
  checked : ∀ g ∈ s'.checked, g ∈ s'.accel → g ∈ s.checked ∧ g ∈ s.accel
  modified : s.modified ⊆ s'.modified
  changes : ∀ x, Differs s s' x → x ∈ s'.modified
  modHw : s'.modHw = s.modHw
  surface : ∀ x, x ∈ s'.modified ∨ surfaceOf s' x = surfaceOf s x ∧ serialOf s' x = serialOf s x
  synced : Synced surfaces s → Synced surfaces s'

theorem Flagged.refl (s : CardState S) : Flagged surfaces s s :=
  ⟨fun _ hc ha => ⟨hc,ha⟩,subset_rfl,fun x hx => by cases x <;> simp [Differs] at hx,rfl,
    fun _ => .inr ⟨rfl,rfl⟩,id⟩

theorem Flagged.trans (h : Flagged surfaces s s') (h' : Flagged surfaces s' s'') :
    Flagged surfaces s s'' := by
  refine ⟨fun g hc ha => ?_,h.modified.trans h'.modified,fun x hx => ?_,h'.modHw.trans h.modHw,
    fun x => ?_,fun hs => h'.synced (h.synced hs)⟩
  · obtain ⟨hc,ha⟩ := h'.checked g hc ha
    exact h.checked g hc ha
  · exact (hx.or s').elim (fun hx => h'.modified (h.changes x hx)) (h'.changes x)
  · rcases h'.surface x with hx | ⟨hu,hn⟩
    · exact .inl hx
    · rcases h.surface x with hx | ⟨hu',hn'⟩
      · exact .inl (h'.modified hx)
      · exact .inr ⟨hu.trans hu',hn.trans hn'⟩

theorem Flagged.outdated_eq (h : Flagged surfaces s s') (x : Modification) :
    x ∈ s'.modified ∨ outdated surfaces s' x = outdated surfaces s x := by
  refine (h.surface x).imp_right fun hx => ?_
  rw [StateFresh.outdated_eq,StateFresh.outdated_eq,hx.1,hx.2]

theorem differs_modify (flag : Modification) : Differs s (s'.modify flag) x ↔ Differs s s' x := by
  cases x <;> rfl

/-- A change of the field under one flag, which is set. -/
theorem Flagged.of_modify (hchecked : s'.checked = s.checked)
    (haccel : s'.accel = s.accel) (hhw : s'.modHw = s.modHw) (hmod : s'.modified = s.modified)
    (hd : ∀ x, Differs s s' x → x = flag)
    (hsurface : ∀ x, x ≠ flag → surfaceOf s' x = surfaceOf s x ∧ serialOf s' x = serialOf s x)
    (hserial : ∀ u ∈ surfaceOf s' flag, Synced surfaces s → serialOf s' flag ≤ (surfaces u).serial) :
    Flagged surfaces s (s'.modify flag) := by
  have hmem (x : Modification) : x ∈ (s'.modify flag).modified ↔ x = flag ∨ x ∈ s.modified := by
    simp [CardState.modify,hmod]
  have hof (x : Modification) : surfaceOf (s'.modify flag) x = surfaceOf s' x := by
    cases x <;> rfl
  have hnum (x : Modification) : serialOf (s'.modify flag) x = serialOf s' x := by
    cases x <;> rfl
  refine ⟨fun g hc ha => ⟨hchecked ▸ hc,haccel ▸ ha⟩,fun x hx => (hmem x).mpr (.inr hx),
    fun x hx => (hmem x).mpr (.inl (hd x ((differs_modify flag).mp hx))),hhw,fun x => ?_,
    fun hs x u hu => ?_⟩
  · by_cases hx : x = flag
    · exact .inl ((hmem x).mpr (.inl hx))
    · rw [hof,hnum]
      exact .inr (hsurface x hx)
  · rw [hof] at hu
    rw [hnum]
    by_cases hx : x = flag
    · subst hx
      exact hserial u hu hs
    · rw [(hsurface x hx).2]
      rw [(hsurface x hx).1] at hu
      exact hs x u hu

theorem setChecked_flagged {β : Type*} [DecidableEq β] {member : CardState S → β}
    {put : CardState S → β → CardState S} (value : β)
    (h : Flagged surfaces s ((put s value).modify flag)) :
    Flagged surfaces s (s.setChecked member put flag value) := by
  rw [setChecked]
  split_ifs
  · exact h
  · exact .refl s

structure Clipped (surfaces : S → CoreSurface) (s s' : CardState S) : Prop
    extends Flagged surfaces s s' where
  only : ∀ x, Differs s s' x → x = .clip

theorem Clipped.refl (s : CardState S) : Clipped surfaces s s :=
  ⟨.refl s,fun x hx => by cases x <;> simp [Differs] at hx⟩

theorem Clipped.trans (h : Clipped surfaces s s') (h' : Clipped surfaces s' s'') :
    Clipped surfaces s s'' :=
  ⟨h.toFlagged.trans h'.toFlagged,fun x hx => (hx.or s').elim (h.only x) (h'.only x)⟩

theorem Clipped.setClip (s : CardState S) (clip : Region) :
    Clipped surfaces s ({s with clip := clip}.modify .clip) := by
  have hd (x : Modification) (hx : Differs s {s with clip := clip} x) : x = .clip := by
    cases x <;> simp_all [Differs]
  exact ⟨.of_modify rfl rfl rfl rfl hd (fun x _ => ⟨rfl,rfl⟩) (fun u hu => by simp [surfaceOf] at hu),
    fun x hx => hd x ((differs_modify _).mp hx)⟩

theorem validateClip_clipped (s : CardState S) (xmax ymax : ℤ) :
    Clipped surfaces s (s.validateClip xmax ymax) := by
  rw [validateClip]
  split_ifs
  · exact .refl s
  · exact .setClip s _

theorem clipTo_clipped (s : CardState S) (surface : Option S) :
    Clipped surfaces s (s.clipTo surfaces surface) := by
  cases surface with
  | none => exact .refl s
  | some u => exact validateClip_clipped s _ _

theorem copySerial_le {serial : ℕ} {surface : Option S} {u : S} (hu : u ∈ surface) :
    copySerial surfaces serial surface ≤ (surfaces u).serial := by
  obtain rfl : surface = some u := hu
  exact le_rfl

theorem surface_flagged (hchecked : s'.checked = s.checked)
    (haccel : s'.accel = s.accel) (hhw : s'.modHw = s.modHw) (hmod : s'.modified = s.modified)
    (hd : ∀ x, Differs s s' x → x = flag)
    (hsurface : ∀ x, x ≠ flag → surfaceOf s' x = surfaceOf s x ∧ serialOf s' x = serialOf s x)
    {serial : ℕ} (hserial : serialOf s' flag = copySerial surfaces serial (surfaceOf s' flag)) :
    Flagged surfaces s (s'.modify flag) :=
  .of_modify hchecked haccel hhw hmod hd hsurface fun _ hu _ => hserial.trans_le (copySerial_le hu)

theorem setSurface_flagged {other : Bool} {surface : Option S} {ref : Bool}
    (h : Flagged surfaces s (s'.modify flag)) :
    Flagged surfaces s (s.setSurface other surface ref s' flag) := by
  rw [setSurface]
  split_ifs
  · exact .refl s
  · exact h
  · exact .refl s

theorem setFrom_flagged (s : CardState S) (role : BufferRole) (eye : StereoEye) :
    Flagged surfaces s (s.setFrom role eye) := by
  rw [setFrom]
  split_ifs
  · refine ⟨fun g hc ha => ⟨hc,ha⟩,Finset.subset_union_left,fun x hx => ?_,rfl,fun x => .inr ?_,
      fun hs x => ?_⟩
    · cases x <;> simp_all [Differs]
    · cases x <;> exact ⟨rfl,rfl⟩
    · exact hs x
  · exact .refl s

theorem setTo_flagged (s : CardState S) (role : BufferRole) (eye : StereoEye) :
    Flagged surfaces s (s.setTo role eye) := by
  rw [setTo]
  split_ifs
  · refine ⟨fun g hc ha => ⟨hc,ha⟩,Finset.subset_union_left,fun x hx => ?_,rfl,fun x => .inr ?_,
      fun hs x => ?_⟩
    · cases x <;> simp_all [Differs]
    · cases x <;> exact ⟨rfl,rfl⟩
    · exact hs x
  · exact .refl s

theorem plain_flagged (hchecked : s'.checked = s.checked)
    (haccel : s'.accel = s.accel) (hhw : s'.modHw = s.modHw) (hmod : s'.modified = s.modified)
    (hsurface : surfaceOf s' = surfaceOf s) (hserial : serialOf s' = serialOf s)
    (hd : ∀ x, Differs s s' x → x = flag) : Flagged surfaces s (s'.modify flag) :=
  .of_modify hchecked haccel hhw hmod hd (fun x _ => ⟨congrFun hsurface x,congrFun hserial x⟩)
    (fun u hu hs => by
      rw [hsurface] at hu
      rw [hserial]
      exact hs flag u hu)

theorem setSourceMaskVals_flagged (s : CardState S) (offset : ℤ × ℤ) (flags : UInt32) :
    Flagged surfaces s (s.setSourceMaskVals offset flags) := by
  rw [setSourceMaskVals]
  split_ifs
  · exact plain_flagged rfl rfl rfl rfl rfl rfl fun x hx => by cases x <;> simp_all [Differs]
  · exact .refl s

theorem Setter.apply_flagged [DecidableEq S] (setter : Setter S) (s : CardState S) :
    Flagged surfaces s (setter.apply surfaces s) := by
  cases setter with
  | sourceMaskVals offset flags => exact setSourceMaskVals_flagged s offset flags
  | fromBuffer role eye => exact setFrom_flagged s role eye
  | toBuffer role eye => exact setTo_flagged s role eye
  | destination u ref =>
    refine setSurface_flagged ((clipTo_clipped s u).toFlagged.trans ?_)
    refine surface_flagged rfl rfl rfl rfl (fun x hx => ?_) (fun x hx => ?_) rfl
    · cases x <;> simp_all [Differs]
    · cases x <;> simp_all [surfaceOf,serialOf]
  | source u ref | sourceFlip u flipCount ref | source2 u ref | sourceMask u ref =>
    refine setSurface_flagged ?_
    refine surface_flagged rfl rfl rfl rfl (fun x hx => ?_) (fun x hx => ?_) rfl
    · cases x <;> simp_all [Differs]
    · cases x <;> simp_all [surfaceOf,serialOf]
  | _ =>
    simp only [Setter.apply,setDrawingFlags,setBlittingFlags,setColorIndex,setSrcBlend,setDstBlend,
      setSrcColorkey,setDstColorkey,setRenderOptions,setWriteMaskBits,setRopCode,setClip]
    refine setChecked_flagged _ ?_
    refine plain_flagged rfl rfl rfl rfl rfl rfl fun x hx => ?_
    cases x <;> simp_all [Differs]

end Flagged

section Checks

variable {S : Type*} {surfaces : S → CoreSurface} {s s' s'' : CardState S}
  {answered : Accel → Since} {set : Since} {accel : Accel} {a : Answers}

theorem clipLow_clipped (s : CardState S) : Clipped surfaces s (clipLow s) := by
  simp only [clipLow]
  split_ifs
  · exact (Clipped.setClip s _).trans (.setClip _ _)
  · exact .setClip s _
  · exact .setClip s _
  · exact .refl s

theorem clipHigh_clipped (s : CardState S) (cx2 cy2 : ℤ) :
    Clipped surfaces s (clipHigh s cx2 cy2) := by
  simp only [clipHigh]
  split_ifs
  · exact (Clipped.setClip s _).trans (.setClip _ _)
  · exact .setClip s _
  · exact .setClip s _
  · exact .refl s

theorem enter_clipped (d : Device) (s : CardState S) (accel : Accel) (a : Answers) :
    Clipped surfaces s (enter d surfaces s accel a).2 := by
  rw [enter]
  split
  · exact .refl s
  · dsimp only
    split
    · exact clipLow_clipped s
    · split_ifs
      · exact clipLow_clipped s
      · exact clipLow_clipped s
      · exact (clipLow_clipped s).trans (clipHigh_clipped _ _ _)

@[simp] theorem behind_copySerial (serial : ℕ) (u : Option S) :
    behind surfaces (copySerial surfaces serial u) u = false := by
  cases u <;> simp [behind,copySerial]

theorem updateDestination_clipped (s : CardState S) :
    Clipped surfaces s (s.updateDestination surfaces) := by
  rw [updateDestination]
  split_ifs
  · have hd (t : CardState S) (n : ℕ) (x : Modification) : ¬ Differs t {t with dstSerial := n} x := by
      cases x <;> simp [Differs]
    refine (clipTo_clipped s s.destination).trans ⟨?_,fun x hx => ?_⟩
    · refine surface_flagged rfl rfl rfl rfl (fun x hx => (hd _ _ x hx).elim) (fun x hx => ?_)
        (by simp [serialOf,surfaceOf]; rfl)
      cases x <;> simp_all [surfaceOf,serialOf]
    · exact (hd _ _ x ((differs_modify _).mp hx)).elim
  · exact .refl s

theorem updateDestination_outdated (s : CardState S) :
    outdated surfaces (s.updateDestination surfaces) .destination = false := by
  rw [updateDestination]
  split_ifs with h
  · simp [outdated,CardState.modify]
  · simpa [outdated] using h

theorem forall_depends {g : Accel} {P : Modification → Prop} : (∀ x ∈ depends g, P x) ↔
      (P .destination ∧ P .srcBlend ∧ P .dstBlend ∧ P .renderOptions) ∧
      (g.blitting → P .source ∧ P .blittingFlags ∧ P .sourceMask ∧ P .sourceMaskVals) ∧
      (g = .blit2 → P .source2) ∧ (¬ g.blitting → P .drawingFlags) := by
  cases g <;> simp [depends,Accel.blitting,Accel.allBlit] <;> tauto

theorem mem_allDraw {g : Accel} : g ∈ Accel.allDraw ↔ ¬ g.blitting := by
  cases g <;> decide

theorem mem_allBlit {g : Accel} : g ∈ Accel.allBlit ↔ g.blitting := by
  cases g <;> decide

theorem mem_keepBlits {A B : Prop} [Decidable A] [Decidable B] {checked : Finset Accel} {g : Accel} :
    g ∈ (if A then checked \ Accel.allBlit else if B then checked.erase .blit2 else checked) ↔
      g ∈ checked ∧ (g.blitting → ¬ A) ∧ (g = .blit2 → ¬ B) := by
  have hblit2 : g = .blit2 → g.blitting := fun h => by rw [h]; rfl
  split_ifs with hA hB
  · rw [Finset.mem_sdiff,mem_allBlit]
    tauto
  · rw [Finset.mem_erase]
    tauto
  · tauto

/-- Functions stay checked if none of the fields that they depend on was modified. -/
theorem mem_invalidate {modified : Finset Modification} {checked : Finset Accel} {g : Accel} :
    g ∈ invalidate modified checked ↔ g ∈ checked ∧ ∀ x ∈ depends g, x ∉ modified := by
  rw [forall_depends,invalidate]
  by_cases hall : .destination ∈ modified ∨ .srcBlend ∈ modified ∨ .dstBlend ∈ modified ∨
      .renderOptions ∈ modified
  · rw [if_pos hall]
    refine ⟨fun h => absurd h (Finset.notMem_empty _),fun h => ?_⟩
    obtain ⟨-,⟨h1,h2,h3,h4⟩,-⟩ := h
    simp only [h1,h2,h3,h4,or_self] at hall
  · rw [if_neg hall]
    simp only [not_or] at hall
    have hdraw (c : Finset Accel) :
        g ∈ (if .drawingFlags ∈ modified then c \ Accel.allDraw else c) ↔
          g ∈ c ∧ (¬ g.blitting → .drawingFlags ∉ modified) := by
      split_ifs with hd
      · rw [Finset.mem_sdiff,mem_allDraw]
        simp [hd]
      · simp [hd]
    rw [hdraw,mem_keepBlits]
    simp only [not_or,hall,not_false_eq_true,and_self,true_and,and_assoc]

/-- What is known of a state between calls. Of the functions that would be taken as accelerated, no
change that matters goes unnoticed, and no change is kept from the driver. -/
structure Inv (surfaces : S → CoreSurface) (s : CardState S) (answered : Accel → Since)
    (set : Since) : Prop where
  synced : Synced surfaces s
  changed : ∀ g ∈ s.checked, g ∈ s.accel → ∀ x ∈ depends g, x ∈ (answered g).changed →
    x ∈ s.modified
  reconfigured : ∀ g ∈ s.checked, g ∈ s.accel → ∀ x ∈ depends g, x ∈ (answered g).reconfigured →
    x ∈ s.modified ∨ outdated surfaces s x = true
  pending : ∀ x ∈ set.changed, x ∈ s.modified ∨ x ∈ s.modHw
  pendingSurface : ∀ x ∈ set.reconfigured,
    x ∈ s.modified ∨ x ∈ s.modHw ∨ outdated surfaces s x = true

theorem Flagged.outdated_of (h : Flagged surfaces s s') {x : Modification}
    (hx : x ∈ s.modified ∨ outdated surfaces s x = true) :
    x ∈ s'.modified ∨ outdated surfaces s' x = true := by
  refine hx.elim (fun hx => .inl (h.modified hx)) fun hx => ?_
  exact (h.outdated_eq x).imp_right fun ho => ho.trans hx

/-- The invariant goes on with changes that are flagged. -/
theorem Inv.flagged (h : Inv surfaces s answered set) (hf : Flagged surfaces s s')
    {x : Finset Modification} (hx : x ⊆ s'.modified) :
    Inv surfaces s' (fun g => (answered g).change x) (set.change x) := by
  refine ⟨hf.synced h.synced,fun g hc ha y hy hm => ?_,fun g hc ha y hy hm => ?_,fun y hy => ?_,
    fun y hy => ?_⟩
  · obtain ⟨hc,ha⟩ := hf.checked g hc ha
    exact (Finset.mem_union.mp hm).elim (fun hm => hf.modified (h.changed g hc ha y hy hm))
      (fun hm => hx hm)
  · obtain ⟨hc,ha⟩ := hf.checked g hc ha
    exact hf.outdated_of (h.reconfigured g hc ha y hy hm)
  · rw [hf.modHw]
    refine (Finset.mem_union.mp hy).elim (fun hy => ?_) (fun hy => .inl (hx hy))
    exact (h.pending y hy).imp_left fun hm => hf.modified hm
  · rw [hf.modHw]
    rcases h.pendingSurface y hy with hm | hm | hm
    · exact .inl (hf.modified hm)
    · exact .inr (.inl hm)
    · exact (hf.outdated_of (.inr hm)).imp_right .inr

/-- No function is checked that depends on something that changed, except for a source that is found
to be behind when it is used. -/
structure Checked (surfaces : S → CoreSurface) (s : CardState S) (answered : Accel → Since) :
    Prop where
  changed : ∀ g ∈ s.checked, g ∈ s.accel → ∀ x ∈ depends g, x ∉ (answered g).changed
  reconfigured : ∀ g ∈ s.checked, g ∈ s.accel → ∀ x ∈ depends g, x ∈ (answered g).reconfigured →
    outdated surfaces s x = true

theorem Inv.invalidate (h : Inv surfaces s answered set) :
    Checked surfaces {s with checked := invalidate s.modified s.checked} answered := by
  refine ⟨fun g hc ha x hx hm => ?_,fun g hc ha x hx hm => ?_⟩
  · obtain ⟨hc,hfree⟩ := mem_invalidate.mp hc
    exact hfree x hx (h.changed g hc ha x hx hm)
  · obtain ⟨hc,hfree⟩ := mem_invalidate.mp hc
    exact (h.reconfigured g hc ha x hx hm).resolve_left (hfree x hx)

structure Updated (surfaces : S → CoreSurface) (s s' : CardState S) : Prop
    extends Flagged surfaces s s' where
  same : ∀ x, ¬ Differs s s' x
  checkedEq : s'.checked = s.checked
  accelEq : s'.accel = s.accel

theorem Updated.refl (s : CardState S) : Updated surfaces s s :=
  ⟨.refl s,fun x hx => by cases x <;> simp [Differs] at hx,rfl,rfl⟩

theorem Updated.trans (h : Updated surfaces s s') (h' : Updated surfaces s' s'') :
    Updated surfaces s s'' :=
  ⟨h.toFlagged.trans h'.toFlagged,fun x hx => (hx.or s').elim (h.same x) (h'.same x),
    h'.checkedEq.trans h.checkedEq,h'.accelEq.trans h.accelEq⟩

structure UpdatedOn (surfaces : S → CoreSurface) (s s' : CardState S) (f : Finset Modification) :
    Prop extends Updated surfaces s s' where
  current : ∀ x ∈ f, outdated surfaces s' x = false
  others : ∀ x ∉ f, outdated surfaces s' x = outdated surfaces s x

theorem UpdatedOn.refl (s : CardState S) : UpdatedOn surfaces s s ∅ :=
  ⟨.refl s,by simp,fun _ _ => rfl⟩

theorem UpdatedOn.trans {f f' : Finset Modification} (h : UpdatedOn surfaces s s' f)
    (h' : UpdatedOn surfaces s' s'' f') : UpdatedOn surfaces s s'' (f ∪ f') := by
  refine ⟨h.toUpdated.trans h'.toUpdated,fun x hx => ?_,fun x hx => ?_⟩
  · by_cases hx' : x ∈ f'
    · exact h'.current x hx'
    · rw [h'.others x hx']
      exact h.current x ((Finset.mem_union.mp hx).resolve_right hx')
  · rw [Finset.mem_union,not_or] at hx
    rw [h'.others x hx.2,h.others x hx.1]

/-- An outdated serial is copied, which its flag tells. -/
theorem updated_serial (flag : Modification) (hchecked : s'.checked = s.checked) (haccel : s'.accel = s.accel)
    (hhw : s'.modHw = s.modHw) (hmod : s'.modified = s.modified) (hd : ∀ x, ¬ Differs s s' x)
    (hsurface : ∀ x, surfaceOf s' x = surfaceOf s x)
    (hserial : ∀ x, serialOf s' x = if x = flag then
      copySerial surfaces (serialOf s flag) (surfaceOf s flag) else serialOf s x) :
    UpdatedOn surfaces s (if outdated surfaces s flag then s'.modify flag else s) {flag} := by
  have hout (x : Modification) : outdated surfaces (s'.modify flag) x =
      behind surfaces (serialOf s' x) (surfaceOf s' x) := outdated_eq s' x
  split_ifs with hb
  · refine ⟨⟨?_,fun x hx => hd x ((differs_modify _).mp hx),hchecked,haccel⟩,fun x hx => ?_,
      fun x hx => ?_⟩
    · refine surface_flagged hchecked haccel hhw hmod (fun x hx => (hd x hx).elim)
        (fun x hx => ⟨hsurface x,?_⟩) ((hserial flag).trans (by rw [if_pos rfl,hsurface]))
      rw [hserial,if_neg hx]
    · rw [Finset.mem_singleton.mp hx,hout,hserial,hsurface,if_pos rfl,behind_copySerial]
    · rw [hout,hserial,hsurface,if_neg (Finset.notMem_singleton.mp hx),outdated_eq]
  · refine ⟨.refl s,fun x hx => ?_,fun x _ => rfl⟩
    rw [Finset.mem_singleton.mp hx]
    simpa using hb

theorem updateSource_updated (s : CardState S) :
    UpdatedOn surfaces s (s.updateSource surfaces) {.source} :=
  updated_serial (s := s) .source rfl rfl rfl rfl (fun x => by cases x <;> simp [Differs])
    (fun x => by cases x <;> rfl) fun x => by cases x <;> rfl

theorem updateSourceMask_updated (s : CardState S) :
    UpdatedOn surfaces s (s.updateSourceMask surfaces) {.sourceMask} :=
  updated_serial (s := s) .sourceMask rfl rfl rfl rfl (fun x => by cases x <;> simp [Differs])
    (fun x => by cases x <;> rfl) fun x => by cases x <;> rfl

theorem updateSource2_updated (s : CardState S) :
    UpdatedOn surfaces s (s.updateSource2 surfaces) {.source2} :=
  updated_serial (s := s) .source2 rfl rfl rfl rfl (fun x => by cases x <;> simp [Differs])
    (fun x => by cases x <;> rfl) fun x => by cases x <;> rfl

theorem UpdatedOn.ite {f : Finset Modification} (h : UpdatedOn surfaces s s' f) (c : Prop)
    [Decidable c] : UpdatedOn surfaces s (if c then s' else s) (if c then f else ∅) := by
  split_ifs
  · exact h
  · exact .refl s

theorem updateSources_updated (s : CardState S) (accel : Accel) :
    UpdatedOn surfaces s (updateSources surfaces s accel) (sources s accel) := by
  have h : UpdatedOn surfaces s (s.updateSource surfaces) {.source} := updateSource_updated s
  rw [sources,← masked_eq (h.same .blittingFlags)]
  exact ((h.trans ((updateSourceMask_updated _).ite _)).trans ((updateSource2_updated _).ite _)).ite _

theorem Checked.updateSources (h : Checked surfaces s answered) (hre : Rechecks surfaces s accel) :
    Checked surfaces (updateSources surfaces s accel) answered := by
  have hu : UpdatedOn surfaces s (StateAcquire.updateSources surfaces s accel) (sources s accel) :=
    updateSources_updated s accel
  refine ⟨fun g hc ha x hx => ?_,fun g hc ha x hx hm => ?_⟩
  · rw [hu.checkedEq] at hc
    rw [hu.accelEq] at ha
    exact h.changed g hc ha x hx
  · rw [hu.checkedEq] at hc
    rw [hu.accelEq] at ha
    have ho := h.reconfigured g hc ha x hx hm
    by_cases hs : x ∈ sources s accel
    · exact absurd hx (hre x (Finset.mem_insert_of_mem hs) ho g hc ha)
    · rw [hu.others x hs,ho]

def afterAnswers (answered : Accel → Since) (functions : Finset Accel) (g : Accel) : Since :=
  if g ∈ functions then ⟨∅,∅⟩ else answered g

theorem Checked.checkState (h : Checked surfaces s answered) (accel : Accel) (a : Answers) :
    Checked surfaces (checkState s accel a).1 (afterAnswers answered (checkState s accel a).2) := by
  rw [StateAcquire.checkState]
  split_ifs with hf
  · have hno : afterAnswers answered ∅ = answered := by
      funext g
      simp [afterAnswers]
    rwa [hno]
  · have hold (g : Accel) (hg : g ∈ (s.accel ∩ s.checked) \ a.removed ∪ a.added)
        (hn : g ∉ insert accel a.added) : g ∈ s.checked ∧ g ∈ s.accel := by
      simp only [Finset.mem_union,Finset.mem_sdiff,Finset.mem_inter,Finset.mem_insert,not_or] at hg hn
      tauto
    refine ⟨fun g _ ha x hx => ?_,fun g _ ha x hx hm => ?_⟩
    · rw [afterAnswers]
      split_ifs with hg
      · simp
      · obtain ⟨hc,ha⟩ := hold g ha hg
        exact h.changed g hc ha x hx
    · rw [afterAnswers] at hm
      split_ifs at hm with hg
      · simp at hm
      · obtain ⟨hc,ha⟩ := hold g ha hg
        exact h.reconfigured g hc ha x hx hm

theorem checkState_same (s : CardState S) (accel : Accel) (a : Answers) (x : Modification) :
    ¬ Differs s (checkState s accel a).1 x := by
  rw [checkState]
  split_ifs <;> cases x <;> simp [Differs]

theorem checkState_rest (s : CardState S) (accel : Accel) (a : Answers) :
    (checkState s accel a).1.modified = s.modified ∧ (checkState s accel a).1.modHw = s.modHw ∧
    surfaceOf (checkState s accel a).1 = surfaceOf s ∧
    serialOf (checkState s accel a).1 = serialOf s ∧ accel ∈ (checkState s accel a).1.checked := by
  rw [checkState]
  split_ifs with h
  · exact ⟨rfl,rfl,rfl,rfl,h⟩
  · refine ⟨rfl,rfl,rfl,rfl,?_⟩
    exact Finset.mem_union_left _ (Finset.mem_insert_self _ _)

theorem prepare_clipped (s : CardState S) : Clipped surfaces s (prepare surfaces s) := by
  have h : Clipped surfaces s (s.updateDestination surfaces) := updateDestination_clipped s
  refine ⟨⟨fun g hc ha => ?_,h.modified,fun x hx => h.changes x (by cases x <;> exact hx),h.modHw,
    fun x => ?_,fun hs x u hu => ?_⟩,fun x hx => h.only x (by cases x <;> exact hx)⟩
  · exact h.checked g (mem_invalidate.mp hc).1 ha
  · have hx := h.surface x
    cases x <;> exact hx
  · have hx := h.synced hs x u
    cases x <;> exact hx hu

structure CheckSpec (surfaces : S → CoreSurface) (s s' : CardState S) (accel : Accel)
    (answered : Accel → Since) (set : Since) : Prop where
  inv : Inv surfaces s' answered set
  modified : s'.modified = ∅
  checked : accel ∈ s'.checked
  same : ∀ x, ¬ Differs s s' x
  current : ∀ x ∈ used s accel, outdated surfaces s' x = false

theorem move_outdated {p k : CardState S} (hsurface : surfaceOf k = surfaceOf p)
    (hserial : serialOf k = serialOf p) (x : Modification) :
    outdated surfaces (moveModified k) x = outdated surfaces p x := by
  have hmove : outdated surfaces (moveModified k) x = outdated surfaces k x := by
    cases x <;> rfl
  rw [hmove,outdated_eq,outdated_eq,hsurface,hserial]

/-- The flags may be moved once no checked function depends on them. -/
theorem Inv.moveModified {q k : CardState S} {answered' : Accel → Since}
    (h : Inv surfaces q answered set) (hmod : k.modified = q.modified) (hhw : k.modHw = q.modHw)
    (hsurface : surfaceOf k = surfaceOf q) (hserial : serialOf k = serialOf q)
    (hchecked : Checked surfaces k answered') : Inv surfaces (moveModified k) answered' set := by
  have hflags (x : Modification) :
      x ∈ (StateAcquire.moveModified k).modHw ↔ x ∈ q.modHw ∨ x ∈ q.modified := by
    rw [← hhw,← hmod]
    exact Finset.mem_union
  have hk (x : Modification) : outdated surfaces (StateAcquire.moveModified k) x =
      outdated surfaces k x := move_outdated rfl rfl x
  have hq (x : Modification) : outdated surfaces (StateAcquire.moveModified k) x =
      outdated surfaces q x := move_outdated hsurface hserial x
  refine ⟨fun x u hu => ?_,fun g hc ha x hx hm => ?_,fun g hc ha x hx hm => ?_,fun x hx => ?_,
    fun x hx => ?_⟩
  · have hs := h.synced x u
    rw [← hsurface,← hserial] at hs
    cases x <;> exact hs hu
  · exact absurd hm (hchecked.changed g hc ha x hx)
  · right
    rw [hk]
    exact hchecked.reconfigured g hc ha x hx hm
  · right
    rw [hflags]
    exact (h.pending x hx).symm
  · right
    rw [hflags,hq]
    have := h.pendingSurface x hx
    tauto

theorem check_spec {s₀ : CardState S} (h : Inv surfaces s₀ answered set)
    (hs : Flagged surfaces s₀ s) (hre : Rechecks surfaces (prepare surfaces s) accel)
    {x : Finset Modification} (hx : x ⊆ (prepare surfaces s).modified) (a : Answers) :
    CheckSpec surfaces (prepare surfaces s) (check surfaces s accel a).1 accel
      (afterAnswers (fun g => (answered g).change x) (check surfaces s accel a).2)
      (set.change x) := by
  have hchecked : Checked surfaces (prepare surfaces s) fun g => (answered g).change x :=
    (h.flagged (hs.trans (updateDestination_clipped s).toFlagged) hx).invalidate
  have hprep := h.flagged (hs.trans (prepare_clipped s).toFlagged) hx
  have hdst : outdated surfaces (prepare surfaces s) .destination = false :=
    updateDestination_outdated s
  rw [check]
  generalize prepare surfaces s = p at *
  have hsrc : UpdatedOn surfaces p (updateSources surfaces p accel) (sources p accel) :=
    updateSources_updated p accel
  have hcheck := (hchecked.updateSources hre).checkState accel a
  have hq : Inv surfaces (updateSources surfaces p accel) (fun g => ((answered g).change x).change ∅)
      ((set.change x).change ∅) := hprep.flagged hsrc.toFlagged (Finset.empty_subset _)
  rw [Since.change_empty] at hq
  generalize updateSources surfaces p accel = q at *
  obtain ⟨hmod,hhw,hsurface,hserial,hmem⟩ := checkState_rest q accel a
  have hsame := checkState_same q accel a
  generalize checkState q accel a = k at *
  refine ⟨hq.moveModified hmod hhw hsurface hserial hcheck,rfl,hmem,fun y hy => ?_,fun y hy => ?_⟩
  · have hmove : Differs p k.1 y := by cases y <;> exact hy
    exact (hmove.or q).elim (hsrc.same y) (hsame y)
  · rw [move_outdated hsurface hserial]
    by_cases hy' : y ∈ sources p accel
    · exact hsrc.current y hy'
    · rw [hsrc.others y hy']
      obtain rfl := (Finset.mem_insert.mp hy).resolve_right hy'
      exact hdst

end Checks

end DirectFB.StateFresh
