import DirectFB.SaWManTier
import DirectFB.RegionCut

/-! Updates of a window, without what the windows above it hide, and if it is seen at all. -/
set_option linter.unusedSectionVars false
namespace DirectFB.SaWMan.WindOfChange
variable {ω : Type*}

def opaqueDst (eye : Eye) (w : Window ω) : Region :=
  w.config.opaqueRegion.translated (w.dst.x+w.offset eye) w.dst.y

/-- The part of an update that is skipped for a window: what is shown of it, or its opaque
region. -/
def canSkip (tier : Tier) (eye : Eye) (w : Window ω) (update : Region) : Option Region :=
  if tier.classes w.config.stacking then
    (if w.opacity = 0xff && !w.caps.inputOnly && !(w.options.inputOnly || w.options.colorKeying ||
        w.options.alphaChannel) then update.intersect (w.dstArea eye) else none) <|>
    (if w.options.alphaChannel && w.options.opaqueRegion && w.opacity = 0xff &&
        !w.options.colorKeying then update.intersect (opaqueDst eye w) else none)
  else none

/-- `wind_of_change`, on the windows from `current` down to the one above `changed`. -/
def windOfChange (tier : Tier) (eye : Eye) (s : Windows ω) : List ω → Region → List Region
  | [], update => [update]
  | w::rest, update =>
    match canSkip tier eye (s w) update with
    | some inner => (Region.strips inner update).flatMap (windOfChange tier eye s rest)
    | none => windOfChange tier eye s rest update

def above (layout : List ω) (changed : ℕ) : List ω := (layout.drop (changed+1)).reverse

def skipArea (tier : Tier) (eye : Eye) (w : Window ω) : Option Region :=
  if tier.classes w.config.stacking ∧ w.unblended then
    if w.options.alphaChannel then
      if w.options.opaqueRegion then some (opaqueDst eye w) else none
    else if w.input then none else some (w.dstArea eye)
  else none

theorem canSkip_eq (tier : Tier) (eye : Eye) (w : Window ω) (update : Region) :
    canSkip tier eye w update = (skipArea tier eye w).bind update.intersect := by
  unfold canSkip skipArea Window.unblended Window.input
  by_cases hc : tier.classes w.config.stacking = true <;>
    by_cases ho : w.opacity = 0xff <;> by_cases hk : w.options.colorKeying = true <;>
    by_cases ha : w.options.alphaChannel = true <;>
    by_cases hr : w.options.opaqueRegion = true <;> by_cases hi : w.caps.inputOnly = true <;>
    by_cases hw : w.options.inputOnly = true <;> simp [hc,ho,hk,ha,hr,hi,hw]

theorem windOfChange_eq (tier : Tier) (eye : Eye) (s : Windows ω) (l : List ω)
    (update : Region) : windOfChange tier eye s l update =
      Region.cut (fun w => skipArea tier eye (s w)) l update := by
  induction l generalizing update with
  | nil => rfl
  | cons w rest ih =>
    rw [windOfChange,Region.cut,canSkip_eq]
    cases (skipArea tier eye (s w)).bind update.intersect with
    | some inner => exact List.flatMap_congr fun strip _ => ih strip
    | none => exact ih update

def Skips (tier : Tier) (s : Windows ω) (eye : Eye) (w : ω) (p : ℤ × ℤ) : Prop :=
  Region.InArea (fun w => skipArea tier eye (s w)) w p

def UpdateHidden (borders : Borders) (tier : Tier) (s : Windows ω) (layout : List ω) (eye : Eye)
    (changed : ℕ) (update : Region) : Prop :=
  ∀ p, update.Contains p →
    (¬ ∃ r ∈ windOfChange tier eye s (above layout changed) update, r.Contains p) →
    ∃ w ∈ above layout changed, Hides borders tier s eye w p

def SkipsHidden (borders : Borders) (tier : Tier) (s : Windows ω) (layout : List ω) (eye : Eye)
    (changed : ℕ) (update : Region) : Prop :=
  ∀ p, update.Contains p → (∃ w ∈ above layout changed, Skips tier s eye w p) →
    ∃ w ∈ above layout changed, Hides borders tier s eye w p

theorem opaqueDst_regular (eye : Eye) (w : Window ω) : (opaqueDst eye w).Regular :=
  (w.config.opaqueRegion.valid.translated _ _).regular

variable {tier : Tier} {eye : Eye} {r region clip : Region} {p : ℤ × ℤ} {borders : Borders}

theorem skipArea_regular {w : Window ω}
    (h : skipArea tier eye w = some r) : r.Regular := by
  unfold skipArea at h
  split_ifs at h <;> obtain rfl := Option.some.inj h
  · exact opaqueDst_regular eye w
  · exact Window.dstArea_regular eye w

theorem mem_windOfChange (tier : Tier) (eye : Eye) (s : Windows ω) (l : List ω) (p : ℤ × ℤ)
    {update : Region} (hu : update.Regular) :
    (∃ r ∈ windOfChange tier eye s l update, r.Contains p) ↔
      update.Contains p ∧ ∀ w ∈ l, ¬ Skips tier s eye w p := by
  rw [windOfChange_eq]
  exact Region.mem_cut p l (fun w _ r hr => skipArea_regular hr) hu

theorem updateHidden_iff (borders : Borders) (tier : Tier) (s : Windows ω) (layout : List ω)
    (eye : Eye) (changed : ℕ) {update : Region} (hu : update.Regular) :
    UpdateHidden borders tier s layout eye changed update ↔
      SkipsHidden borders tier s layout eye changed update := by
  refine forall_congr' fun p => forall_congr' fun hp => ?_
  rw [mem_windOfChange tier eye s _ p hu]
  simp [hp]

variable [DecidableEq ω]

def Sized (s : Windows ω) (layout : List ω) : Prop :=
  ∀ w ∈ layout, (Region.fromRectangle (s w).dst).Valid

/-- The window is seen if it is not blended, and its opaque region is within what is shown. -/
structure Proper (borders : Borders) (s : Windows ω) (w : ω) : Prop where
  visible : visible borders s w
  drawn : (s w).input = false
  opaque_within : (s w).options.alphaChannel → ∀ eye,
    (opaqueDst eye (s w)).Within ((s w).dstArea eye) ∧ opaqueDst eye (s w) = (s w).opaqueArea eye

def Solid (tier : Tier) (s : Windows ω) (w : ω) : Prop :=
  tier.classes (s w).config.stacking ∧ (s w).unblended ∧
    ((s w).options.alphaChannel → (s w).options.opaqueRegion)

theorem Proper.hides {s : Windows ω} {w : ω}
    (h : Proper borders s w) (hsolid : Solid tier s w)
    (hp : if (s w).options.alphaChannel then (opaqueDst eye (s w)).Contains p
      else ((s w).dstArea eye).Contains p) : Hides borders tier s eye w p := by
  split_ifs at hp with ha
  · obtain ⟨hwithin,heq⟩ := h.opaque_within ha eye
    exact ⟨⟨⟨h.visible,hsolid.1⟩,h.drawn,hwithin.contains hp⟩,hsolid.2.1,
      fun _ => ⟨hsolid.2.2 ha,heq ▸ hp⟩⟩
  · exact ⟨⟨⟨h.visible,hsolid.1⟩,h.drawn,hp⟩,hsolid.2.1,fun h => absurd h ha⟩

def middleTier : Tier := ⟨fun c => c == .middle,10,10,ten_pos.le,ten_pos.le⟩

end DirectFB.SaWMan.WindOfChange
