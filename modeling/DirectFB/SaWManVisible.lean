import DirectFB.SaWManTier
import DirectFB.Updates

/-! The lists of the regions where each window, and the background, is visible. -/
set_option linter.unusedSectionVars false
namespace DirectFB.SaWMan.Visible
variable {ω : Type*} [DecidableEq ω]

/-- `bg.visible` of the manager, and `left.visible` and `right.visible` of its windows. -/
inductive Slot (ω : Type*)
  | background
  | window (eye : Eye) (w : ω)
  deriving DecidableEq

abbrev Lists (ω : Type*) := Slot ω → Updates

def Lists.add (lists : Lists ω) (slot : Slot ω) (region : Region) : Lists ω :=
  Function.update lists slot ((lists slot).add region)

variable (borders : Borders) (tier : Tier) (s : Windows ω) (eye : Eye)

/-- `update_visible`, on the windows from the one at `start` down to the lowest. The destination
of a window is cut out as a whole if it does not meet the region. -/
def updateVisible : List ω → Region → Lists ω → Lists ω
  | [], area, lists => if area.Valid then lists.add .background area else lists
  | w::below, area, lists =>
    if area.Valid then
      if visible borders s w then
        match area.intersect ((s w).boundsArea eye) with
        | some region =>
          let dst := (((s w).dstArea eye).intersect region).getD ((s w).dstArea eye)
          let lists := if (s w).translucent then updateVisible below area lists
            else (Region.strips dst area).foldl (fun lists r => updateVisible below r lists) lists
          lists.add (.window eye w) region
        | none => updateVisible below area lists
      else updateVisible below area lists
    else lists

def reset (layout : List ω) (lists : Lists ω) : Lists ω
  | .background => (lists .background).reset
  | .window eye w => if w ∈ layout then (lists (.window eye w)).reset else lists (.window eye w)

/-- `sawman_update_visible`, for both eyes. -/
def sawmanUpdateVisible (layout : List ω) (lists : Lists ω) : Lists ω :=
  [Eye.left,Eye.right].foldl (fun lists eye =>
    updateVisible borders s eye layout.reverse ⟨0,0,tier.width,tier.height⟩ lists)
    (reset layout lists)

def Blocks (w : ω) (p : ℤ × ℤ) : Prop :=
  visible borders s w ∧ (s w).translucent = false ∧ ((s w).dstArea eye).Contains p

instance (w : ω) (p : ℤ × ℤ) : Decidable (Blocks borders s eye w p) :=
  inferInstanceAs (Decidable (_ ∧ _ ∧ _))

def Exposed (p : ℤ × ℤ) : List ω → Slot ω → Prop
  | [], slot => slot = .background
  | w::below, slot =>
    visible borders s w ∧ ((s w).boundsArea eye).Contains p ∧ slot = .window eye w ∨
      ¬ Blocks borders s eye w p ∧ Exposed p below slot

def Alike (s s' : Windows ω) (v : ω) : Prop :=
  visible borders s v = visible borders s' v ∧ (visible borders s' v →
    (s' v).placement = (s v).placement ∧ (s' v).config.z = (s v).config.z ∧
      (s' v).translucent = (s v).translucent)

def Complete (layout : List ω) (lists : Lists ω) : Prop :=
  ∀ eye p, tier.region.Contains p → ∀ slot, Exposed borders s eye p layout.reverse slot →
    (lists slot).Covers p

def Good (lists : Lists ω) : Prop := ∀ slot, (lists slot).Good

structure Grows (a b : Lists ω) : Prop where
  good : Good a → Good b
  covers : Good a → ∀ slot p, (a slot).Covers p → (b slot).Covers p

variable {borders tier s eye}

theorem Grows.refl (a : Lists ω) : Grows a a := ⟨id,fun _ _ _ => id⟩

theorem Grows.trans {a b c : Lists ω} (h : Grows a b) (h' : Grows b c) : Grows a c :=
  ⟨fun hg => h'.good (h.good hg),
    fun hg slot p hp => h'.covers (h.good hg) slot p (h.covers hg slot p hp)⟩

variable {p : ℤ × ℤ}

theorem covers_add {lists : Lists ω} (hg : Good lists) (slot : Slot ω) {region : Region} (hp : region.Contains p) : (lists.add slot region slot).Covers p := by
  unfold Lists.add
  rw [Function.update_self]
  exact (hg slot).covers_add (.inr hp)

theorem exposed_mono {s' : Windows ω} {slot : Slot ω} {l : List ω}
    (hv : ∀ v ∈ l, visible borders s' v → ((s' v).boundsArea eye).Contains p →
      visible borders s v ∧ ((s v).boundsArea eye).Contains p)
    (hb : ∀ v ∈ l, Blocks borders s eye v p → Blocks borders s' eye v p)
    (h : Exposed borders s' eye p l slot) : Exposed borders s eye p l slot := by
  induction l with
  | nil => exact h
  | cons w below ih =>
    rcases h with ⟨hw,hp,rfl⟩ | ⟨hnot,h⟩
    · obtain ⟨hw,hp⟩ := hv w List.mem_cons_self hw hp
      exact .inl ⟨hw,hp,rfl⟩
    · exact .inr ⟨fun hbl => hnot (hb w List.mem_cons_self hbl),
        ih (fun v hmem => hv v (List.mem_cons_of_mem w hmem))
          (fun v hmem => hb v (List.mem_cons_of_mem w hmem)) h⟩

theorem Complete.of_alike {s' : Windows ω} {layout : List ω} {lists : Lists ω}
    (h : Complete borders tier s layout lists) (ha : ∀ v ∈ layout, Alike borders s s' v) :
    Complete borders tier s' layout lists := by
  intro eye p hp slot hs
  refine h eye p hp slot (exposed_mono (fun v hv hvis hin => ?_) (fun v hv hbl => ?_) hs)
  · obtain ⟨hsame,hrest⟩ := ha v (List.mem_reverse.mp hv)
    obtain ⟨hplace,hz,-⟩ := hrest hvis
    refine ⟨hsame ▸ hvis,?_⟩
    cases eye <;> simpa only [Window.boundsArea,Window.offset,Window.bounds,hplace,hz] using hin
  · obtain ⟨hsame,hrest⟩ := ha v (List.mem_reverse.mp hv)
    obtain ⟨hvis,htr,hin⟩ := hbl
    obtain ⟨hplace,hz,htr'⟩ := hrest (hsame ▸ hvis)
    refine ⟨hsame ▸ hvis,htr'.trans htr,?_⟩
    cases eye <;> simpa only [Window.dstArea,Window.offset,Window.dst,hplace,hz] using hin

end DirectFB.SaWMan.Visible
