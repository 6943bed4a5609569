import DirectFB.SaWManTier

/-! How a region of a tier is composed, from the top down, without what a window hides. -/
set_option linter.unusedSectionVars false
namespace DirectFB.SaWMan.UpdateRegion
variable {ω : Type*} [DecidableEq ω] (borders : Borders) (tier : Tier) (s : Windows ω)

/-- `dfb_region_region_intersect` of a region that stays as it is if there is none. -/
def intersected (region clip : Region) : Region := (region.intersect clip).getD region

/-- `update_region`, on the windows from the one at `start` down to the lowest. -/
def updateRegion : List ω → Region → List (Draw ω)
  | [], region =>
    if region.x1 > region.x2 ∨ region.y1 > region.y2 then [] else [⟨.background,region⟩]
  | w::below, outer =>
    if outer.x1 > outer.x2 ∨ outer.y1 > outer.y2 then []
    else if Shown borders tier s w then
      match outer.intersect (Region.fromRectangle (s w).bounds) with
      | none => updateRegion below outer
      | some region =>
        if (s w).partlyOpaque then
          match ((s w).config.opaqueRegion.translated (s w).bounds.x (s w).bounds.y).intersect
              region with
          | none => updateRegion below outer++[⟨.window w true,region⟩]
          | some inner =>
            (if decide ((s w).opacity < 0xff) || (s w).options.colorKeying then
              updateRegion below outer
            else (Region.strips inner outer).flatMap (updateRegion below))++
            (Region.strips inner region).map (fun r => ⟨.window w true,r⟩)++
            [⟨.window w false,inner⟩]
        else
          (if (s w).translucent then updateRegion below outer
          else (Region.strips (intersected (Region.fromRectangle (s w).dst) region)
            outer).flatMap (updateRegion below))++
          [⟨.window w true,region⟩]
    else updateRegion below outer

/-- Wherever a window is found: what is cut out for its opaque region is shown of it, and the
strips around what is shown of an opaque window stay within the region at hand. -/
def tame : List ω → Region → Bool
  | [], _ => true
  | w::below, outer =>
    if outer.x1 > outer.x2 ∨ outer.y1 > outer.y2 then true
    else if Shown borders tier s w then
      match outer.intersect (Region.fromRectangle (s w).bounds) with
      | none => tame below outer
      | some region =>
        if (s w).partlyOpaque then
          match ((s w).config.opaqueRegion.translated (s w).bounds.x (s w).bounds.y).intersect
              region with
          | none => tame below outer
          | some inner =>
            if (s w).unblended then
              decide (inner.Within (Region.fromRectangle (s w).dst)) &&
                (Region.strips inner outer).all (tame below)
            else tame below outer
        else if (s w).translucent then tame below outer
        else (Region.strips (intersected (Region.fromRectangle (s w).dst) region) outer).all
          fun strip => decide (strip.Valid → strip.Within outer) && tame below strip
    else tame below outer

def seen (l : List ω) (p : ℤ × ℤ) : List (Layer ω) :=
  painterFrom (Covers borders tier s .left · p) (Cuts borders tier s .left · p) (drawnAt s .left p) l

variable {borders tier s}

theorem seen_cons (w : ω) (below : List ω) (p : ℤ × ℤ) : seen borders tier s (w::below) p =
    if Cuts borders tier s .left w p then [drawnAt s .left p w]
    else if Covers borders tier s .left w p then
      seen borders tier s below p++[drawnAt s .left p w]
    else seen borders tier s below p := by
  rw [seen,painterFrom]
  rfl

variable {p : ℤ × ℤ} {outer region inner r clip : Region}

/-- The draws of a window and of what is below it are what is seen from it down. -/
theorem layers_cons {w : ω} {below : List ω} {low top : List (Draw ω)}
    (hlow : layers borders s .left p low =
      if outer.Contains p ∧ ¬ Cuts borders tier s .left w p then seen borders tier s below p else [])
    (htop : layers borders s .left p top =
      if outer.Contains p ∧ Covers borders tier s .left w p then [drawnAt s .left p w] else []) :
    layers borders s .left p (low++top) =
      if outer.Contains p then seen borders tier s (w::below) p else [] := by
  rw [layers_append,hlow,htop,seen_cons]
  by_cases hp : outer.Contains p
  · by_cases hh : Cuts borders tier s .left w p
    · simp [hp,hh,hh.1]
    · by_cases hc : Covers borders tier s .left w p <;> simp [hp,hh,hc]
  · simp [hp]

theorem blended_eq (w : Window ω) :
    (decide (w.opacity < 0xff) || w.options.colorKeying) = !w.unblended := by
  by_cases h : w.opacity = 0xff
  · simp [Window.unblended,h]
  · have hlt : w.opacity < 0xff := Fin.lt_last_iff_ne_last.mpr h
    simp [Window.unblended,h,hlt]

/-- What a window has to do with a pixel, where there are no borders and no depths. -/
structure At (borders : Borders) (tier : Tier) (s : Windows ω) (w : ω) (p : ℤ × ℤ) : Prop where
  covers : Covers borders tier s .left w p ↔ (Region.fromRectangle (s w).dst).Contains p
  reaches : ∀ a, Reaches borders s .left (.window w a) p ↔
    (Region.fromRectangle (s w).dst).Contains p
  inside : (Region.fromRectangle (s w).dst).Contains p →
    (Region.fromRectangle (s w).bounds).Contains p
  opaque_area : (s w).opaqueArea .left =
    (s w).config.opaqueRegion.translated (s w).bounds.x (s w).bounds.y

theorem at_shown {w : ω} (hb : (s w).border borders = 0) (hz : (s w).config.z = 0)
    (hs : Shown borders tier s w) (p : ℤ × ℤ) : At borders tier s w p := by
  have hi := input_of_visible hb hs.1
  have hdst : (s w).dstArea .left = Region.fromRectangle (s w).dst := by
    simp [Window.dstArea,Window.offset,hz,Region.translated]
  refine ⟨?_,fun a => ?_,fun h => (s w).placement.inside.contains h,?_⟩
  · rw [Covers,hdst]
    exact ⟨fun h => h.2.2,fun h => ⟨hs,hi,h⟩⟩
  · rw [reaches_window hb hi,hdst]
  · simp [Window.opaqueArea,Window.offset,hz]

/-- What is drawn of a window where its opaque region is not found. -/
theorem layers_whole {w : ω}
    (hat : At borders tier s w p)
    (hmem : region.Contains p ↔ outer.Contains p ∧ (Region.fromRectangle (s w).bounds).Contains p)
    (hout : (s w).partlyOpaque → region.Contains p → ¬ ((s w).opaqueArea .left).Contains p) :
    layers borders s .left p [⟨.window w true,region⟩] =
      if outer.Contains p ∧ Covers borders tier s .left w p then [drawnAt s .left p w] else [] := by
  rw [layers_single]
  by_cases hr : region.Contains p ∧ (Region.fromRectangle (s w).dst).Contains p
  · have hdrawn : drawnAt s .left p w = .window w true := by
      rw [drawnAt,decide_eq_false fun h => hout h.1 hr.1 h.2,Bool.not_false]
    rw [if_pos ⟨hr.1,(hat.reaches _).mpr hr.2⟩,
      if_pos ⟨(hmem.mp hr.1).1,hat.covers.mpr hr.2⟩,hdrawn]
  · rw [if_neg fun h => hr ⟨h.1,(hat.reaches _).mp h.2⟩,if_neg]
    rintro ⟨hp,hc⟩
    have hd := hat.covers.mp hc
    exact hr ⟨hmem.mpr ⟨hp,hat.inside hd⟩,hd⟩

theorem layers_parts {w : ω}
    (hat : At borders tier s w p) (hpart : (s w).partlyOpaque)
    (hmem : region.Contains p ↔ outer.Contains p ∧ (Region.fromRectangle (s w).bounds).Contains p)
    (hinner : inner.Contains p ↔ ((s w).opaqueArea .left).Contains p ∧ region.Contains p)
    (hi : inner.Regular) (hw : inner.Within region) :
    layers borders s .left p ((Region.strips inner region).map
      (fun r => ⟨.window w true,r⟩)++[⟨.window w false,inner⟩]) =
      if outer.Contains p ∧ Covers borders tier s .left w p then [drawnAt s .left p w] else [] := by
  have hstrips : layers borders s .left p
      ((Region.strips inner region).map fun r => ⟨.window w true,r⟩) =
      if region.Contains p ∧ ¬ inner.Contains p then
        (if (Region.fromRectangle (s w).dst).Contains p then [.window w true] else []) else [] := by
    rw [List.map_eq_flatMap,layers_flatMap]
    refine Region.flatMap_strips hi hw fun r _ => ?_
    rw [layers_single,← ite_and]
    exact if_congr (and_congr_right fun _ => hat.reaches _) rfl rfl
  rw [layers_append,hstrips,layers_single]
  simp only [hat.reaches,hat.covers,drawnAt,hpart,true_and]
  by_cases hd : (Region.fromRectangle (s w).dst).Contains p
  · have hbounds := hat.inside hd
    by_cases hp : outer.Contains p
    · have hr : region.Contains p := hmem.mpr ⟨hp,hbounds⟩
      by_cases ho : ((s w).opaqueArea .left).Contains p <;> simp [hd,hp,hr,hinner,ho]
    · have hr : ¬ region.Contains p := fun h => hp (hmem.mp h).1
      simp [hp,hr,hinner]
  · simp [hd]

theorem valid_of_contains (h : r.Contains p) : r.Valid := by
  simp only [Region.Contains] at h
  constructor <;> omega

theorem intersected_regular (hr : r.Regular) (hc : clip.Regular) :
    (intersected r clip).Regular := by
  unfold intersected
  cases h : r.intersect clip with
  | none => exact hr
  | some inner => exact hr.intersect hc h

theorem intersected_contains (hp : r.Contains p → clip.Contains p) :
    (intersected r clip).Contains p ↔ r.Contains p := by
  unfold intersected
  cases h : r.intersect clip with
  | none => exact Iff.rfl
  | some inner =>
    rw [Option.getD_some,Region.intersect_contains h]
    exact ⟨And.left,fun h => ⟨h,hp h⟩⟩

theorem layers_around {w : ω} {below : List ω}
    (ih : ∀ outer, tame borders tier s below outer →
      layers borders s .left p (updateRegion borders tier s below outer) =
        if outer.Contains p then seen borders tier s below p else [])
    (hi : inner.Regular) (hw : inner.Within outer)
    (hcuts : outer.Contains p → (inner.Contains p ↔ Cuts borders tier s .left w p))
    (ht : (Region.strips inner outer).all (tame borders tier s below)) :
    layers borders s .left p
      ((Region.strips inner outer).flatMap (updateRegion borders tier s below)) =
      if outer.Contains p ∧ ¬ Cuts borders tier s .left w p then seen borders tier s below p else [] := by
  rw [layers_flatMap,Region.flatMap_strips_mem hi
    (fun strip hstrip => ih strip (List.all_eq_true.mp ht strip hstrip))
    fun strip hstrip hp => (Region.strips_within hi hw strip hstrip).contains hp]
  exact if_congr (and_congr_right fun hp => (hcuts hp).not) rfl rfl

theorem layers_opaque {w : ω} {below : List ω}
    (ih : ∀ outer, tame borders tier s below outer →
      layers borders s .left p (updateRegion borders tier s below outer) =
        if outer.Contains p then seen borders tier s below p else [])
    (hat : At borders tier s w p) (hpart : (s w).partlyOpaque)
    (hregion : outer.intersect (Region.fromRectangle (s w).bounds) = some region)
    (hinner : ((s w).config.opaqueRegion.translated (s w).bounds.x (s w).bounds.y).intersect
      region = some inner) (hreg : outer.Regular)
    (ht : (if (s w).unblended then
      decide (inner.Within (Region.fromRectangle (s w).dst)) &&
        (Region.strips inner outer).all (tame borders tier s below)
      else tame borders tier s below outer : Bool) = true) :
    layers borders s .left p ((if decide ((s w).opacity < 0xff) || (s w).options.colorKeying then
        updateRegion borders tier s below outer
      else (Region.strips inner outer).flatMap (updateRegion borders tier s below))++
      ((Region.strips inner region).map (fun r => ⟨.window w true,r⟩)++
      [⟨.window w false,inner⟩])) =
      if outer.Contains p then seen borders tier s (w::below) p else [] := by
  have hmem := Region.intersect_contains hregion p
  have hin : inner.Contains p ↔ ((s w).opaqueArea .left).Contains p ∧ region.Contains p := by
    rw [hat.opaque_area]
    exact Region.intersect_contains hinner p
  have hi : inner.Regular :=
    (((s w).config.opaqueRegion.valid.translated _ _).regular).intersect
      (hreg.intersect (Region.fromRectangle_regular _) hregion) hinner
  refine layers_cons ?_ (layers_parts hat hpart hmem hin hi (Region.intersect_within hinner).2)
  rw [blended_eq]
  by_cases hu : (s w).unblended
  · rw [if_pos hu,Bool.and_eq_true,decide_eq_true_eq] at ht
    rw [hu,Bool.not_true,if_neg Bool.false_ne_true]
    refine layers_around ih hi
      ((Region.intersect_within hinner).2.trans (Region.intersect_within hregion).1) ?_ ht.2
    intro hp
    rw [Cuts,if_pos hpart,hat.covers]
    constructor
    · exact fun h => ⟨ht.1.contains h,hu,(hin.mp h).1⟩
    · exact fun h => hin.mpr ⟨h.2.2,hmem.mpr ⟨hp,hat.inside h.1⟩⟩
  · have hn : ¬ Cuts borders tier s .left w p := by
      rw [Cuts,if_pos hpart]
      exact fun h => hu h.2.1
    rw [if_neg hu] at ht
    rw [Bool.eq_false_iff.mpr hu,Bool.not_false,if_pos rfl,ih outer ht]
    exact if_congr ⟨fun hp => ⟨hp,hn⟩,And.left⟩ rfl rfl

/-- What is drawn over a pixel by a window that is opaque or blended as a whole, and by those
below. -/
theorem layers_dst {w : ω} {below : List ω}
    (ih : ∀ outer, tame borders tier s below outer →
      layers borders s .left p (updateRegion borders tier s below outer) =
        if outer.Contains p then seen borders tier s below p else [])
    (hat : At borders tier s w p) (hpart : ¬ (s w).partlyOpaque)
    (hregion : outer.intersect (Region.fromRectangle (s w).bounds) = some region)
    (hreg : outer.Regular)
    (ht : (if (s w).translucent then tame borders tier s below outer
      else (Region.strips (intersected (Region.fromRectangle (s w).dst) region) outer).all
        fun strip => decide (strip.Valid → strip.Within outer) && tame borders tier s below strip
      : Bool) = true) :
    layers borders s .left p ((if (s w).translucent then updateRegion borders tier s below outer
      else (Region.strips (intersected (Region.fromRectangle (s w).dst) region)
        outer).flatMap (updateRegion borders tier s below))++[⟨.window w true,region⟩]) =
      if outer.Contains p then seen borders tier s (w::below) p else [] := by
  have hmem := Region.intersect_contains hregion p
  refine layers_cons ?_ (layers_whole hat hmem fun h => absurd h hpart)
  have hcuts : Cuts borders tier s .left w p ↔
      (Region.fromRectangle (s w).dst).Contains p ∧ (s w).translucent = false := by
    rw [Cuts,if_neg hpart,hat.covers]
  by_cases htr : (s w).translucent
  · rw [if_pos htr] at ht
    have hn : ¬ Cuts borders tier s .left w p := by simp [hcuts,htr]
    rw [if_pos htr,ih outer ht]
    exact if_congr ⟨fun hp => ⟨hp,hn⟩,And.left⟩ rfl rfl
  · rw [if_neg htr] at ht
    have hall : ∀ strip ∈ Region.strips (intersected (Region.fromRectangle (s w).dst) region) outer,
        (strip.Valid → strip.Within outer) ∧ tame borders tier s below strip := by
      simpa [imp_iff_not_or] using ht
    have hi := intersected_regular (Region.fromRectangle_regular (s w).dst)
      (hreg.intersect (Region.fromRectangle_regular _) hregion)
    rw [if_neg htr,layers_flatMap,Region.flatMap_strips_mem hi
      (fun strip hstrip => ih strip (hall strip hstrip).2)
      fun strip hstrip hp => ((hall strip hstrip).1 (valid_of_contains hp)).contains hp]
    refine if_congr (and_congr_right fun hp => ?_) rfl rfl
    rw [intersected_contains fun hd => hmem.mpr ⟨hp,hat.inside hd⟩,hcuts]
    simp [htr]

/-- What `update_region` draws over a pixel. -/
theorem layers_updateRegion {l : List ω} (hl : Plain borders s l)
    (ht : tame borders tier s l outer) (p : ℤ × ℤ) :
    layers borders s .left p (updateRegion borders tier s l outer) =
      if outer.Contains p then seen borders tier s l p else [] := by
  induction l generalizing outer with
  | nil =>
    rw [updateRegion]
    split_ifs with hempty hp hp
    · have := (valid_of_contains hp).x
      have := (valid_of_contains hp).y
      omega
    · rfl
    · rw [layers_single,if_pos ⟨hp,trivial⟩]
      rfl
    · rw [layers_single,if_neg fun h => hp h.1]
  | cons w below ih =>
    have hbelow : Plain borders s below :=
      ⟨fun v hv => hl.border v (List.mem_cons_of_mem w hv),
        fun v hv => hl.mono v (List.mem_cons_of_mem w hv)⟩
    have ih : ∀ outer, tame borders tier s below outer →
        layers borders s .left p (updateRegion borders tier s below outer) =
          if outer.Contains p then seen borders tier s below p else [] := fun outer => ih hbelow
    -- a window that is not drawn at the pixel leaves it to those below
    have hskip : tame borders tier s below outer →
        (outer.Contains p → ¬ Covers borders tier s .left w p) →
        layers borders s .left p (updateRegion borders tier s below outer) =
          if outer.Contains p then seen borders tier s (w::below) p else [] := by
      intro ht hn
      rw [ih outer ht]
      by_cases hp : outer.Contains p
      · rw [if_pos hp,if_pos hp,seen_cons,if_neg fun h => hn hp h.1,if_neg (hn hp)]
      · rw [if_neg hp,if_neg hp]
    rw [updateRegion]
    rw [tame] at ht
    by_cases hempty : outer.x1 > outer.x2 ∨ outer.y1 > outer.y2
    · have hp : ¬ outer.Contains p := by
        simp only [Region.Contains]
        omega
      rw [if_pos hempty,if_neg hp]
      rfl
    rw [if_neg hempty] at ht ⊢
    by_cases hs : Shown borders tier s w
    · rw [if_pos hs] at ht ⊢
      have hat := at_shown (hl.border w List.mem_cons_self) (hl.mono w List.mem_cons_self) hs p
      have hreg : outer.Regular := Region.Valid.regular ⟨by omega,by omega⟩
      split
      next hnone =>
        rw [hnone] at ht
        refine hskip ht fun hp hc => ?_
        exact Region.not_contains_of_intersect hnone hp (hat.inside (hat.covers.mp hc))
      next region hregion =>
        rw [hregion] at ht
        dsimp only at ht
        have hmem := Region.intersect_contains hregion p
        by_cases hpart : (s w).partlyOpaque
        · rw [if_pos hpart] at ht ⊢
          split
          next hnone =>
            rw [hnone] at ht
            have hout : region.Contains p → ¬ ((s w).opaqueArea .left).Contains p := by
              rw [hat.opaque_area]
              exact fun hr ho => Region.not_contains_of_intersect hnone ho hr
            refine layers_cons ?_ (layers_whole hat hmem fun _ => hout)
            have hn : outer.Contains p → ¬ Cuts borders tier s .left w p := by
              intro hp h
              rw [Cuts,if_pos hpart,hat.covers] at h
              exact hout (hmem.mpr ⟨hp,hat.inside h.1⟩) h.2.2
            rw [ih outer ht]
            exact if_congr ⟨fun hp => ⟨hp,hn hp⟩,And.left⟩ rfl rfl
          next inner hinner =>
            rw [hinner] at ht
            dsimp only at ht
            rw [List.append_assoc]
            exact layers_opaque ih hat hpart hregion hinner hreg ht
        · rw [if_neg hpart] at ht ⊢
          exact layers_dst ih hat hpart hregion hreg ht
    · rw [if_neg hs] at ht ⊢
      exact hskip ht fun _ hc => hs hc.1

theorem updateRegion_invalid {l : List ω} (h : ¬ outer.Valid) :
    updateRegion borders tier s l outer = [] := by
  have hempty : outer.x1 > outer.x2 ∨ outer.y1 > outer.y2 := by
    by_contra hn
    exact h ⟨by omega,by omega⟩
  cases l with
  | nil => rw [updateRegion,if_pos hempty]
  | cons w below => rw [updateRegion,if_pos hempty]

theorem updateRegion_within {l : List ω} (ht : tame borders tier s l outer) :
    ∀ d ∈ updateRegion borders tier s l outer, d.region.Within outer := by
  induction l generalizing outer with
  | nil =>
    rw [updateRegion]
    split_ifs
    · exact List.forall_mem_nil _
    · rw [List.forall_mem_singleton]
      exact ⟨le_rfl,le_rfl,le_rfl,le_rfl⟩
  | cons w below ih =>
    rw [updateRegion]
    rw [tame] at ht
    by_cases hempty : outer.x1 > outer.x2 ∨ outer.y1 > outer.y2
    · rw [if_pos hempty]
      exact List.forall_mem_nil _
    have hreg : outer.Regular := Region.Valid.regular ⟨by omega,by omega⟩
    rw [if_neg hempty] at ht ⊢
    by_cases hs : Shown borders tier s w
    · rw [if_pos hs] at ht ⊢
      split
      next hnone =>
        rw [hnone] at ht
        exact ih ht
      next region hregion =>
        rw [hregion] at ht
        dsimp only at ht
        have hrw := (Region.intersect_within hregion).1
        by_cases hpart : (s w).partlyOpaque
        · rw [if_pos hpart] at ht ⊢
          split
          next hnone =>
            rw [hnone] at ht
            rw [List.forall_mem_append,List.forall_mem_singleton]
            exact ⟨ih ht,hrw⟩
          next inner hinner =>
            rw [hinner] at ht
            dsimp only at ht
            have hiw := (Region.intersect_within hinner).2
            have hi := (((s w).config.opaqueRegion.valid.translated (s w).bounds.x
              (s w).bounds.y).regular).intersect
                (hreg.intersect (Region.fromRectangle_regular _) hregion) hinner
            rw [List.forall_mem_append,List.forall_mem_append,List.forall_mem_singleton]
            refine ⟨⟨?_,?_⟩,hiw.trans hrw⟩
            · rw [blended_eq]
              by_cases hu : (s w).unblended
              · rw [if_pos hu,Bool.and_eq_true] at ht
                rw [hu,Bool.not_true,if_neg Bool.false_ne_true]
                intro d hd
                obtain ⟨strip,hstrip,hd⟩ := List.mem_flatMap.mp hd
                exact (ih (List.all_eq_true.mp ht.2 strip hstrip) d hd).trans
                  (Region.strips_within hi (hiw.trans hrw) strip hstrip)
              · rw [if_neg hu] at ht
                rw [Bool.eq_false_iff.mpr hu,Bool.not_false,if_pos rfl]
                exact ih ht
            · intro d hd
              obtain ⟨strip,hstrip,rfl⟩ := List.mem_map.mp hd
              exact (Region.strips_within hi hiw strip hstrip).trans hrw
        · rw [if_neg hpart] at ht ⊢
          rw [List.forall_mem_append,List.forall_mem_singleton]
          refine ⟨?_,hrw⟩
          by_cases htr : (s w).translucent
          · rw [if_pos htr] at ht ⊢
            exact ih ht
          · rw [if_neg htr] at ht ⊢
            intro d hd
            obtain ⟨strip,hstrip,hd⟩ := List.mem_flatMap.mp hd
            have hall := List.all_eq_true.mp ht strip hstrip
            rw [Bool.and_eq_true,decide_eq_true_eq] at hall
            have hvalid : strip.Valid := by
              by_contra hn
              rw [updateRegion_invalid hn] at hd
              cases hd
            exact (ih hall.2 d hd).trans (hall.1 hvalid)
    · rw [if_neg hs] at ht ⊢
      exact ih ht

/-- The draws are the painter's algorithm on a region, as far as it can be seen. -/
structure Composes (borders : Borders) (tier : Tier) (s : Windows ω) (l : List ω)
    (outer : Region) (draws : List (Draw ω)) : Prop where
  inside : ∀ d ∈ draws, d.region.Within outer
  painter : ∀ p, outer.Contains p → ∀ {π : Type} (paint : Layer ω → π → π),
    Meaning s .left p paint → ∀ x, painted paint x (layers borders s .left p draws) =
      painted paint x (painter borders tier s .left l p)
  once : ∀ p, outer.Contains p → ∀ above w below, l = above++w::below →
    timesDrawn w (layers borders s .left p draws) =
      if Covers borders tier s .left w p ∧ ∀ v ∈ above, ¬ Cuts borders tier s .left v p then 1 else 0

/-- `update_region` composes every region in which it finds no window whose strips leave the
region at hand, or whose opaque region is not shown. -/
theorem clipped_layout_composes {l : List ω} (hl : Plain borders s l) (hnodup : l.Nodup)
    {outer : Region} (ht : tame borders tier s l outer) :
    Composes borders tier s l outer (updateRegion borders tier s l outer) where
  inside := updateRegion_within ht
  painter p hp π paint hm x := by
    rw [layers_updateRegion hl ht,if_pos hp]
    exact painted_painterFrom hm (fun _ => Iff.rfl) (fun _ h => h.hides) hm.drawnAt l x
  once p hp above w below heq := by
    subst heq
    rw [layers_updateRegion hl ht,if_pos hp]
    exact timesDrawn_painterFrom (fun _ h => h.1) (fun _ => rfl) hnodup

/-- A window of ten columns, of which the upper rows are shown only. -/
def clippedWindow (height rows : ℤ) (h : 0 ≤ rows ∧ rows ≤ height) (toplevel : Option Bool) :
    Window Bool where
  config := {bounds := ⟨0,0,10,height,ten_nonneg,h.1.trans h.2⟩, opacity := 0xff}
  toplevel := toplevel
  inserted := true
  placement := ⟨⟨0,0,10,height,ten_nonneg,h.1.trans h.2⟩,⟨0,0,10,rows,ten_nonneg,h.1⟩,
    ⟨0,0,10,rows,ten_nonneg,h.1⟩,⟨le_rfl,le_rfl,le_rfl,
      Int.sub_le_sub_right (Int.add_le_add_left h.2 0) 1⟩⟩

def clippedSub : Windows Bool
  | false => clippedWindow 4 4 (by decide) none
  | true => clippedWindow 10 4 (by decide) (some false)

def middleTier : Tier := ⟨fun c => c == .middle,20,20,by decide,by decide⟩

/-- A region that meets what is shown of the sub window. -/
theorem clipped_sub_composes : Composes noBorders middleTier clippedSub [true,false] ⟨2,2,7,5⟩
    (updateRegion noBorders middleTier clippedSub [true,false] ⟨2,2,7,5⟩) :=
  clipped_layout_composes ⟨by decide,by decide⟩ (by decide) (by decide)

/-- A region in the rows that are not shown: the background is drawn outside of it. -/
theorem clipped_sub_leaves_region :
    ¬ Composes noBorders middleTier clippedSub [true,false] ⟨2,6,7,8⟩
      (updateRegion noBorders middleTier clippedSub [true,false] ⟨2,6,7,8⟩) := by
  intro h
  have hdraw : ⟨.background,⟨2,4,7,8⟩⟩ ∈
      updateRegion noBorders middleTier clippedSub [true,false] ⟨2,6,7,8⟩ := by decide
  have hwithin := h.inside _ hdraw
  exact absurd hwithin.y1 (by decide)

end DirectFB.SaWMan.UpdateRegion
