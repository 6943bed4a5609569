import DirectFB.StretPixels

/-! Composition of an updated area of a stack region tree, from the top to the topmost region
without anything to be seen through it, and drawn in the opposite order. -/
namespace DirectFB.StretUpdate
open StretRegion StretIteration

/-- A call of `Update`: the position of the region and the area relative to it. -/
structure Call where
  region : StretRegion
  x : ℤ
  y : ℤ
  area : Region

def Call.Draws (c : Call) (p : ℤ × ℤ) : Prop := (c.area.translated c.x c.y).Contains p

instance (c : Call) (p : ℤ × ℤ) : Decidable (c.Draws p) :=
  inferInstanceAs (Decidable (Region.Contains _ _))

def Call.visit (c : Call) : Visit := ⟨c.region,c.x-c.region.bounds.x1,c.y-c.region.bounds.y1⟩

def update (v : Visit) (area : Region) : Call :=
  let x0 := v.x0+v.region.bounds.x1
  let y0 := v.y0+v.region.bounds.y1
  ⟨v.region,x0,y0,area.translated (-x0) (-y0)⟩

/-- The calls for an area. Iterations are forked for the sides of a region that hides all else. -/
def regionUpdate : ℕ → StretIteration → Region → Option (List Call)
  | 0, _, _ => none
  | n+1, it, area => (it.next (some area)).bind fun
    | (none,_) => some []
    | (some region,it) =>
      if .srfOutput ∈ region.flags then
        let inner := area.clipTo (region.bounds.translated it.x0 it.y0)
        let others :=
          if .srfOpaque ∈ region.flags then
            ((inner.sides area).mapM (regionUpdate n it)).map List.flatten
          else regionUpdate n it area
        others.map (·++[update ⟨region,it.x0,it.y0⟩ inner])
      else regionUpdate n it area

def stretRegionUpdate (region : StretRegion) (clip : Option Region) : Option (List Call) :=
  if .srfActive ∈ region.flags then
    match clip.elim (some region.inside) region.inside.intersect with
    | none => some []
    | some area =>
      let it := StretIteration.init region none
      regionUpdate (it.work+1) it area
  else some []

def drawn (calls : List Call) (p : ℤ × ℤ) : List Visit :=
  (calls.filter fun c => c.Draws p).map Call.visit

def upToOpaque : List Visit → List Visit
  | [] => []
  | v::l => if .srfOpaque ∈ v.region.flags then [v] else v::upToOpaque l

def outputs (p : ℤ × ℤ) (items : List Item) : List Visit :=
  (covering p items).filter fun v => .srfOutput ∈ v.region.flags

theorem drawn_append (l l' : List Call) (p : ℤ × ℤ) : drawn (l++l') p = drawn l p++drawn l' p := by
  simp [drawn]

/-- A call draws the part of the region that is within the area. -/
theorem drawn_update {area inner : Region} {v : Visit}
    (h : area.intersect (v.region.bounds.translated v.x0 v.y0) = some inner) (p : ℤ × ℤ) :
    drawn [update v inner] p = if area.Contains p ∧ v.Covers p then [v] else [] := by
  have hvisit : (update v inner).visit = v := by simp [Call.visit,update]
  have hdraws : (update v inner).Draws p ↔ area.Contains p ∧ v.Covers p := by
    rw [Visit.Covers,← Region.intersect_contains h p]
    simp only [Call.Draws,update,Region.translated,neg_add_cancel_right]
  by_cases hp : (update v inner).Draws p
  · rw [drawn,List.filter_cons_of_pos (by simpa using hp),if_pos (hdraws.mp hp)]
    simp [hvisit]
  · rw [drawn,List.filter_cons_of_neg (by simpa using hp),if_neg (mt hdraws.mpr hp)]
    rfl

/-- At each pixel of the area the regions are drawn up to the topmost one that hides the others. -/
theorem regionUpdate_spec {n : ℕ} (it : StretIteration) (h : Sound it) (ha : it.abort = none)
    (hn : it.work < n) (hneat : Neat (pending it)) {area : Region} (harea : area.Valid) :
    ∃ calls, regionUpdate n it area = some calls ∧ ∀ p, drawn calls p =
      if area.Contains p then (upToOpaque (outputs p (pending it))).reverse else [] := by
  induction n generalizing it area with
  | zero => exact absurd hn (Nat.not_lt_zero _)
  | succ n ih =>
    obtain ⟨r,hr,hasked⟩ := next_spec it h (some area)
    rw [regionUpdate,hr,Option.bind_some]
    cases hasked with
    | ended hy hstop =>
      rw [ha] at hy
      refine ⟨[],rfl,fun p => ?_⟩
      split_ifs with hp
      · rw [outputs,hy.covering_eq hp hneat]
        rfl
      · rfl
    | @returned region it' hy hs ha' hw =>
      rw [ha] at hy
      obtain ⟨hbounds,haccept,hneat'⟩ := hy.returned hneat _ _ rfl
      have hcover : ∀ p, area.Contains p → outputs p (pending it) =
          if .srfOutput ∈ region.flags ∧ (⟨region,it'.x0,it'.y0⟩ : Visit).Covers p then
            ⟨region,it'.x0,it'.y0⟩::outputs p (pending it')
          else outputs p (pending it') := by
        intro p hp
        rw [outputs,hy.covering_eq hp hneat]
        simp only [Option.elim]
        split_ifs <;> simp_all [outputs]
      have hrest := fun {area : Region} (harea : area.Valid) =>
        ih it' hs (ha'.trans ha) (by omega) hneat' harea
      dsimp only
      by_cases houtput : .srfOutput ∈ region.flags
      · rw [if_pos houtput]
        obtain ⟨inner,hinner⟩ : ∃ inner,
            area.intersect (region.bounds.translated it'.x0 it'.y0) = some inner := by
          simp only [acceptRegion,decide_eq_true_eq] at haccept
          exact Option.isSome_iff_exists.mp (haccept.2 area rfl)
        have hvalid := harea.intersect (hbounds.translated it'.x0 it'.y0) hinner
        have hwithin := (Region.intersect_within hinner).1
        rw [Region.intersect_eq_clipTo hinner]
        by_cases hhides : .srfOpaque ∈ region.flags
        · rw [if_pos hhides]
          obtain ⟨css,hcss,hall⟩ := mapM_forall₂ fun side hside =>
            hrest (Region.sides_valid hvalid harea hwithin side hside)
          rw [hcss]
          refine ⟨_,rfl,fun p => ?_⟩
          have hflat : drawn css.flatten p = (inner.sides area).flatMap fun side =>
              if side.Contains p then (upToOpaque (outputs p (pending it'))).reverse else [] :=
            flatten_forall₂ (g := fun cs => drawn cs p) rfl (fun l l' => drawn_append l l' p)
              (hall.imp fun _ _ h => h p)
          rw [drawn_append,hflat,Region.flatMap_sides hvalid.regular hwithin fun _ _ => rfl,
            drawn_update hinner]
          have hmem := Region.intersect_contains hinner p
          by_cases hp : area.Contains p
          · rw [hcover p hp]
            by_cases hv : (⟨region,it'.x0,it'.y0⟩ : Visit).Covers p
            · have hv' : (region.bounds.translated it'.x0 it'.y0).Contains p := hv
              simp [hmem,hp,hv,hv',houtput,upToOpaque,hhides]
            · have hv' : ¬ (region.bounds.translated it'.x0 it'.y0).Contains p := hv
              simp [hmem,hp,hv,hv']
          · simp [hp]
        · rw [if_neg hhides]
          obtain ⟨calls,hcalls,hdrawn⟩ := hrest harea
          rw [hcalls]
          refine ⟨_,rfl,fun p => ?_⟩
          rw [drawn_append,hdrawn,drawn_update hinner]
          by_cases hp : area.Contains p
          · rw [hcover p hp]
            by_cases hv : (⟨region,it'.x0,it'.y0⟩ : Visit).Covers p
            · simp [hp,hv,houtput,upToOpaque,hhides]
            · simp [hp,hv]
          · simp [hp]
      · rw [if_neg houtput]
        obtain ⟨calls,hcalls,hdrawn⟩ := hrest harea
        refine ⟨calls,hcalls,fun p => ?_⟩
        rw [hdrawn]
        split_ifs with hp
        · rw [hcover p hp,if_neg (fun hno => houtput hno.1)]
        · rfl

theorem foldr_upToOpaque {π : Type*} (draw : StretRegion → π → π) (l : List Visit)
    (hdraw : ∀ v ∈ l, .srfOpaque ∈ v.region.flags → ∀ a b, draw v.region a = draw v.region b)
    (a : π) : (upToOpaque l).foldr (fun v b => draw v.region b) a =
      l.foldr (fun v b => draw v.region b) a := by
  induction l with
  | nil => rfl
  | cons v l ih =>
    rw [upToOpaque]
    split_ifs with hhides
    · exact hdraw v List.mem_cons_self hhides _ _
    · rw [List.foldr_cons,List.foldr_cons,ih fun u hu => hdraw u (List.mem_cons_of_mem _ hu)]

def outputsOf (root : StretRegion) (p : ℤ × ℤ) : List Visit :=
  (order root 0 0).filter fun v => .srfOutput ∈ v.region.flags ∧ v.Covers p

/-- Of a root at the origin, with nothing active below a region that is entered without being so, an
update draws at each pixel what is to be seen there, from the topmost region on that hides the
others. So the picture is that of all regions. -/
theorem region_update_paints (root : StretRegion) (hdepth : root.depth ≤ maxDepth)
    (hnested : Nested root) (hactive : .srfActive ∈ root.flags)
    (horigin : root.bounds.x1 = 0 ∧ root.bounds.y1 = 0) (hguarded : Guarded root (maxDepth-1))
    (clip : Option Region) (hclip : ∀ c ∈ clip, c.Valid) :
    ∃ calls, stretRegionUpdate root clip = some calls ∧ ∀ p, drawn calls p =
        (if root.bounds.Contains p ∧ ∀ c ∈ clip, c.Contains p then
          (upToOpaque (outputsOf root p)).reverse else []) ∧
      (root.bounds.Contains p → (∀ c ∈ clip, c.Contains p) →
        ∀ (π : Type) (draw : StretRegion → π → π),
        (∀ v ∈ outputsOf root p, .srfOpaque ∈ v.region.flags →
          ∀ a b, draw v.region a = draw v.region b) →
        ∀ a, (drawn calls p).foldl (fun b v => draw v.region b) a =
          (outputsOf root p).reverse.foldl (fun b v => draw v.region b) a) := by
  have houtputs (p : ℤ × ℤ) : outputs p (pending (init root none)) = outputsOf root p := by
    rw [outputs,covering,pending_init,(seen_descent_iff root 0 0 _).mpr hguarded,List.filter_filter,
      outputsOf]
    apply List.filter_congr
    intro v _
    simp
  have hbounds : root.inside = root.bounds := by
    obtain ⟨hx,hy⟩ := horigin
    rw [inside]
    cases hb : root.bounds
    simp_all
  have hvalid : root.bounds.Valid := by
    obtain ⟨hv,-,-⟩ := hnested
    exact hv
  have hneat : Neat (pending (init root none)) := pending_init root ▸ descent_neat hnested 0 0 _
  have hrun := fun {area : Region} (harea : area.Valid) =>
    regionUpdate_spec _ (init_sound hdepth none) (init_abort root none) (Nat.lt_succ_self _) hneat
      harea
  have hdrawn : ∃ calls, stretRegionUpdate root clip = some calls ∧ ∀ p, drawn calls p =
      if root.bounds.Contains p ∧ ∀ c ∈ clip, c.Contains p then
        (upToOpaque (outputsOf root p)).reverse else [] := by
    rw [stretRegionUpdate,if_pos hactive,hbounds]
    cases clip with
    | none =>
      obtain ⟨calls,hcalls,hdrawn⟩ := hrun hvalid
      refine ⟨calls,hcalls,fun p => ?_⟩
      rw [hdrawn,houtputs]
      simp
    | some c =>
      cases hint : root.bounds.intersect c with
      | none =>
        simp only [Option.elim_some,hint]
        refine ⟨[],rfl,fun p => ?_⟩
        rw [if_neg]
        · rfl
        · rintro ⟨hp,hc⟩
          exact Region.not_contains_of_intersect hint hp (hc c rfl)
      | some area =>
        simp only [Option.elim_some,hint]
        obtain ⟨calls,hcalls,hdrawn⟩ := hrun (hvalid.intersect (hclip c rfl) hint)
        refine ⟨calls,hcalls,fun p => ?_⟩
        rw [hdrawn,houtputs]
        have hmem := Region.intersect_contains hint p
        simp [hmem]
  obtain ⟨calls,hcalls,hdrawn⟩ := hdrawn
  refine ⟨calls,hcalls,fun p => ⟨hdrawn p,fun hp hc π draw hdraw a => ?_⟩⟩
  rw [hdrawn,if_pos ⟨hp,hc⟩,List.foldl_reverse,List.foldl_reverse]
  exact foldr_upToOpaque draw _ hdraw a

def desktop : StretRegion := ⟨0,{.srfActive,.srfOutput},⟨0,0,9,9⟩,
  [[⟨1,{.srfActive,.srfOutput,.srfOpaque},⟨2,2,5,5⟩,[[]]⟩]]⟩

theorem desktop_nested : Nested desktop := by
  refine .intro (by decide) ?_ ?_
  · intro c hc
    obtain rfl := List.mem_singleton.mp hc
    decide
  · intro c hc
    obtain rfl := List.mem_singleton.mp hc
    exact .intro (by decide) (fun c hc => by cases hc) (fun c hc => by cases hc)

/-- Inside the window only it is drawn, and next to it only the root. -/
theorem region_update_paints_window : ∃ calls,
    stretRegionUpdate desktop (some ⟨1,1,8,8⟩) = some calls ∧
    (drawn calls (3,3)).map (fun v => v.region.id) = [1] ∧
    (drawn calls (1,1)).map (fun v => v.region.id) = [0] ∧ drawn calls (0,0) = [] := by
  have hguarded : Guarded desktop (maxDepth-1) := by
    refine ⟨.inl (by decide),fun child hc hsome => ?_⟩
    obtain rfl := Option.some.inj hc
    cases hsome
  obtain ⟨calls,hcalls,hdrawn⟩ := region_update_paints desktop (by decide) desktop_nested (by decide)
    ⟨rfl,rfl⟩ hguarded (some ⟨1,1,8,8⟩) (by decide)
  refine ⟨calls,hcalls,?_,?_,?_⟩
  · rw [(hdrawn (3,3)).1]
    decide
  · rw [(hdrawn (1,1)).1]
    decide
  · rw [(hdrawn (0,0)).1,if_neg (by decide)]

/-- A region is drawn over the root though what it is in is not active. -/
theorem inactive_drawn : ¬ ∀ (root : StretRegion) (clip : Option Region), root.depth ≤ maxDepth →
    Nested root → .srfActive ∈ root.flags → ∃ calls, stretRegionUpdate root clip = some calls ∧
      ∀ p, root.bounds.Contains p → (∀ c ∈ clip, c.Contains p) →
        drawn calls p = (upToOpaque (outputsOf root p)).reverse := by
  intro h
  let leaf : StretRegion := ⟨2,{.srfActive,.srfOutput,.srfOpaque},⟨0,0,9,9⟩,[[]]⟩
  let window : StretRegion := ⟨1,∅,⟨0,0,9,9⟩,[[leaf]]⟩
  let root : StretRegion := ⟨0,{.srfActive,.srfOutput,.srfOpaque},⟨0,0,9,9⟩,[[window]]⟩
  have hleaf : Nested leaf :=
    .intro (by decide) (fun c hc => by cases hc) (fun c hc => by cases hc)
  have hwindow : Nested window := by
    refine .intro (by decide) ?_ ?_
    all_goals
      intro c hc
      obtain rfl : c = leaf := List.mem_singleton.mp hc
    · decide
    · exact hleaf
  have hroot : Nested root := by
    refine .intro (by decide) ?_ ?_
    all_goals
      intro c hc
      obtain rfl : c = window := List.mem_singleton.mp hc
    · decide
    · exact hwindow
  obtain ⟨calls,hcalls,hdrawn⟩ := h root none (by decide) hroot (by decide)
  have hlength := congrArg (fun l => l.map fun v => v.region.id)
    (hdrawn (0,0) (by decide) (by simp))
  have hids : (stretRegionUpdate root none).map
      (fun cs => (drawn cs (0,0)).map fun v => v.region.id) = some [2] := by decide
  rw [hcalls,Option.map_some,Option.some.injEq] at hids
  rw [hids] at hlength
  revert hlength
  decide

end DirectFB.StretUpdate
