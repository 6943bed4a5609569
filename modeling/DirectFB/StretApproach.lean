import DirectFB.StretPixels

/-! An iteration on its way to one region of a stack region tree: what it returns before, at a pixel
of that region, are the regions that are stacked above. -/
namespace DirectFB.StretIteration
open StretRegion

def ids (region : StretRegion) : List ℕ := region.subtree.map StretRegion.id

theorem ids_eq (region : StretRegion) :
    ids region = region.childrenDown.flatMap ids++[region.id] := by
  rw [ids,subtree_eq,List.map_append,List.map_flatMap]
  rfl

theorem id_mem_ids (region : StretRegion) : region.id ∈ ids region := by
  rw [ids_eq]
  simp

theorem ids_subset {region c : StretRegion} (h : c ∈ region.childrenDown) {i : ℕ}
    (hi : i ∈ ids c) : i ∈ ids region := by
  rw [ids_eq]
  exact List.mem_append_left _ (List.mem_flatMap.mpr ⟨c,h,hi⟩)

section Approach

variable (target : StretRegion) (children : Bool) (p : ℤ × ℤ)

/-- A way from a region down to the target, all of it active and over the pixel, with what is
stacked above on the way. -/
inductive Leads : StretRegion → ℤ → ℤ → List Visit → ℤ → ℤ → Prop
  | here {x0 y0 : ℤ} : .srfActive ∈ target.flags → (⟨target,x0,y0⟩ : Visit).Covers p →
    Leads target x0 y0 [] x0 y0
  | child {region c : StretRegion} {x0 y0 x y : ℤ} {l l' : List StretRegion} {higher : List Visit} :
    .srfActive ∈ region.flags → (⟨region,x0,y0⟩ : Visit).Covers p →
    region.childrenDown = l++c::l' →
    Leads c (x0+region.bounds.x1) (y0+region.bounds.y1) higher x y →
    Leads region x0 y0
      ((l.flatMap fun d => order d (x0+region.bounds.x1) (y0+region.bounds.y1))++higher) x y

def above (higher : List Visit) (x y : ℤ) : List Visit :=
  if children then higher
  else higher++target.childrenDown.flatMap fun c =>
    order c (x+target.bounds.x1) (y+target.bounds.y1)

def Item.Avoids : Item → Prop
  | .enter region _ _ => target.id ∉ ids region
  | .leave region _ _ => target.id ≠ region.id

/-- The iteration is on its way to the target, which is returned unless its children are left out.
-/
inductive Approach : List Item → List Visit → Prop
  | entering {pre rest : List Item} {region : StretRegion} {x0 y0 x y : ℤ} {higher : List Visit} :
    (∀ item ∈ pre, item.Avoids target) → Neat pre → (ids region).Nodup →
    Leads target p region x0 y0 higher x y →
    Approach (pre++.enter region x0 y0::rest) (seen pre++above target children higher x y)
  | leaving {pre rest : List Item} {x0 y0 : ℤ} :
    (∀ item ∈ pre, item.Avoids target) → Neat pre → children = false →
    .srfActive ∈ target.flags → (⟨target,x0,y0⟩ : Visit).Covers p →
    Approach (pre++.leave target x0 y0::rest) (seen pre)
  | arrived {pre : List Item} : (∀ item ∈ pre, item.Avoids target) → Neat pre →
    Approach pre (seen pre)

variable {target : StretRegion} {children : Bool} {p : ℤ × ℤ}

variable {region c : StretRegion} {x0 y0 x y : ℤ} {i : ℕ} {T : List Visit}
  {frame : StretIterationStackFrame}

theorem Leads.mem_ids {higher : List Visit}
    (h : Leads target p region x0 y0 higher x y) : target.id ∈ ids region := by
  induction h with
  | here => exact id_mem_ids _
  | child _ _ heq _ ih => exact ids_subset (heq ▸ List.mem_append_right _ List.mem_cons_self) ih

theorem Leads.active {higher : List Visit}
    (h : Leads target p region x0 y0 higher x y) : .srfActive ∈ region.flags := by
  cases h with
  | here hactive => exact hactive
  | child hactive => exact hactive

theorem Leads.covers {higher : List Visit}
    (h : Leads target p region x0 y0 higher x y) : (⟨region,x0,y0⟩ : Visit).Covers p := by
  cases h with
  | here _ hcovers => exact hcovers
  | child _ hcovers => exact hcovers

theorem avoids_within (h : target.id ∉ ids region) {l : List StretRegion}
    (hl : ∀ c ∈ l, c ∈ region.childrenDown) (x0 y0 : ℤ) :
    ∀ item ∈ within l region x0 y0, item.Avoids target := by
  intro item hitem
  simp only [within,List.mem_append,List.mem_map,List.mem_singleton] at hitem
  rcases hitem with ⟨c,hc,rfl⟩ | rfl
  · exact fun hmem => h (ids_subset (hl c hc) hmem)
  · intro heq
    apply h
    rw [heq]
    exact id_mem_ids region

theorem not_mem_before {l l' : List StretRegion}
    (h : (ids region).Nodup) (heq : region.childrenDown = l++c::l') (hi : i ∈ ids c) :
    ∀ d ∈ l, i ∉ ids d := by
  intro d hd hmem
  rw [ids_eq,heq,List.flatMap_append,List.flatMap_cons] at h
  have hdisjoint := (List.nodup_append.mp (List.nodup_append.mp h).1).2.2
  exact hdisjoint i (List.mem_flatMap.mpr ⟨d,hd,hmem⟩) i (List.mem_append_left _ hi) rfl

theorem nodup_child (h : (ids region).Nodup)
    (hc : c ∈ region.childrenDown) : (ids c).Nodup := by
  rw [ids_eq] at h
  have := (List.nodup_append.mp h).1
  exact (List.nodup_flatMap.mp this).1 c hc

theorem not_mem_child (h : (ids region).Nodup)
    (hc : c ∈ region.childrenDown) : region.id ∉ ids c := by
  intro hmem
  rw [ids_eq] at h
  exact (List.nodup_append.mp h).2.2 _ (List.mem_flatMap.mpr ⟨c,hc,hmem⟩) _
    (List.mem_singleton_self _) rfl

theorem seen_cons (item : Item) (items : List Item) : seen (item::items) = seen [item]++seen items :=
  seen_append [item] items

theorem above_append (l higher : List Visit) (x y : ℤ) :
    above target children (l++higher) x y = l++above target children higher x y := by
  rw [above,above]
  split_ifs
  · rfl
  · rw [List.append_assoc]

theorem Approach.prepend {pre items : List Item}
    (hpre : ∀ item ∈ pre, item.Avoids target) (hneat : Neat pre)
    (h : Approach target children p items T) :
    Approach target children p (pre++items) (seen pre++T) := by
  cases h with
  | @entering pre' rest region x0 y0 x y higher hpre' hneat' hnodup hleads =>
    rw [← List.append_assoc,← List.append_assoc,← seen_append]
    exact .entering (fun item hitem => (List.mem_append.mp hitem).elim (hpre item) (hpre' item))
      (hneat.append hneat') hnodup hleads
  | @leaving pre' rest x0 y0 hpre' hneat' hchildren hactive hcovers =>
    rw [← List.append_assoc,← seen_append]
    exact .leaving (fun item hitem => (List.mem_append.mp hitem).elim (hpre item) (hpre' item))
      (hneat.append hneat') hchildren hactive hcovers
  | arrived hpre' hneat' =>
    rw [← seen_append]
    exact .arrived (fun item hitem => (List.mem_append.mp hitem).elim (hpre item) (hpre' item))
      (hneat.append hneat')

/-- The first item is passed on the way, or it is where the way leads on. -/
theorem Approach.cons {item : Item} {rest : List Item}
    (h : Approach target children p (item::rest) T) :
    (∃ T', item.Avoids target ∧ item.Neat ∧ Approach target children p rest T' ∧
      T = seen [item]++T') ∨
    (∃ region x0 y0 x y higher, item = .enter region x0 y0 ∧ (ids region).Nodup ∧
      Leads target p region x0 y0 higher x y ∧ T = above target children higher x y) ∨
    ∃ x0 y0, item = .leave target x0 y0 ∧ .srfActive ∈ target.flags ∧
      (⟨target,x0,y0⟩ : Visit).Covers p ∧ T = [] := by
  generalize hitems : item::rest = items at h
  cases h with
  | @entering pre rest' region x0 y0 x y higher hpre hneat hnodup hleads =>
    cases pre with
    | nil =>
      obtain ⟨rfl,-⟩ := List.cons.inj hitems
      exact .inr (.inl ⟨region,x0,y0,x,y,higher,rfl,hnodup,hleads,rfl⟩)
    | cons first pre =>
      obtain ⟨rfl,rfl⟩ := List.cons.inj hitems
      refine .inl ⟨_,hpre _ List.mem_cons_self,hneat _ List.mem_cons_self,
        .entering (fun i hi => hpre i (List.mem_cons_of_mem _ hi)) hneat.tail hnodup hleads,?_⟩
      rw [seen_cons item pre,List.append_assoc]
  | @leaving pre rest' x0 y0 hpre hneat hchildren hactive hcovers =>
    cases pre with
    | nil =>
      obtain ⟨rfl,-⟩ := List.cons.inj hitems
      exact .inr (.inr ⟨x0,y0,rfl,hactive,hcovers,rfl⟩)
    | cons first pre =>
      obtain ⟨rfl,rfl⟩ := List.cons.inj hitems
      refine .inl ⟨_,hpre _ List.mem_cons_self,hneat _ List.mem_cons_self,
        .leaving (fun i hi => hpre i (List.mem_cons_of_mem _ hi)) hneat.tail hchildren hactive
          hcovers,seen_cons item pre⟩
  | arrived hpre hneat =>
    obtain rfl := hitems
    exact .inl ⟨_,hpre _ List.mem_cons_self,hneat _ List.mem_cons_self,
      .arrived (fun i hi => hpre i (List.mem_cons_of_mem _ hi)) hneat.tail,seen_cons item rest⟩

/-- Where the way leads on when its region is entered. -/
theorem Leads.enter {higher : List Visit}
    (h : Leads target p region x0 y0 higher x y) (hnested : Nested region)
    (hnodup : (ids region).Nodup) (hno : children = true → target.id ≠ region.id)
    (rest : List Item) :
    Approach target children p (within region.childrenDown region x0 y0++rest)
      (above target children higher x y) := by
  obtain ⟨-,-,hchildren⟩ := hnested
  cases h with
  | here hactive hcovers =>
    have hfalse : children = false := by
      cases children with
      | false => rfl
      | true => exact absurd rfl (hno rfl)
    have hseen := seen_enter target.childrenDown (x0+target.bounds.x1) (y0+target.bounds.y1)
    rw [within,List.append_assoc,above,if_neg (by simp [hfalse]),List.nil_append,← hseen]
    refine .leaving ?_ ?_ hfalse hactive hcovers
    all_goals
      intro item hitem
      obtain ⟨c,hc,rfl⟩ := List.mem_map.mp hitem
    · exact not_mem_child hnodup hc
    · exact hchildren c hc
  | @child _ c _ _ _ _ l l' higher hactive hcovers heq hleads =>
    have hseen := seen_enter l (x0+region.bounds.x1) (y0+region.bounds.y1)
    have hc : c ∈ region.childrenDown := heq ▸ List.mem_append_right _ List.mem_cons_self
    have hbefore := not_mem_before hnodup heq hleads.mem_ids
    rw [within,heq,List.map_append,List.map_cons,List.append_assoc,List.append_assoc,above_append,
      ← hseen]
    refine .entering ?_ ?_ (nodup_child hnodup hc) hleads
    all_goals
      intro item hitem
      obtain ⟨d,hd,rfl⟩ := List.mem_map.mp hitem
    · exact hbefore d hd
    · exact hchildren d (heq ▸ List.mem_append_left _ hd)

variable (target children p) in
/-- What the next region is for a pixel of the clip: the target, with nothing above it there any
more, or one that is passed on the way. -/
inductive Passes : Option (Visit × List Item) → List Visit → Prop
  | ended {T : List Visit} : (T.filter fun v => v.Covers p) = [] → Passes none T
  | target {v : Visit} {rest : List Item} {T : List Visit} : v.region.id = target.id →
    (T.filter fun v => v.Covers p) = [] → Passes (some (v,rest)) T
  | passed {v : Visit} {rest : List Item} {T T' : List Visit} : v.region.id ≠ target.id →
    Approach target children p rest T' →
    (T.filter fun v => v.Covers p) =
      (if v.Covers p then [v] else [])++T'.filter (fun v => v.Covers p) →
    Passes (some (v,rest)) T

theorem Passes.prepend {r : Option (Visit × List Item)} {l : List Visit}
    (hl : (l.filter fun v => v.Covers p) = []) (h : Passes target children p r T) :
    Passes target children p r (l++T) := by
  have hfilter : ((l++T).filter fun v => v.Covers p) = T.filter fun v => v.Covers p := by
    rw [List.filter_append,hl,List.nil_append]
  cases h with
  | ended hnil => exact .ended (hfilter.trans hnil)
  | target hid hnil => exact .target hid (hfilter.trans hnil)
  | passed hid happroach heq => exact .passed hid happroach (hfilter.trans heq)

theorem avoids_append {pre pre' : List Item} (h : ∀ item ∈ pre, item.Avoids target)
    (h' : ∀ item ∈ pre', item.Avoids target) : ∀ item ∈ pre++pre', item.Avoids target :=
  fun item hitem => (List.mem_append.mp hitem).elim (h item) (h' item)

theorem avoids_descent (h : target.id ∉ ids region) (x0 y0 : ℤ)
    (left : ℕ) : ∀ item ∈ descent region x0 y0 left, item.Avoids target := by
  induction left generalizing region x0 y0 with
  | zero => exact avoids_within h (fun _ => id) x0 y0
  | succ left ih =>
    rw [descent]
    cases hc : lastChild region with
    | none => exact avoids_within h (fun _ => id) x0 y0
    | some child =>
      dsimp only
      split_ifs
      · have hchildren := childrenDown_of_lastChild hc
        have hchild : target.id ∉ ids child :=
          fun hmem => h (ids_subset (hchildren ▸ List.mem_cons_self) hmem)
        exact avoids_append (ih hchild _ _)
          (avoids_within h (fun c hc => hchildren ▸ List.mem_cons_of_mem _ hc) x0 y0)
      · exact avoids_within h (fun _ => id) x0 y0

/-- The descent to last children is on its way to the target, if that is not left out on the descent
itself. -/
theorem Leads.descent {higher : List Visit}
    (h : Leads target p region x0 y0 higher x y) (hnested : Nested region)
    (hnodup : (ids region).Nodup) (left : ℕ) (hguarded : Guarded region left)
    (hno : children = true → ∀ frame ∈ descentFrames region left, target.id ≠ frame.region.id)
    (rest : List Item) :
    Approach target children p (descent region x0 y0 left++rest)
      (above target children higher x y) := by
  induction left generalizing region x0 y0 higher rest with
  | zero => exact h.enter hnested hnodup (fun hc => hno hc _ List.mem_cons_self) rest
  | succ left ih =>
    rw [descentFrames] at hno
    rw [descent]
    cases hc : lastChild region with
    | none =>
      rw [hc] at hno
      exact h.enter hnested hnodup (fun hc => hno hc _ List.mem_cons_self) rest
    | some child =>
      rw [hc] at hno
      dsimp only at hno ⊢
      split_ifs at hno ⊢ with hsome
      · have hchildren := childrenDown_of_lastChild hc
        have hmem : child ∈ region.childrenDown := hchildren ▸ List.mem_cons_self
        have hbelow := hguarded.2 child hc hsome
        obtain ⟨-,-,hall⟩ := hnested
        have hneat := descent_neat (hall child hmem) (x0+region.bounds.x1) (y0+region.bounds.y1) left
        have hseen := (seen_descent_iff child (x0+region.bounds.x1) (y0+region.bounds.y1) left).mpr
          hbelow
        cases h with
        | here hactive hcovers =>
          have hfalse : children = false := by
            cases children with
            | false => rfl
            | true => exact absurd rfl (hno rfl _ (List.mem_append_right _ List.mem_cons_self))
          have hahead := seen_enter (ahead (lastFrame target)) (x+target.bounds.x1)
            (y+target.bounds.y1)
          rw [above,if_neg (by simp [hfalse]),List.nil_append,hchildren,List.flatMap_cons,← hseen,
            ← hahead,← seen_append,within,← List.append_assoc,List.append_assoc]
          refine .leaving (avoids_append (avoids_descent (not_mem_child hnodup hmem) _ _ left) ?_)
            (hneat.append ?_) hfalse hactive hcovers
          all_goals
            intro item hitem
            obtain ⟨c,hc,rfl⟩ := List.mem_map.mp hitem
            have hc : c ∈ target.childrenDown := hchildren ▸ List.mem_cons_of_mem _ hc
          · exact not_mem_child hnodup hc
          · exact hall c hc
        | @child _ c _ _ _ _ l l' higher hactive hcovers heq hleads =>
          cases l with
          | nil =>
            obtain ⟨rfl,rfl⟩ := List.cons.inj (hchildren.symm.trans heq)
            rw [List.append_assoc]
            exact ih hleads (hall _ hmem) (nodup_child hnodup hmem) hbelow
              (fun hc frame hframe => hno hc frame (List.mem_append_left _ hframe)) _
          | cons d l =>
            obtain ⟨rfl,htail⟩ := List.cons.inj (hchildren.symm.trans heq)
            have hc : c ∈ region.childrenDown := heq ▸ List.mem_append_right _ List.mem_cons_self
            have hbefore := not_mem_before hnodup heq hleads.mem_ids
            have htail : ahead (lastFrame region) = l++c::l' := htail
            have hahead := seen_enter l (x0+region.bounds.x1) (y0+region.bounds.y1)
            rw [above_append,List.flatMap_cons,← hseen,← hahead,← seen_append,within,htail,
              List.map_append,List.map_cons,← List.append_assoc,← List.append_assoc,
              List.append_assoc _ [Item.leave region x0 y0],List.append_assoc,List.cons_append]
            refine .entering (avoids_append (avoids_descent (hbefore _ List.mem_cons_self) _ _ left)
              ?_) (hneat.append ?_) (nodup_child hnodup hc) hleads
            all_goals
              intro item hitem
              obtain ⟨d,hd,rfl⟩ := List.mem_map.mp hitem
            · exact hbefore d (List.mem_cons_of_mem _ hd)
            · exact hall d (heq ▸ List.mem_append_left _ (List.mem_cons_of_mem _ hd))
      · exact h.enter hnested hnodup (fun hc => hno hc _ List.mem_cons_self) rest

theorem initLoop_abort_eq (stack : List StretIterationStackFrame) (x0 y0 : ℤ)
    (abort : Option ℕ) (region : StretRegion) (left : ℕ) :
    initLoop ⟨stack,x0,y0,abort⟩ region left =
      {initLoop ⟨stack,x0,y0,none⟩ region left with abort := abort} := by
  induction left generalizing stack x0 y0 region with
  | zero => rfl
  | succ left ih =>
    rw [initLoop,initLoop]
    cases lastChild region with
    | none => rfl
    | some child =>
      dsimp only
      split_ifs
      · exact ih _ _ _ child
      · rfl

theorem init_abort_eq (root : StretRegion) (abort : Option ℕ) :
    init root abort = {init root none with abort := abort} := by
  rw [init,initLoop_abort_eq,init]
  simp only [restore]
  split
  · next h => simp only [h]
  · next h => simp only [h]

theorem pendingFrames_of_ne {stack : List StretIterationStackFrame}
    (h : ∀ frame ∈ stack, frame.region.id ≠ i) (x0 y0 : ℤ) :
    pendingFrames (some i) stack x0 y0 = pendingFrames none stack x0 y0 := by
  induction stack generalizing x0 y0 with
  | nil => rfl
  | cons frame stack ih =>
    have hne : some i ≠ some frame.region.id :=
      fun heq => h frame List.mem_cons_self (Option.some.inj heq).symm
    rw [pendingFrames,pendingFrames,if_neg hne,if_neg (by simp),
      ih fun f hf => h f (List.mem_cons_of_mem _ hf)]

theorem descentFrames_ne_nil (region : StretRegion) (left : ℕ) : descentFrames region left ≠ [] := by
  cases left with
  | zero => exact List.cons_ne_nil _ _
  | succ left =>
    rw [descentFrames]
    cases lastChild region with
    | none => exact List.cons_ne_nil _ _
    | some child =>
      dsimp only
      split_ifs
      · exact List.append_ne_nil_of_right_ne_nil _ (List.cons_ne_nil _ _)
      · exact List.cons_ne_nil _ _

theorem mem_ids_of_descentFrames {left : ℕ} (h : frame ∈ descentFrames region left) :
    frame.region.id ∈ ids region := by
  have hself (region : StretRegion) : (lastFrame region).region.id ∈ ids region := id_mem_ids region
  induction left generalizing region with
  | zero =>
    rw [List.mem_singleton.mp h]
    exact hself region
  | succ left ih =>
    rw [descentFrames] at h
    cases hc : lastChild region with
    | none =>
      rw [hc] at h
      rw [List.mem_singleton.mp h]
      exact hself region
    | some child =>
      rw [hc] at h
      dsimp only at h
      split_ifs at h
      · rcases List.mem_append.mp h with h | h
        · have hmem : child ∈ region.childrenDown :=
            childrenDown_of_lastChild hc ▸ List.mem_cons_self
          exact ids_subset hmem (ih h)
        · rw [List.mem_singleton.mp h]
          exact hself region
      · rw [List.mem_singleton.mp h]
        exact hself region

theorem Leads.eq_nil_of_id {higher : List Visit}
    (h : Leads target p region x0 y0 higher x y) (hnodup : (ids region).Nodup)
    (hid : region.id = target.id) : higher = [] := by
  cases h with
  | here => rfl
  | child _ _ hsplit hleads =>
    have hc := hsplit ▸ List.mem_append_right _ List.mem_cons_self
    exact absurd (hid ▸ hleads.mem_ids) (not_mem_child hnodup hc)

theorem Leads.eq_nil_of_head {higher : List Visit}
    (h : Leads target p region x0 y0 higher x y) (hnodup : (ids region).Nodup) {left : ℕ} (hframe : (descentFrames region left).head? = some frame)
    (hid : frame.region.id = target.id) : higher = [] := by
  induction left generalizing region x0 y0 higher with
  | zero =>
    obtain rfl := Option.some.inj hframe
    exact h.eq_nil_of_id hnodup hid
  | succ left ih =>
    rw [descentFrames] at hframe
    cases hc : lastChild region with
    | none =>
      rw [hc] at hframe
      obtain rfl := Option.some.inj hframe
      exact h.eq_nil_of_id hnodup hid
    | some child =>
      rw [hc] at hframe
      dsimp only at hframe
      split_ifs at hframe
      · rw [List.head?_append_of_ne_nil _ (descentFrames_ne_nil child left)] at hframe
        have hmem : target.id ∈ ids child :=
          hid ▸ mem_ids_of_descentFrames (List.mem_of_head? hframe)
        have hchildren := childrenDown_of_lastChild hc
        have hchild : child ∈ region.childrenDown := hchildren ▸ List.mem_cons_self
        cases h with
        | here => exact absurd hmem (not_mem_child hnodup hchild)
        | @child _ c _ _ _ _ l l' higher _ _ hsplit hleads =>
          cases l with
          | nil =>
            obtain ⟨rfl,-⟩ := List.cons.inj (hchildren.symm.trans hsplit)
            exact ih hleads (nodup_child hnodup hchild) hframe
          | cons d l =>
            obtain ⟨rfl,-⟩ := List.cons.inj (hchildren.symm.trans hsplit)
            exact absurd hmem (not_mem_before hnodup hsplit hleads.mem_ids _ List.mem_cons_self)
      · obtain rfl := Option.some.inj hframe
        exact h.eq_nil_of_id hnodup hid

theorem mem_restore {it : StretIteration}
    (h : frame ∈ (restore it).stack) : ∃ f ∈ it.stack, f.region = frame.region := by
  rw [restore] at h
  split at h
  · next hnil =>
    rw [hnil] at h
    cases h
  · next first stack heq =>
    rw [heq]
    rcases List.mem_cons.mp h with rfl | h
    · exact ⟨first,List.mem_cons_self,rfl⟩
    · exact ⟨frame,List.mem_cons_of_mem _ h,rfl⟩

def passedFrames (root : StretRegion) : List StretIterationStackFrame :=
  (descentFrames root (maxDepth-1)).tail

/-- A new iteration is on its way to the target. If it is to end there, the descent must not have
gone through it. -/
theorem Leads.init {root : StretRegion} {higher : List Visit}
    (h : Leads target p root 0 0 higher x y) (hnested : Nested root) (hnodup : (ids root).Nodup)
    (hguarded : Guarded root (maxDepth-1))
    (hno : children = true → ∀ frame ∈ passedFrames root, frame.region.id ≠ target.id) :
    Approach target children p (pending (init root (if children then some target.id else none)))
      (above target children higher x y) := by
  have hstack : (StretIteration.init root none).stack =
      (restore (initLoop ⟨[],0,0,none⟩ root (maxDepth-1))).stack := rfl
  have hframes := initLoop_frames ⟨[],0,0,none⟩ root (maxDepth-1)
  rw [List.append_nil] at hframes
  have hplain (hfree : children = true → ∀ frame ∈ descentFrames root (maxDepth-1),
      target.id ≠ frame.region.id) : Approach target children p
      (pending (StretIteration.init root none)) (above target children higher x y) := by
    rw [pending_init,← List.append_nil (StretIteration.descent root 0 0 (maxDepth-1))]
    exact h.descent hnested hnodup _ hguarded hfree []
  cases children with
  | false =>
    rw [if_neg (by simp)]
    exact hplain (by simp)
  | true =>
    rw [if_pos rfl]
    by_cases hfree : ∀ frame ∈ descentFrames root (maxDepth-1), target.id ≠ frame.region.id
    · have hpending : pending (StretIteration.init root (some target.id)) =
          pending (StretIteration.init root none) := by
        rw [init_abort_eq root (some target.id),pending,pending,init_abort]
        refine pendingFrames_of_ne (fun frame hframe => ?_) _ _
        obtain ⟨f,hf,heq⟩ := mem_restore (hstack ▸ hframe)
        rw [hframes] at hf
        rw [← heq]
        exact (hfree f hf).symm
      rw [hpending]
      exact hplain fun _ => hfree
    · -- the target is where the descent ends, and nothing is pending
      obtain ⟨first,rest,heq⟩ := List.exists_cons_of_ne_nil (descentFrames_ne_nil root (maxDepth-1))
      have hid : first.region.id = target.id := by
        simp only [ne_eq,not_forall,not_not] at hfree
        obtain ⟨frame,hframe,hid⟩ := hfree
        rw [heq] at hframe
        rcases List.mem_cons.mp hframe with rfl | hframe
        · exact hid.symm
        · refine absurd hid.symm (hno rfl frame ?_)
          rw [passedFrames,heq]
          exact hframe
      have hhigher := h.eq_nil_of_head hnodup (by rw [heq]; rfl) hid
      have hpending : pending (StretIteration.init root (some target.id)) = [] := by
        have hlast : (StretIteration.init root none).stack =
            {first with index := first.index+1}::rest := by
          rw [hstack,restore,hframes,heq]
        rw [init_abort_eq root (some target.id),pending]
        simp only [hlast]
        rw [pendingFrames,if_pos (by rw [hid])]
      rw [hpending,above,if_pos rfl,hhigher]
      exact .arrived (by simp) .nil

end Approach

end DirectFB.StretIteration
