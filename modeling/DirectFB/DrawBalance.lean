import DirectFB.GfxcardDraw

/-! What the drawing functions of the card hold in the course of a call: the lock of the state, and
the state as it is acquired for the driver. -/
namespace DirectFB.GfxcardDraw

open Clip

def hold : ℕ × Bool → Mark → Option (ℕ × Bool)
  | (n,h), .lock => some (n+1,h)
  | (n,h), .unlock => if n = 0 then none else some (n-1,h)
  | (n,h), .acquired _ => if h then none else some (n,true)
  | (n,h), .released => if h then some (n,false) else none
  | s, _ => some s

def Balanced (marks : List Mark) : Prop := marks.foldlM hold (0,false) = some (0,false)

instance (marks : List Mark) : Decidable (Balanced marks) :=
  inferInstanceAs (Decidable (_ = _))

def Leads (h h' : Bool) (marks : List Mark) : Prop :=
  ∀ n, marks.foldlM hold (n,h) = some (n,h')

section Leading

variable {h h' h'' : Bool} {l l' : List Mark}

theorem Leads.balanced (hl : Leads false false l) : Balanced l := hl 0

theorem leads_nil : Leads h h [] := fun _ => rfl

theorem Leads.append (hl : Leads h h' l) (hl' : Leads h' h'' l') : Leads h h'' (l++l') := by
  intro n
  rw [List.foldlM_append,hl n]
  exact hl' n

theorem Leads.cons {m : Mark} (hm : Leads h h' [m]) (hl : Leads h' h'' l) : Leads h h'' (m::l) :=
  hm.append hl

theorem leads_driver (i : ℕ) (s : Shape) (b : Bool) : Leads h h [.driver i s b] := fun _ => rfl

theorem leads_software (i : ℕ) (s : Shape) : Leads h h [.software i s] := fun _ => rfl

theorem leads_acquired (accel : Accel) : Leads false true [.acquired accel] := fun _ => rfl

theorem leads_released : Leads true false [.released] := fun _ => rfl

theorem Leads.locked (hl : Leads h h' l) : Leads h h' (locked l) := by
  intro n
  change (l++[Mark.unlock]).foldlM hold (n+1,h) = _
  rw [List.foldlM_append,hl (n+1)]
  rfl

theorem leads_map {β : Type*} (f : β → Mark) (hf : ∀ b, Leads h h [f b]) (l : List β) :
    Leads h h (l.map f) := by
  induction l with
  | nil => exact leads_nil
  | cons b l ih => exact (hf b).cons ih

theorem leads_flatMap {β : Type*} (f : β → List Mark) (hf : ∀ b, Leads h h (f b)) (l : List β) :
    Leads h h (l.flatMap f) := by
  induction l with
  | nil => exact leads_nil
  | cons b l ih =>
    rw [List.flatMap_cons]
    exact (hf b).append ih

theorem leads_ite {p : Prop} [Decidable p] (hl : p → Leads h h' l) (hl' : ¬p → Leads h h' l') :
    Leads h h' (if p then l else l') := by
  split
  · exact hl ‹_›
  · exact hl' ‹_›

variable {α : Type*}

theorem leads_drive (accept : ℕ → Bool) (attempt : α → Attempt α) (ps : List (ℕ × α)) :
    Leads h h (drive accept attempt ps).2 := by
  induction ps with
  | nil => exact leads_nil
  | cons p ps ih =>
    rw [drive]
    cases attempt p.2 with
    | skip => exact ih
    | stop => exact leads_nil
    | call s q =>
      dsimp only
      split
      · exact (leads_driver _ _ _).cons ih
      · exact leads_driver _ _ _

theorem leads_draw (shapes : α → List Shape) (ps : List (ℕ × α)) : Leads h h (draw shapes ps) :=
  leads_flatMap _ (fun _ => leads_map _ (leads_software _) _) ps

theorem leads_withSoftware (e : Env) (q : Question) (hl : Leads h h l) :
    Leads h h (withSoftware e q l) := leads_ite (fun _ => hl) fun _ => leads_nil

theorem leads_withState (e : Env) (q : Question) (ps : List (ℕ × α))
    (loop : List (ℕ × α) → List (ℕ × α) × List Mark) (hloop : Leads true true (loop ps).2) :
    Leads false false (withState e q ps loop).2 := by
  unfold withState
  split
  · exact ((leads_acquired _).cons hloop).append leads_released
  · exact leads_nil

end Leading

section Functions

variable (e : Env)

theorem leads_fillrectanglesWith (depth : ℕ) {fallback : List (ℕ × Rect) → List Mark}
    (hf : ∀ ps, Leads false false (fallback ps)) (rects : List Rect) :
    Leads false false (fillrectanglesWith e depth fallback rects) := by
  unfold fillrectanglesWith
  dsimp only
  split
  · exact leads_nil.locked
  · refine ((leads_withState _ _ _ _ (leads_drive _ _ _)).append ?_).locked
    exact leads_ite (fun _ => leads_nil) fun _ => hf _

theorem leads_fillrectanglesPlain (depth : ℕ) (rects : List Rect) :
    Leads false false (fillrectanglesPlain e depth rects) :=
  leads_fillrectanglesWith _ _ (fun _ => leads_withSoftware _ _ (leads_draw _ _)) _

theorem leads_fillrectangles (rects : List Rect) : Leads false false (fillrectangles e rects) := by
  unfold fillrectangles
  split
  · exact leads_fillrectanglesPlain e 0 rects
  · refine leads_fillrectanglesWith e 0 (fun ps => leads_ite (fun _ => ?_) fun _ => ?_) rects
    · dsimp only
      exact leads_ite (fun _ => leads_nil) fun _ => leads_fillrectanglesPlain e 1 _
    · exact leads_withSoftware _ _ (leads_draw _ _)

theorem leads_drawrectangle (rect : Rect) : Leads false false (drawrectangle e rect) := by
  unfold drawrectangle
  split
  · exact leads_nil.locked
  extract_lets outline whole
  have hwhole : Leads false false whole.2 := by
    dsimp only [whole]
    split
    · exact leads_withState _ _ _ _ (leads_drive _ _ _)
    · exact leads_nil
  clear_value whole
  split
  · exact hwhole.locked
  split
  · split
    · exact hwhole.locked
    · refine ((hwhole.append (leads_withState _ _ _ _ (leads_drive _ _ _))).append ?_).locked
      exact leads_ite (fun _ => leads_nil) fun _ => leads_withSoftware _ _ (leads_draw _ _)
  · exact (hwhole.append (leads_withSoftware _ _ (leads_draw _ _))).locked

theorem leads_drawlines (lines : List Region) : Leads false false (drawlines e lines) := by
  refine ((leads_withState _ _ _ _ (leads_drive _ _ _)).append ?_).locked
  exact leads_ite (fun _ => leads_nil) fun _ => leads_withSoftware _ _ (leads_draw _ _)

theorem leads_executed {h : Bool} (batch : List (ℕ × Shape)) (done : Option ℕ) :
    Leads h h (executed batch done) := by
  cases done with
  | none => exact leads_map _ (fun _ => leads_driver _ _ _) _
  | some n => exact leads_map _ (fun _ => leads_driver _ _ _) _

theorem leads_spansLoop (ps : List (ℕ × Rect)) : Leads true true (spansLoop e ps).2 := by
  unfold spansLoop
  dsimp only
  split
  · exact (leads_executed _ _).append (leads_drive _ _ _)
  · exact leads_drive _ _ _

theorem leads_fillspans (y : ℤ) (spans : List (ℤ × ℤ)) :
    Leads false false (fillspans e y spans) := by
  refine ((leads_withState e _ _ (spansLoop e) (leads_spansLoop e _)).append ?_).locked
  exact leads_ite (fun _ => leads_nil) fun _ => leads_withSoftware _ _ (leads_draw _ _)

theorem clippedTriangles_cons (i : ℕ) (t : Triangle) (ts : List (ℕ × Triangle)) :
    clippedTriangles e ((i,t)::ts) = match (clipTriangle e.clip t).map fan with
    | none | some [] => clippedTriangles e ts
    | some (first::rest) =>
      if e.accept ⟨.fillTriangle,i,0,0⟩ then
        let r := clippedTriangles e ts
        (r.1,.driver i (.triangle first) true::rest.zipIdx.map (fun p =>
          .driver i (.triangle p.1) (e.accept ⟨.fillTriangle,i,p.2+1,0⟩))++r.2)
      else ((i,t)::ts,[.driver i (.triangle first) false]) := rfl

theorem leads_clippedTriangles {h : Bool} (ts : List (ℕ × Triangle)) :
    Leads h h (clippedTriangles e ts).2 := by
  induction ts with
  | nil => exact leads_nil
  | cons p ts ih =>
    rw [clippedTriangles_cons]
    split
    · exact ih
    · exact ih
    · split
      · dsimp only
        exact ((leads_driver _ _ _).cons (leads_map _ (fun _ => leads_driver _ _ _) _)).append ih
      · exact leads_driver _ _ _

theorem leads_emulate {h : Bool} (ts : List (ℕ × Triangle)) : Leads h h (emulate e ts) :=
  leads_flatMap _ (fun _ => leads_map _ (fun _ => leads_driver _ _ _) _) ts

theorem leads_filltriangles (tris : List Triangle) : Leads false false (filltriangles e tris) := by
  refine ((leads_withState _ _ _ _ ?_).append ?_).locked
  · split
    · exact leads_clippedTriangles e _
    · exact leads_drive _ _ _
  · refine leads_ite (fun _ => leads_nil) fun _ => leads_ite (fun _ => ?_) fun _ => ?_
    · exact ((leads_acquired _).cons (leads_emulate e _)).append leads_released
    · exact leads_withSoftware _ _ (leads_draw _ _)

theorem leads_drawMonoGlyphs (num : ℕ) : Leads false false (drawMonoGlyphs e num) := by
  refine (leads_ite (fun _ => ?_) fun _ => leads_nil).locked
  exact ((leads_acquired _).cons (leads_map _ (fun _ => leads_driver _ _ _) _)).append
    leads_released

theorem leads_textureTriangles : Leads false false (textureTriangles e) := by
  have hdriver : Leads false false (if e.clipping .texTriangles then
      withState e ⟨.texTriangles,0,0,0⟩ [(0,())]
        (drive (fun i => e.accept ⟨.texTriangles,i,0,0⟩) fun u => .call .texture u)
      else ([(0,())],[])).2 := by
    split
    · exact leads_withState _ _ _ _ (leads_drive _ _ _)
    · exact leads_nil
  exact (hdriver.append (leads_withSoftware _ _ (leads_draw _ _))).locked

theorem leads_blitPlain (item depth : ℕ) (r : Rect) (x y : ℤ) :
    Leads false false (blitPlain e item depth r x y) := by
  refine leads_ite (fun _ => leads_nil) fun _ => ?_
  refine (leads_withState _ _ _ _ (leads_drive _ _ _)).append ?_
  exact leads_ite (fun _ => leads_nil) fun _ => leads_withSoftware _ _ (leads_software _ _)

theorem leads_blitLocked (item : ℕ) (r : Rect) (x y : ℤ) :
    Leads false false (blitLocked e item r x y) := by
  unfold blitLocked
  split
  · exact leads_blitPlain e item 0 r x y
  · refine (leads_withState _ _ _ _ (leads_drive _ _ _)).append ?_
    refine leads_ite (fun _ => leads_nil) fun _ => leads_ite (fun _ => ?_) fun _ =>
      leads_ite (fun _ => ?_) fun _ => ?_
    · exact (leads_blitPlain e item 1 r _ _).locked
    · exact leads_withSoftware _ _ (leads_software _ _)
    · exact leads_withSoftware _ _ (leads_map _ (leads_software _) _)

theorem leads_softBlits {h : Bool} (depth : ℕ) (ps : List (ℕ × Rect × ℤ × ℤ)) :
    Leads h h (softBlits e depth ps) := by
  unfold softBlits
  split
  · exact leads_withSoftware _ _ (leads_draw _ _)
  · exact leads_ite (fun _ => leads_withSoftware _ _ (leads_draw _ _)) fun _ =>
      leads_withSoftware _ _ (leads_draw _ _)

theorem leads_blitsLoop (ps : List (ℕ × Rect × ℤ × ℤ)) : Leads true true (blitsLoop e ps).2 := by
  unfold blitsLoop
  split
  · split
    · split
      · exact leads_executed _ _
      · exact leads_nil
    · exact leads_executed _ _
  · exact leads_drive _ _ _

theorem leads_batchblit (blits : List (Rect × ℤ × ℤ)) : Leads false false (batchblit e blits) := by
  refine ((leads_withState e _ _ (blitsLoop e) (leads_blitsLoop e _)).append ?_).locked
  exact leads_ite (fun _ => leads_nil) fun _ => leads_softBlits e 0 _

theorem leads_batchblit2 (blits : List Blit2) : Leads false false (batchblit2 e blits) :=
  (leads_withState _ _ _ _ (leads_drive _ _ _)).locked

theorem leads_softTiles {h : Bool} (rect : Rect) (ps : List (ℕ × ℤ × ℤ)) :
    Leads h h (softTiles e rect ps) := by
  unfold softTiles
  split
  · exact leads_withSoftware _ _ (leads_draw _ _)
  · exact leads_ite (fun _ => leads_withSoftware _ _ (leads_draw _ _)) fun _ =>
      leads_withSoftware _ _ (leads_draw _ _)

theorem leads_tileblit (rect : Rect) (dx1 dy1 dx2 dy2 : ℤ) :
    Leads false false (tileblit e rect dx1 dy1 dx2 dy2) := by
  refine leads_ite (fun _ => leads_nil.locked) fun _ => ?_
  refine ((leads_withState _ _ _ _ (leads_drive _ _ _)).append ?_).locked
  exact leads_ite (fun _ => leads_nil) fun _ => leads_softTiles e rect _

end Functions

section Trapezoids

variable (e : Env)

def refused (i : ℕ) : Prop :=
  ¬((e.clipping .fillTriangle || e.matrix.isSome) ∧ e.accept ⟨.fillTriangle,i,0,0⟩ ∧
    e.accept ⟨.fillTriangle,i,1,0⟩)

instance (i : ℕ) : Decidable (refused e i) := inferInstanceAs (Decidable (¬_))

def leftTrapezoids (traps : List Trapezoid) : List (ℕ × Trapezoid) :=
  if e.checkAcquire ⟨.fillTrapezoid,0,0,0⟩ ∧ (e.clipping .fillTrapezoid || e.matrix.isSome) then
    (indexed traps).dropWhile fun p => e.accept ⟨.fillTrapezoid,p.1,0,0⟩
  else indexed traps

theorem drive_call {α : Type*} (accept : ℕ → Bool) (shape : α → Shape) (ps : List (ℕ × α)) :
    (drive accept (fun t => .call (shape t) t) ps).1 = ps.dropWhile fun p => accept p.1 := by
  induction ps with
  | nil => rfl
  | cons p ps ih =>
    rw [drive,List.dropWhile_cons]
    cases h : accept p.1
    · rfl
    · exact ih

theorem leads_halves {h : Bool} (asked : Bool) (i : ℕ) (t : Trapezoid) (first second : Bool) :
    Leads h h (if asked then [.driver i (.triangle (halves t).1) first,
      .driver i (.triangle (halves t).2) second] else []) :=
  leads_ite (fun _ => (leads_driver _ _ _).cons (leads_driver _ _ _)) fun _ => leads_nil

/-- One trapezoid, whose halves are drawn by the driver or, without the state, by the software. -/
theorem halvesLoop_cons (i : ℕ) (t : Trapezoid) (ts : List (ℕ × Trapezoid)) :
    ∃ start soft, (∀ h, Leads h h start) ∧ Leads false false soft ∧
      halvesLoop e ((i,t)::ts) = start++(if refused e i then .released::soft++
        (if e.acquire ⟨.fillTriangle,i,0,0⟩ then [.acquired .fillTriangle] else []) else [])++
        halvesLoop e ts := by
  set asked := e.clipping .fillTriangle || e.matrix.isSome with hasked
  set first := asked && e.accept ⟨.fillTriangle,i,0,0⟩ with hfirst
  set second := asked && e.accept ⟨.fillTriangle,i,1,0⟩ with hsecond
  have hrefused : (!first || !second) = true ↔ refused e i := by
    unfold refused
    rw [hfirst,hsecond,← hasked]
    cases asked <;> cases e.accept ⟨.fillTriangle,i,0,0⟩ <;>
      cases e.accept ⟨.fillTriangle,i,1,0⟩ <;> simp
  refine ⟨if asked then [.driver i (.triangle (halves t).1) first,
      .driver i (.triangle (halves t).2) second] else [],
    withSoftware e ⟨.fillTriangle,i,0,0⟩ ((softHalves e t (!first) (!second)).map (.software i)),
    fun h => leads_halves _ i t _ _,leads_withSoftware e _ (leads_map _ (leads_software i) _),?_⟩
  rw [halvesLoop]
  simp only [← hasked,← hfirst,← hsecond,hrefused]

theorem leads_halvesLoop {ts : List (ℕ × Trapezoid)}
    (h : ∀ p ∈ ts, refused e p.1 → e.acquire ⟨.fillTriangle,p.1,0,0⟩) :
    Leads true true (halvesLoop e ts) := by
  induction ts with
  | nil => exact leads_nil
  | cons p ts ih =>
    rw [List.forall_mem_cons] at h
    obtain ⟨start,soft,hstart,hsoft,heq⟩ := halvesLoop_cons e p.1 p.2 ts
    rw [heq]
    refine ((hstart true).append (leads_ite (fun hr => ?_) fun _ => leads_nil)).append (ih h.2)
    rw [if_pos (h.1 hr)]
    exact (leads_released.cons hsoft).append (leads_acquired _)

theorem halvesLoop_without {ts : List (ℕ × Trapezoid)} {n : ℕ} {r : ℕ × Bool}
    (h : (halvesLoop e ts).foldlM hold (n,false) = some r) : r.2 = false := by
  induction ts generalizing n with
  | nil =>
    obtain rfl := Option.some.inj h
    rfl
  | cons p ts ih =>
    obtain ⟨start,soft,hstart,-,heq⟩ := halvesLoop_cons e p.1 p.2 ts
    rw [heq,List.append_assoc,List.foldlM_append,hstart false n] at h
    change List.foldlM hold (n,false) _ = _ at h
    split at h
    · cases h
    · exact ih h

theorem halvesLoop_lost {ts : List (ℕ × Trapezoid)} {p : ℕ × Trapezoid} (hp : p ∈ ts)
    (hr : refused e p.1) (ha : ¬e.acquire ⟨.fillTriangle,p.1,0,0⟩) {n : ℕ} {r : ℕ × Bool}
    (h : (halvesLoop e ts).foldlM hold (n,true) = some r) : r.2 = false := by
  induction ts with
  | nil => cases hp
  | cons q ts ih =>
    obtain ⟨start,soft,hstart,hsoft,heq⟩ := halvesLoop_cons e q.1 q.2 ts
    rw [heq,List.append_assoc,List.foldlM_append,hstart true n] at h
    change List.foldlM hold (n,true) _ = _ at h
    by_cases hq : refused e q.1
    · rw [if_pos hq,List.append_assoc,List.foldlM_append] at h
      rw [(leads_released.cons hsoft) n] at h
      change List.foldlM hold (n,false) _ = _ at h
      split at h
      · next hacquire =>
        rcases List.mem_cons.1 hp with rfl | hp
        · exact absurd hacquire ha
        · exact ih hp h
      · exact halvesLoop_without e h
    · rw [if_neg hq] at h
      rcases List.mem_cons.1 hp with rfl | hp
      · exact absurd hr hq
      · exact ih hp h

theorem balanced_locked (l : List Mark) :
    Balanced (locked l) ↔ l.foldlM hold (1,false) = some (1,false) := by
  change (l++[Mark.unlock]).foldlM hold (1,false) = some (0,false) ↔ _
  rw [List.foldlM_append]
  rcases List.foldlM hold (1,false) l with _ | ⟨n,h⟩
  · simp
  · change hold (n,h) .unlock >>= pure = _ ↔ _
    rcases n with _ | n
    · simp [hold]
    · simp [hold]

theorem withState_left (traps : List Trapezoid) :
    (withState e ⟨.fillTrapezoid,0,0,0⟩ (indexed traps) fun ps =>
      if e.clipping .fillTrapezoid || e.matrix.isSome then
        drive (fun i => e.accept ⟨.fillTrapezoid,i,0,0⟩) (fun t => .call (.trapezoid t) t) ps
      else (ps,[])).1 = leftTrapezoids e traps := by
  unfold withState leftTrapezoids
  by_cases hacquire : e.checkAcquire ⟨.fillTrapezoid,0,0,0⟩ = true
  · by_cases hasked : (e.clipping .fillTrapezoid || e.matrix.isSome) = true
    · simp only [hacquire,hasked,if_true,and_self,drive_call]
    · simp [hacquire,hasked]
  · simp [hacquire]

/-- Trapezoids leave the state as it was found if it is acquired again after each refused
half. -/
theorem filltrapezoids_balanced (traps : List Trapezoid) : Balanced (filltrapezoids e traps) ↔
    (e.checkAcquire ⟨.fillTriangle,0,0,0⟩ → ∀ p ∈ leftTrapezoids e traps,
      refused e p.1 → e.acquire ⟨.fillTriangle,p.1,0,0⟩) := by
  unfold filltrapezoids
  dsimp only
  have hfirst : Leads false false (withState e ⟨.fillTrapezoid,0,0,0⟩ (indexed traps) fun ps =>
      if e.clipping .fillTrapezoid || e.matrix.isSome then
        drive (fun i => e.accept ⟨.fillTrapezoid,i,0,0⟩) (fun t => .call (.trapezoid t) t) ps
      else (ps,[])).2 := by
    refine leads_withState e _ _ _ ?_
    split
    · exact leads_drive _ _ _
    · exact leads_nil
  rw [withState_left,balanced_locked,List.foldlM_append,hfirst 1]
  change List.foldlM hold (1,false) _ = _ ↔ _
  by_cases hempty : (leftTrapezoids e traps).isEmpty = true
  · rw [if_pos hempty]
    refine iff_of_true (leads_nil 1) fun _ p hp => ?_
    rw [List.isEmpty_iff.1 hempty] at hp
    cases hp
  rw [if_neg hempty]
  by_cases hacquire : e.checkAcquire ⟨.fillTriangle,0,0,0⟩ = true
  swap
  · rw [if_neg hacquire]
    exact iff_of_true (leads_withSoftware _ _ (leads_draw _ _) 1) fun h => absurd h hacquire
  rw [if_pos hacquire]
  constructor
  · intro h _ p hp hr
    by_contra ha
    change ((halvesLoop e (leftTrapezoids e traps))++[Mark.released]).foldlM hold (1,true) = _ at h
    rw [List.foldlM_append] at h
    obtain ⟨⟨n,b⟩,hloop,hend⟩ := Option.bind_eq_some_iff.1 h
    obtain rfl : b = false := halvesLoop_lost e hp hr ha hloop
    cases hend
  · intro h
    exact ((leads_acquired _).cons (leads_halvesLoop e (h hacquire))).append leads_released 1

theorem fillquadrangles_balanced
    (quads : List ((ℤ × ℤ) × (ℤ × ℤ) × (ℤ × ℤ) × (ℤ × ℤ))) : Balanced (fillquadrangles e quads) ↔
      (e.checkAcquire ⟨.fillQuadrangle,0,0,0⟩ → e.clipping .fillQuadrangle) := by
  have hsoft : Leads false false
      (withSoftware e ⟨.fillTriangle,0,0,0⟩ (draw (softQuadrangle e) (indexed quads))) :=
    leads_withSoftware _ _ (leads_draw _ _)
  unfold fillquadrangles
  dsimp only
  by_cases hacquire : e.checkAcquire ⟨.fillQuadrangle,0,0,0⟩ = true
  swap
  · rw [if_neg hacquire]
    exact iff_of_true hsoft.locked.balanced fun h => absurd h hacquire
  rw [if_pos hacquire]
  by_cases hclip : e.clipping .fillQuadrangle = true
  · rw [if_neg (by simp [hclip])]
    have hdriver := (leads_acquired .fillQuadrangle).cons
      ((leads_driver 0 .quadrangles (e.accept ⟨.fillQuadrangle,0,0,0⟩)).cons leads_released)
    refine iff_of_true (hdriver.append ?_).locked.balanced fun _ => hclip
    exact leads_ite (fun _ => leads_nil) fun _ => hsoft
  · rw [if_pos (by simp [hclip])]
    exact iff_of_false (by decide) fun h => hclip (h hacquire)

end Trapezoids

/-! ### All drawing functions -/

/-- A call of one of the drawing functions. -/
inductive Call
  | fillrectangles (rects : List Rect)
  | drawrectangle (rect : Rect)
  | drawlines (lines : List Region)
  | fillspans (y : ℤ) (spans : List (ℤ × ℤ))
  | filltriangles (tris : List Triangle)
  | filltrapezoids (traps : List Trapezoid)
  | fillquadrangles (quads : List ((ℤ × ℤ) × (ℤ × ℤ) × (ℤ × ℤ) × (ℤ × ℤ)))
  | drawMonoGlyphs (num : ℕ)
  | textureTriangles
  | blit (rect : Rect) (x y : ℤ)
  | batchblit (blits : List (Rect × ℤ × ℤ))
  | batchblit2 (blits : List Blit2)
  | tileblit (rect : Rect) (dx1 dy1 dx2 dy2 : ℤ)
  | batchstretchblit (clipped : Rect → Rect → Rect × Rect) (blits : List (Rect × Rect))

/-- What happens in a call. -/
def Call.marks (e : Env) : Call → List Mark
  | .fillrectangles rects => GfxcardDraw.fillrectangles e rects
  | .drawrectangle rect => GfxcardDraw.drawrectangle e rect
  | .drawlines lines => GfxcardDraw.drawlines e lines
  | .fillspans y spans => GfxcardDraw.fillspans e y spans
  | .filltriangles tris => GfxcardDraw.filltriangles e tris
  | .filltrapezoids traps => GfxcardDraw.filltrapezoids e traps
  | .fillquadrangles quads => GfxcardDraw.fillquadrangles e quads
  | .drawMonoGlyphs num => GfxcardDraw.drawMonoGlyphs e num
  | .textureTriangles => GfxcardDraw.textureTriangles e
  | .blit rect x y => GfxcardDraw.blit e rect x y
  | .batchblit blits => GfxcardDraw.batchblit e blits
  | .batchblit2 blits => GfxcardDraw.batchblit2 e blits
  | .tileblit rect dx1 dy1 dx2 dy2 => GfxcardDraw.tileblit e rect dx1 dy1 dx2 dy2
  | .batchstretchblit clipped blits => GfxcardDraw.batchstretchblit e clipped blits

def Call.Proper (e : Env) : Call → Prop
  | .filltrapezoids traps => e.checkAcquire ⟨.fillTriangle,0,0,0⟩ →
      ∀ p ∈ leftTrapezoids e traps, refused e p.1 → e.acquire ⟨.fillTriangle,p.1,0,0⟩
  | .fillquadrangles _ => e.checkAcquire ⟨.fillQuadrangle,0,0,0⟩ → e.clipping .fillQuadrangle
  | _ => True

section Stretched

variable (e : Env) (clipped : Rect → Rect → Rect × Rect)

theorem leads_stretchLoop (acquired : Bool) (ps : List (ℕ × Rect × Rect)) :
    Leads acquired (stretchLoop e clipped acquired ps).2.1
      (stretchLoop e clipped acquired ps).2.2 := by
  induction ps generalizing acquired with
  | nil => exact leads_nil
  | cons p ps ih =>
    rw [stretchLoop]
    split
    · next hnot =>
      obtain rfl : acquired = false := by
        cases acquired
        · rfl
        · simp at hnot
      exact leads_nil
    have hstart : Leads acquired true
        (if acquired then [] else [.acquired .stretchBlit] : List Mark) := by
      cases acquired
      · exact leads_acquired _
      · exact leads_nil
    dsimp only
    split
    · exact (hstart.append (leads_released.cons (leads_blitLocked e _ _ _ _))).append (ih false)
    split
    · exact hstart.append (ih true)
    split
    · exact hstart.append ((leads_driver _ _ _).cons (ih true))
    · exact hstart.append (leads_driver _ _ _)

theorem leads_batchstretchblit (blits : List (Rect × Rect)) :
    Leads false false (batchstretchblit e clipped blits) := by
  have hend : ∀ b, Leads b false (if b then [.released] else [] : List Mark) := by
    rintro (_ | _)
    · exact leads_nil
    · exact leads_released
  refine (((leads_stretchLoop e clipped false _).append (hend _)).append ?_).locked
  exact leads_ite (fun _ => leads_nil) fun _ => leads_withSoftware _ _ (leads_draw _ _)

end Stretched

theorem call_balanced (e : Env) (call : Call) : Balanced (call.marks e) ↔ call.Proper e := by
  cases call with
  | filltrapezoids traps => exact filltrapezoids_balanced e traps
  | fillquadrangles quads => exact fillquadrangles_balanced e quads
  | fillrectangles rects => exact iff_of_true (leads_fillrectangles e rects).balanced trivial
  | drawrectangle rect => exact iff_of_true (leads_drawrectangle e rect).balanced trivial
  | drawlines lines => exact iff_of_true (leads_drawlines e lines).balanced trivial
  | fillspans y spans => exact iff_of_true (leads_fillspans e y spans).balanced trivial
  | filltriangles tris => exact iff_of_true (leads_filltriangles e tris).balanced trivial
  | drawMonoGlyphs num => exact iff_of_true (leads_drawMonoGlyphs e num).balanced trivial
  | textureTriangles => exact iff_of_true (leads_textureTriangles e).balanced trivial
  | blit rect x y => exact iff_of_true (leads_blitLocked e 0 rect x y).locked.balanced trivial
  | batchblit blits => exact iff_of_true (leads_batchblit e blits).balanced trivial
  | batchblit2 blits => exact iff_of_true (leads_batchblit2 e blits).balanced trivial
  | tileblit rect dx1 dy1 dx2 dy2 =>
    exact iff_of_true (leads_tileblit e rect dx1 dy1 dx2 dy2).balanced trivial
  | batchstretchblit clipped blits =>
    exact iff_of_true (leads_batchstretchblit e clipped blits).balanced trivial

end DirectFB.GfxcardDraw
