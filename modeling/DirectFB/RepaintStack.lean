import DirectFB.LayerConfig
import DirectFB.TripleBuffer
import DirectFB.UpdatesRectangles

/-! The updates of a window stack, as the default window manager composes them and hands them on:
to the regions that are updating, to the flips, or to the copy from front to back. -/
namespace DirectFB.RepaintStack
open TripleBuffer (Screen State Image)
open LayerConfig (BufferMode)

variable {π : Type*}

structure Stack where
  width : ℤ
  height : ℤ
  rotation : Rotation
  surface : Option (ℤ × ℤ)
  enabled : Bool
  mode : BufferMode
  fullscreenUpdates : Bool

def Stack.whole (s : Stack) : Region := ⟨0,0,s.width-1,s.height-1⟩

/-- What is drawn to, unless `repaint_stack` returns at once. -/
def Stack.screen (s : Stack) (x : State π) : Option Screen :=
  if x.active && s.enabled then
    s.surface.map fun size => ⟨s.width,s.height,s.rotation,⟨0,0,size.1-1,size.2-1⟩⟩
  else none

/-- `DSFLIP_WAITFORSYNC` -/
def waitForSync : BitVec 32 := 0x00000005

/-- `DSFLIP_SWAP`, which flips the buffers whatever the region is. -/
def swap : BitVec 32 := 0x00000400

/-- What `repaint_stack` does with the regions when all is drawn. An entry of `flips` that was
not written is `none`. -/
inductive Handover
  | updating (regions : List (Option Region)) (flush : Bool)
  | swap (bounding : Region) (flags : BitVec 32) (copied : Option (List Region))
  | flips (regions : List (Option Region)) (flags : BitVec 32)

/-- The first entries of the array `flips`, after so many were written. -/
def entries (num : ℕ) (flips : List Region) : List (Option Region) :=
  flips.map some++List.replicate (num-flips.length) none

def handOver (s : Stack) (x : State π) (updates flips : List Region) (flags : BitVec 32)
    (bounding : Region) : Handover :=
  match s.mode with
  | .triple => .updating (entries updates.length flips) (x.updated.num = 0)
  | .backVideo =>
    .swap bounding (flags ||| waitForSync ||| swap)
      (if s.fullscreenUpdates then none else some updates)
  | _ => .flips (entries updates.length flips) flags

/-- `repaint_stack` -/
def repaintStack (s : Stack) (x : State π) (updates : List Region) (flags : BitVec 32)
    (bounding : Region) (image : Image π) (blend : ℤ × ℤ → π → π) : State π × Option Handover :=
  match s.screen x with
  | none => (x,none)
  | some screen =>
    let r := TripleBuffer.repaintAll screen image blend updates x
    (r.1,some (handOver s r.1 updates r.2 flags bounding))

/-- The updates that `process_updates` chooses, and what bounds them. -/
def chosen (s : Stack) (u : Updates) : List Region × Region :=
  let n : ℤ := u.max-u.num+1
  let d := n+1
  if s.fullscreenUpdates then ([s.whole],s.whole)
  else if u.stat.1 > (s.width*s.height*9).tdiv 10 then ([s.whole],u.bounding)
  else if u.num < 2 ∨ u.stat.1 < (u.stat.2*n).tdiv d then
    ((List.range u.num).map u.regions,u.bounding)
  else ([u.bounding],u.bounding)

/-- `process_updates` -/
def processUpdates (s : Stack) (x : State π) (u : Updates) (flags : BitVec 32) (image : Image π)
    (blend : ℤ × ℤ → π → π) : (State π × Option Handover) × Updates :=
  if u.num = 0 then ((x,none),u)
  else (repaintStack s x (chosen s u).1 flags (chosen s u).2 image blend,u.reset)

def dest (screen : Screen) (update : Region) : Option Region :=
  (screen.dest update).intersect screen.surface

def composed (s : Stack) (x : State π) (updates : List Region) : List Region :=
  match s.screen x with
  | none => []
  | some screen => updates.filterMap (dest screen)

namespace Handover

def Exact (l : List Region) : Handover → Prop
  | .updating regions _ => regions = l.map some
  | .swap _ _ copied => ∀ regions ∈ copied, regions = l
  | .flips regions _ => regions = l.map some

def Covers (p : ℤ × ℤ) : Handover → Prop
  | .updating regions _ => ∃ r, some r ∈ regions ∧ r.Contains p
  | .swap _ _ copied => ∀ regions ∈ copied, ∃ r ∈ regions, r.Contains p
  | .flips regions _ => ∃ r, some r ∈ regions ∧ r.Contains p

def Named (l : List Region) : Handover → Prop
  | .swap bounding _ _ => l = [bounding]
  | _ => True

end Handover

structure Faithful (x : State π) (l : List Region) (result : State π × Option Handover) :
    Prop where
  exact : ∀ h ∈ result.2, h.Exact l
  covered : ∀ p, (∃ r ∈ l, r.Contains p) → ∃ h ∈ result.2, h.Covers p
  drawn : ∀ p, result.1.back p ≠ x.back p → ∃ r ∈ l, r.Contains p

def Meets (screen : Screen) (update : Region) : Prop :=
  (screen.dest update).intersects screen.surface

def Stays (screen : Screen) (update : Region) : Prop :=
  screen.dest update = update ∧ update.intersect screen.surface = some update

def Proper (s : Stack) (x : State π) (updates : List Region) : Prop :=
  ∀ screen ∈ s.screen x, match s.mode with
    | .backVideo => s.fullscreenUpdates = false → ∀ u ∈ updates, Stays screen u
    | _ => ∀ u ∈ updates, Meets screen u

section Drawing

variable (screen : Screen) (image : Image π) (blend : ℤ × ℤ → π → π)

theorem repaint_regions (x : State π) (update : Region) :
    (TripleBuffer.repaint screen image blend x update).2 = dest screen update := by
  unfold TripleBuffer.repaint dest
  split
  · next h => rw [h]
  · next r h =>
    rw [h]
    dsimp only
    split_ifs
    · split <;> rfl
    · rfl

theorem paint_back (x : State π) (r : Region) (f : Image π) {p : ℤ × ℤ} (hp : ¬ r.Contains p) :
    (TripleBuffer.paint screen x r f).back p = x.back p := by
  simp only [TripleBuffer.paint]
  exact if_neg fun h => hp h.1

theorem repaint_back (x : State π) (update : Region) {p : ℤ × ℤ}
    (hp : ∀ r ∈ dest screen update, ¬ r.Contains p) :
    (TripleBuffer.repaint screen image blend x update).1.back p = x.back p := by
  unfold dest at hp
  unfold TripleBuffer.repaint
  split
  · rfl
  · next r hr =>
    have hout : ¬ r.Contains p := hp r hr
    dsimp only
    split_ifs
    · split
      · next c hc =>
        have hcursor : ¬ c.Contains p := fun h => hout ((Region.intersect_contains hc p).mp h).1
        unfold TripleBuffer.drawCursor
        rw [paint_back _ _ _ _ hcursor]
        exact paint_back screen x r image hout
      · exact paint_back screen x r image hout
    · exact paint_back screen x r image hout

theorem repaintAll_regions (updates : List Region) (x : State π) :
    (TripleBuffer.repaintAll screen image blend updates x).2 = updates.filterMap (dest screen) := by
  induction updates generalizing x with
  | nil => rfl
  | cons update updates ih =>
    simp only [TripleBuffer.repaintAll,repaint_regions,ih,List.filterMap_cons]
    cases dest screen update <;> rfl

theorem repaintAll_back (updates : List Region) (x : State π) {p : ℤ × ℤ}
    (hp : ∀ r ∈ updates.filterMap (dest screen), ¬ r.Contains p) :
    (TripleBuffer.repaintAll screen image blend updates x).1.back p = x.back p := by
  induction updates generalizing x with
  | nil => rfl
  | cons update updates ih =>
    have hfirst : ∀ r ∈ dest screen update, ¬ r.Contains p := fun r hr =>
      hp r (List.mem_filterMap.mpr ⟨update,List.mem_cons_self,hr⟩)
    have hrest : ∀ r ∈ updates.filterMap (dest screen), ¬ r.Contains p := fun r hr => by
      obtain ⟨u,hu,hr⟩ := List.mem_filterMap.mp hr
      exact hp r (List.mem_filterMap.mpr ⟨u,List.mem_cons_of_mem _ hu,hr⟩)
    exact (ih _ hrest).trans (repaint_back screen image blend x update hfirst)

end Drawing

theorem entries_eq_iff (num : ℕ) (flips : List Region) :
    entries num flips = flips.map some ↔ num ≤ flips.length := by
  unfold entries
  rw [List.append_right_eq_self,List.replicate_eq_nil_iff,Nat.sub_eq_zero_iff_le]

theorem dest_isSome (screen : Screen) (u : Region) : (dest screen u).isSome ↔ Meets screen u := by
  unfold dest Meets Region.intersect Region.intersects
  split_ifs with h <;> simp <;> omega

theorem dest_lengths (screen : Screen) (u : Region) :
    ((screen.dest u).x2-(screen.dest u).x1 = u.x2-u.x1 ∧
      (screen.dest u).y2-(screen.dest u).y1 = u.y2-u.y1) ∨
    ((screen.dest u).x2-(screen.dest u).x1 = u.y2-u.y1 ∧
      (screen.dest u).y2-(screen.dest u).y1 = u.x2-u.x1) := by
  unfold Screen.dest
  cases screen.rotation with
  | r0 => exact .inl ⟨rfl,rfl⟩
  | r90 => exact .inr ⟨rfl,by ring⟩
  | r180 => exact .inl ⟨by ring,by ring⟩
  | r270 => exact .inr ⟨by ring,rfl⟩

theorem dest_eq_self (screen : Screen) (u : Region) : dest screen u = some u ↔ Stays screen u := by
  unfold dest Stays
  constructor
  · intro h
    obtain ⟨⟨hx1,hy1,hx2,hy2⟩,-⟩ := Region.intersect_within h
    have hsame : screen.dest u = u := by
      have hlengths := dest_lengths screen u
      cases hdest : screen.dest u
      cases u
      rw [hdest] at hx1 hy1 hx2 hy2 hlengths
      rw [Region.mk.injEq]
      dsimp only at *
      omega
    exact ⟨hsame,by rwa [hsame] at h⟩
  · rintro ⟨hsame,hclip⟩
    rw [hsame,hclip]

theorem eq_filterMap_dest_iff (screen : Screen) (updates : List Region) :
    updates = updates.filterMap (dest screen) ↔ ∀ u ∈ updates, Stays screen u := by
  simp only [← dest_eq_self]
  induction updates with
  | nil => simp
  | cons u updates ih =>
    rw [List.forall_mem_cons,← ih]
    cases hu : dest screen u with
    | none =>
      rw [List.filterMap_cons_none hu]
      have hle := List.length_filterMap_le (dest screen) updates
      constructor
      · intro h
        have := congrArg List.length h
        rw [List.length_cons] at this
        omega
      · rintro ⟨h,-⟩
        cases h
    | some r => rw [List.filterMap_cons_some hu,List.cons.injEq,Option.some.injEq,eq_comm (a := u)]

theorem handOver_exact_iff (screen : Screen) (s : Stack) (x : State π) (updates : List Region)
    (flags : BitVec 32) (bounding : Region) :
    (handOver s x updates (updates.filterMap (dest screen)) flags bounding).Exact
        (updates.filterMap (dest screen)) ↔
      match s.mode with
      | .backVideo => s.fullscreenUpdates = false → ∀ u ∈ updates, Stays screen u
      | _ => ∀ u ∈ updates, Meets screen u := by
  have hentries : entries updates.length (updates.filterMap (dest screen)) =
      (updates.filterMap (dest screen)).map some ↔ ∀ u ∈ updates, Meets screen u := by
    have hle := List.length_filterMap_le (dest screen) updates
    rw [entries_eq_iff,hle.ge_iff_eq,List.filterMap_length_eq_length]
    simp only [dest_isSome]
  unfold handOver
  cases s.mode with
  | backVideo =>
    simp only [Handover.Exact]
    rw [← eq_filterMap_dest_iff]
    cases s.fullscreenUpdates <;> simp
  | triple | unknown | frontOnly | backSystem | windows => exact hentries

theorem Handover.Exact.covers {l : List Region} {h : Handover} (he : h.Exact l) {p : ℤ × ℤ}
    (hp : ∃ r ∈ l, r.Contains p) : h.Covers p := by
  obtain ⟨r,hr,hp⟩ := hp
  cases h with
  | updating regions flush =>
    obtain rfl : regions = l.map some := he
    exact ⟨r,List.mem_map_of_mem hr,hp⟩
  | swap bounding flags copied =>
    intro regions hregions
    rw [he regions hregions]
    exact ⟨r,hr,hp⟩
  | flips regions flags =>
    obtain rfl : regions = l.map some := he
    exact ⟨r,List.mem_map_of_mem hr,hp⟩

theorem faithful_iff (s : Stack) (x : State π) (updates : List Region) (flags : BitVec 32)
    (bounding : Region) (image : Image π) (blend : ℤ × ℤ → π → π) :
    Faithful x (composed s x updates) (repaintStack s x updates flags bounding image blend) ↔
      Proper s x updates := by
  unfold repaintStack composed Proper
  cases hscreen : s.screen x with
  | none =>
    refine ⟨fun _ => by simp,fun _ => ⟨by simp,by simp,fun p hp => absurd rfl hp⟩⟩
  | some screen =>
    simp only [repaintAll_regions,Option.mem_def,Option.some.injEq,forall_eq']
    constructor
    · intro h
      exact (handOver_exact_iff screen s _ updates flags bounding).mp (h.exact _ rfl)
    · intro h
      have hexact := (handOver_exact_iff screen s
        (TripleBuffer.repaintAll screen image blend updates x).1 updates flags bounding).mpr h
      refine ⟨?_,fun p hp => ⟨_,rfl,hexact.covers hp⟩,fun p hp => ?_⟩
      · intro handover hmem
        obtain rfl := Option.some.inj hmem
        exact hexact
      · by_contra hout
        push Not at hout
        exact hp (repaintAll_back screen image blend updates x hout)

theorem named_iff (s : Stack) (x : State π) (updates : List Region) (flags : BitVec 32)
    (bounding : Region) (image : Image π) (blend : ℤ × ℤ → π → π) :
    (∀ h ∈ (repaintStack s x updates flags bounding image blend).2,
      h.Named (composed s x updates)) ↔
      ∀ screen ∈ s.screen x, s.mode = .backVideo →
        updates.filterMap (dest screen) = [bounding] := by
  unfold repaintStack composed
  cases hscreen : s.screen x with
  | none => simp
  | some screen =>
    simp only [Option.mem_def,Option.some.injEq,forall_eq',handOver]
    cases s.mode <;> simp [Handover.Named]

section Processing

variable {s : Stack} {u : Updates}

theorem chosen_covers (hu : u.Good) {p : ℤ × ℤ} (hp : u.Covers p) (hin : s.whole.Contains p) :
    ∃ r ∈ (chosen s u).1, r.Contains p := by
  obtain ⟨i,hi,hcontains⟩ := hp
  unfold chosen
  dsimp only
  split_ifs
  · exact ⟨_,List.mem_singleton_self _,hin⟩
  · exact ⟨_,List.mem_singleton_self _,hin⟩
  · exact ⟨_,List.mem_map_of_mem (List.mem_range.mpr hi),hcontains⟩
  · exact ⟨_,List.mem_singleton_self _,(hu.bounded i hi).contains hcontains⟩

def turn (screen : Screen) (p : ℤ × ℤ) : ℤ × ℤ :=
  let r := screen.dest ⟨p.1,p.2,p.1,p.2⟩
  (r.x1,r.y1)

theorem dest_contains_turn (screen : Screen) {r : Region} {p : ℤ × ℤ} (hp : r.Contains p) :
    (screen.dest r).Contains (turn screen p) := by
  unfold turn Screen.dest
  unfold Region.Contains at hp ⊢
  cases screen.rotation <;> dsimp only <;> omega

/-- What was to be updated is handed on, as far as it is on the surface. -/
theorem processUpdates_covers {x : State π} {flags : BitVec 32} {image : Image π}
    {blend : ℤ × ℤ → π → π} {screen : Screen} (hu : u.Good) (hscreen : screen ∈ s.screen x)
    (hproper : Proper s x (chosen s u).1) {p : ℤ × ℤ} (hp : u.Covers p)
    (hin : s.whole.Contains p) (hon : screen.surface.Contains (turn screen p)) :
    ∃ h ∈ (processUpdates s x u flags image blend).1.2, h.Covers (turn screen p) := by
  have hnum : u.num ≠ 0 := by
    obtain ⟨i,hi,-⟩ := hp
    omega
  obtain ⟨r,hr,hcontains⟩ := chosen_covers hu hp hin
  have hturned := dest_contains_turn screen hcontains
  unfold processUpdates
  rw [if_neg hnum]
  refine ((faithful_iff s x (chosen s u).1 flags (chosen s u).2 image blend).mpr hproper).covered _ ?_
  unfold composed
  rw [Option.mem_def.mp hscreen]
  cases hdest : (screen.dest r).intersect screen.surface with
  | none => exact absurd hon (Region.not_contains_of_intersect hdest hturned)
  | some image =>
    exact ⟨image,List.mem_filterMap.mpr ⟨r,hr,hdest⟩,
      (Region.intersect_contains hdest _).mpr ⟨hturned,hon⟩⟩

end Processing

/-- Whatever the updates are, what is composed of them is what is handed on exactly where no
update is off the surface or, with buffer mode BACKVIDEO, where none is rotated or clipped and so
copied to another place. The region named when all is flipped is that of one image only. -/
theorem handed_on_iff (s : Stack) (x : State π) (updates : List Region) (flags : BitVec 32)
    (bounding : Region) (image : Image π) (blend : ℤ × ℤ → π → π) :
    let result := repaintStack s x updates flags bounding image blend
    let l := composed s x updates
    (Faithful x l result ↔ Proper s x updates) ∧
    (Faithful x l result ∧ (∀ h ∈ result.2, h.Named l) ↔
      Proper s x updates ∧ ∀ screen ∈ s.screen x, s.mode = .backVideo →
        updates.filterMap (dest screen) = [bounding]) := by
  have hfaithful := faithful_iff s x updates flags bounding image blend
  exact ⟨hfaithful,and_congr hfaithful (named_iff s x updates flags bounding image blend)⟩

def turned (mode : BufferMode) : Stack := ⟨640,480,.r180,some (640,480),true,mode,false⟩

def blank : State ℕ where
  front _ := 0
  back _ := 0
  idle _ := 0
  canvas _ := 0
  cursorBs _ := 0
  cursorRegion := ⟨0,0,0,0⟩
  cursorDrawn := false
  cursorBsValid := false
  active := true
  updating := ⟨fun _ => ⟨0,0,0,0⟩,8,0,⟨0,0,0,0⟩⟩
  updated := ⟨fun _ => ⟨0,0,0,0⟩,8,0,⟨0,0,0,0⟩⟩
  notifications := 0
  assumed := true

/-- An update that is off the surface leaves an entry that is not written. -/
example : (repaintStack (turned .triple) blank [⟨-9,-9,-1,-1⟩,⟨0,0,9,9⟩] 0 ⟨-9,-9,9,9⟩ (fun _ => 1)
    fun _ c => c).2 = some (.updating [some ⟨630,470,639,479⟩,none] true) := rfl

theorem turned_update_covered : ∃ h ∈ (processUpdates (turned .triple) blank
    ⟨fun _ => ⟨0,0,9,9⟩,8,1,⟨0,0,9,9⟩⟩ 0 (fun _ => 1) fun _ c => c).1.2, h.Covers (639,479) := by
  have hscreen : ⟨640,480,.r180,⟨0,0,639,479⟩⟩ ∈ (turned .triple).screen blank := rfl
  refine processUpdates_covers (p := (0,0)) ⟨fun _ _ => ⟨le_rfl,le_rfl,le_rfl,le_rfl⟩,by decide,
    by decide⟩ hscreen (fun _ hs u hu => ?_) ⟨0,by decide,by decide⟩ (by decide) (by decide)
  obtain rfl := Option.some.inj hs
  obtain rfl := List.mem_singleton.mp hu
  exact rfl

/-- The update in the upper left corner is composed in the lower right one, and the upper left
one is copied. -/
theorem corner_not_copied : ¬ ∀ (s : Stack) (x : State ℕ) (updates : List Region)
    (flags : BitVec 32) (bounding : Region) (image : Image ℕ) (blend : ℤ × ℤ → ℕ → ℕ),
    Faithful x (composed s x updates) (repaintStack s x updates flags bounding image blend) := by
  intro h
  have hall := (faithful_iff _ _ _ _ _ _ _).mp
    (h (turned .backVideo) blank [⟨0,0,9,9⟩] 0 ⟨0,0,9,9⟩ (fun _ => 1) fun _ c => c)
  have hstays := hall ⟨640,480,.r180,⟨0,0,639,479⟩⟩ rfl rfl ⟨0,0,9,9⟩ (List.mem_singleton_self _)
  have hdest : (⟨630,470,639,479⟩ : Region) = ⟨0,0,9,9⟩ := hstays.1
  revert hdest
  decide

end DirectFB.RepaintStack
