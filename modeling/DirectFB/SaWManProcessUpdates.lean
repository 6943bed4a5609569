import DirectFB.LayerConfig
import DirectFB.SaWManTier
import DirectFB.UpdatesRectangles

/-! The updates of a tier, as they are composed and handed on for each eye. -/
namespace DirectFB.SaWMan.ProcessUpdates
open LayerConfig (BufferMode)

structure Side where
  updates : Updates
  updating : Updates
  updated : Updates

/-- What is read of a tier, with the modes of its context and of its region. Updates are clipped to it. -/
structure Tier where
  width : ℤ
  height : ℤ
  contextMode : BufferMode
  mode : BufferMode
  stereo : Bool
  side : Eye → Side
  width_pos : 0 < width
  height_pos : 0 < height
  good : ∀ eye, (side eye).updates.Good ∧ (side eye).updating.Good
  within : ∀ eye, ∀ i < (side eye).updates.num, (∃ p, ((side eye).updates.regions i).Contains p) ∧
    ((side eye).updates.regions i).Within ⟨0,0,width-1,height-1⟩

namespace Tier

def full (t : Tier) : Region := ⟨0,0,t.width-1,t.height-1⟩

def num (t : Tier) (eye : Eye) : ℕ := (t.side eye).updates.num

def total (t : Tier) : ℤ := (t.side .left).updates.stat.1+(t.side .right).updates.stat.1

def bounding (t : Tier) : ℤ := (t.side .left).updates.stat.2+(t.side .right).updates.stat.2

/-- Where the buffers are swapped, updating everything saves the copy. -/
def much (t : Tier) : Bool :=
  t.total > t.width*t.height || t.total > (t.width*t.height*3).tdiv 5 &&
    (t.contextMode = .backVideo || t.contextMode = .triple)

def few (t : Tier) : Bool :=
  let room (eye : Eye) : ℤ := (t.side eye).updates.max-t.num eye+1
  let n := room .left+room .right
  t.num .left+t.num .right < 2 || t.total < (t.bounding*n).tdiv (n+1)

/-- The updates that are chosen for an eye. -/
def chosen (t : Tier) (eye : Eye) : List Region :=
  if eye = .right ∧ !t.stereo then []
  else if t.much then [t.full]
  else if t.few then (List.range (t.num eye)).map (t.side eye).updates.regions
  else [(t.side eye).updates.bounding]

end Tier

/-- What is given to a flip for an eye. -/
inductive Given
  | none
  | null
  | unset
  | regions (l : List Region)

/-- `dfb_regions_unite`, to a variable that otherwise is not set. -/
def unite : List Region → Given
  | [] => .unset
  | r::l => .regions [l.foldl Region.union r]

def Given.Holds (p : ℤ × ℤ) : Given → Prop
  | .null => True
  | .regions l => ∃ r ∈ l, r.Contains p
  | _ => False

/-- `kept` are the regions that are copied back or added to those that are updating. -/
structure Handover where
  composed : List Region
  flip : Given
  kept : List Region

/-- `sawman_flush_updating`, and what it flips. -/
def flushUpdating (s : Side) : Side × Region :=
  let s := if s.updating.num ≠ 0 then {s with updated := s.updating, updating := s.updating.reset}
    else s
  (s,s.updated.bounding)

/-- What follows the composition, depending on the buffer mode. -/
def handOver (t : Tier) (updates : List Region) (eye : Eye) : Side × Given :=
  let s := t.side eye
  match t.mode with
  | .triple =>
    let s := {s with updating := updates.foldl Updates.add s.updating}
    if (t.side .left).updated.num = 0 ∧ (t.side .right).updated.num = 0 then
      ((flushUpdating s).1,if eye = .left ∨ t.stereo then .regions [(flushUpdating s).2] else .none)
    else (s,.none)
  | .backVideo => (s,if eye = .left ∨ t.stereo then unite updates else .none)
  | _ =>
    (s,if t.stereo then if updates = [] then .null else unite updates
      else if eye = .left then .regions updates else .none)

/-- `process_updates` -/
def processUpdates (fullscreen : Bool) (t : Tier) (eye : Eye) : Side × Handover :=
  let updates := if fullscreen then [] else t.chosen eye
  let composed := if fullscreen then (if t.num eye > 0 then [t.full] else []) else updates
  let (s,flip) := handOver t updates eye
  ({s with updates := s.updates.reset},
    ⟨composed,flip,if t.mode = .triple ∨ t.mode = .backVideo then updates else []⟩)

/-- All that is pending is composed, and all that is composed is handed on. -/
structure Handed (t : Tier) (eye : Eye) (r : Side × Handover) : Prop where
  composes : ∀ p, (t.side eye).updates.Covers p → ∃ c ∈ r.2.composed, c.Contains p
  set : r.2.flip ≠ .unset
  handed : ∀ c ∈ r.2.composed, ∀ p, c.Contains p → match t.mode with
    | .triple => (∃ k ∈ r.2.kept, k.Contains p) ∧
      (r.1.updating.Covers p ∨ r.1.updated.Covers p ∧ r.2.flip.Holds p)
    | .backVideo => (∃ k ∈ r.2.kept, k.Contains p) ∧ r.2.flip.Holds p
    | _ => r.2.flip.Holds p

/-- With updates of the full screen, both eyes are flipped by other than a swap. Otherwise an eye that
is not seen has no updates, and where the buffers are swapped for both eyes and the updates are used
as they are, both have some. -/
def Fine (fullscreen : Bool) (t : Tier) : Prop :=
  if fullscreen then t.stereo ∧ t.mode ≠ .triple ∧ t.mode ≠ .backVideo
  else (t.stereo ∨ t.num .right = 0) ∧
    (t.mode = .backVideo → t.stereo → t.much ∨ ¬t.few ∨ ∀ eye, t.num eye ≠ 0)

theorem holds_unite {l : List Region} {r : Region} (hr : r ∈ l) {p : ℤ × ℤ} (hp : r.Contains p) :
    (unite l).Holds p := by
  have hfold (l : List Region) (a : Region) (h : a.Contains p ∨ ∃ r ∈ l, r.Contains p) :
      (l.foldl Region.union a).Contains p := by
    induction l generalizing a with
    | nil => simpa using h
    | cons b l ih =>
      refine ih _ ?_
      rcases h with h | ⟨r,hr,h⟩
      · exact .inl ((Region.within_union_left a b).contains h)
      · rcases List.mem_cons.mp hr with rfl | hr
        · exact .inl ((Region.within_union_right a r).contains h)
        · exact .inr ⟨r,hr,h⟩
  cases l with
  | nil => simp at hr
  | cons a l =>
    refine ⟨_,List.mem_singleton_self _,hfold l a ?_⟩
    rcases List.mem_cons.mp hr with rfl | hr
    · exact .inl hp
    · exact .inr ⟨r,hr,hp⟩

theorem unite_ne_unset {l : List Region} (hl : l ≠ []) : unite l ≠ .unset := by
  cases l with
  | nil => exact absurd rfl hl
  | cons a l => simp [unite]

theorem good_foldl_add (l : List Region) {u : Updates} (h : u.Good) :
    (l.foldl Updates.add u).Good ∧ (∀ p, u.Covers p ∨ (∃ r ∈ l, r.Contains p) →
      (l.foldl Updates.add u).Covers p) := by
  induction l generalizing u with
  | nil => exact ⟨h,fun p hp => by simpa using hp⟩
  | cons a l ih =>
    obtain ⟨hgood,hcovers⟩ := ih (h.add a)
    refine ⟨hgood,fun p hp => hcovers p ?_⟩
    rcases hp with hp | ⟨r,hr,hp⟩
    · exact .inl (h.covers_add (.inl hp))
    · rcases List.mem_cons.mp hr with rfl | hr
      · exact .inl (h.covers_add (.inr hp))
      · exact .inr ⟨r,hr,hp⟩

theorem chosen_covers (t : Tier) {eye : Eye} (heye : eye = .left ∨ t.stereo) {p : ℤ × ℤ}
    (hp : (t.side eye).updates.Covers p) : ∃ c ∈ t.chosen eye, c.Contains p := by
  obtain ⟨i,hi,hp⟩ := hp
  have hseen : ¬(eye = .right ∧ !t.stereo) := by
    rintro ⟨rfl,hs⟩
    simp_all
  unfold Tier.chosen
  rw [if_neg hseen]
  split_ifs
  · exact ⟨_,List.mem_singleton_self _,(t.within eye i hi).2.contains hp⟩
  · exact ⟨_,List.mem_map_of_mem (List.mem_range.mpr hi),hp⟩
  · exact ⟨_,List.mem_singleton_self _,((t.good eye).1.bounded i hi).contains hp⟩

/-- The regions that were added are updating, or flipped. -/
theorem handOver_triple (t : Tier) (updates : List Region) {eye : Eye}
    (heye : eye = .left ∨ t.stereo) (hmode : t.mode = .triple) {p : ℤ × ℤ}
    (hp : ∃ r ∈ updates, r.Contains p) :
    (handOver t updates eye).1.updating.Covers p ∨
      (handOver t updates eye).1.updated.Covers p ∧ (handOver t updates eye).2.Holds p := by
  obtain ⟨hgood,hcovers⟩ := good_foldl_add updates (t.good eye).2
  obtain ⟨i,hi,hp⟩ := hcovers p (.inr hp)
  have hnum : (updates.foldl Updates.add (t.side eye).updating).num ≠ 0 := by omega
  simp only [handOver,hmode]
  split_ifs
  · refine .inr ⟨?_,?_⟩
    · simp only [flushUpdating,if_pos hnum]
      exact ⟨i,hi,hp⟩
    · simp only [flushUpdating,if_pos hnum]
      exact ⟨_,List.mem_singleton_self _,(hgood.bounded i hi).contains hp⟩
  · exact .inl ⟨i,hi,hp⟩

theorem chosen_ne_nil {t : Tier} {eye : Eye} (heye : eye = .left ∨ t.stereo) :
    t.chosen eye ≠ [] ↔ t.much ∨ ¬t.few ∨ t.num eye ≠ 0 := by
  have hseen : ¬(eye = .right ∧ !t.stereo) := by
    rintro ⟨rfl,hs⟩
    simp_all
  unfold Tier.chosen
  rw [if_neg hseen]
  split_ifs with hmuch hfew <;> simp [*]

/-- The updates that are used as they are, the whole tier or what bounds the updates. -/
theorem handed_seen {t : Tier} {eye : Eye} (heye : eye = .left ∨ t.stereo)
    (hset : t.mode = .backVideo → t.chosen eye ≠ []) :
    Handed t eye (processUpdates false t eye) := by
  have hne {c : Region} (hc : c ∈ t.chosen eye) : t.chosen eye ≠ [] := List.ne_nil_of_mem hc
  refine ⟨fun p hp => chosen_covers t heye hp,?_,fun c hc p hp => ?_⟩
  · show (handOver t (t.chosen eye) eye).2 ≠ .unset
    unfold handOver
    cases hmode : t.mode with
    | triple =>
      dsimp only
      split_ifs <;> simp
    | backVideo => simpa [heye] using unite_ne_unset (hset hmode)
    | _ =>
      dsimp only
      split_ifs with hs hnil
      exacts [by simp,unite_ne_unset hnil,by simp,by simp]
  · have hc : c ∈ t.chosen eye := hc
    have hkept (hm : t.mode = .triple ∨ t.mode = .backVideo) :
        (processUpdates false t eye).2.kept = t.chosen eye := if_pos hm
    have hflip : (processUpdates false t eye).2.flip = (handOver t (t.chosen eye) eye).2 := rfl
    cases hmode : t.mode with
    | triple =>
      exact ⟨⟨c,hkept (.inl hmode) ▸ hc,hp⟩,handOver_triple t _ heye hmode ⟨c,hc,hp⟩⟩
    | backVideo =>
      refine ⟨⟨c,hkept (.inr hmode) ▸ hc,hp⟩,?_⟩
      rw [hflip]
      simpa [handOver,hmode,heye] using holds_unite hc hp
    | _ =>
      dsimp only
      rw [hflip]
      simp only [handOver,hmode]
      rw [if_neg (hne hc)]
      split_ifs with hs hl
      exacts [holds_unite hc hp,⟨c,hc,hp⟩,absurd heye (by simp [hs,hl])]

theorem fullscreen_iff (t : Tier) (h : ∃ eye, t.num eye ≠ 0) :
    (∀ eye, Handed t eye (processUpdates true t eye)) ↔ Fine true t := by
  have hw := t.width_pos
  have hh := t.height_pos
  have hkept (eye : Eye) : (processUpdates true t eye).2.kept = [] := ite_self _
  unfold Fine
  rw [if_pos rfl]
  constructor
  · intro hall
    obtain ⟨eye,hnum⟩ := h
    have hc : t.full ∈ (processUpdates true t eye).2.composed := by
      simp [processUpdates,Nat.pos_of_ne_zero hnum]
    have hp : t.full.Contains (0,0) := by
      simp only [Tier.full,Region.Contains]
      omega
    have hhanded := (hall eye).handed _ hc _ hp
    cases hmode : t.mode with
    | triple | backVideo => simp [hmode,hkept] at hhanded
    | _ =>
      refine ⟨?_,by simp,by simp⟩
      by_contra hs
      simp [hmode,processUpdates,handOver,hs] at hhanded
      split_ifs at hhanded <;> simp [Given.Holds] at hhanded
  · rintro ⟨hs,hmode,hmode'⟩ eye
    have hflip : (processUpdates true t eye).2.flip = .null := by
      cases hm : t.mode <;> simp_all [processUpdates,handOver]
    refine ⟨fun p hp => ?_,by simp [hflip],fun c hc p hp => ?_⟩
    · obtain ⟨i,hi,hp⟩ := hp
      refine ⟨t.full,?_,(t.within eye i hi).2.contains hp⟩
      simp [processUpdates,show 0 < t.num eye from Nat.zero_lt_of_lt hi]
    · rw [hflip]
      cases hm : t.mode <;> simp_all [Given.Holds]

/-- Each eye gets all its updates, with all that is composed handed on, just in these cases. -/
theorem processUpdates_iff (fullscreen : Bool) (t : Tier) (h : ∃ eye, t.num eye ≠ 0) :
    (∀ eye, Handed t eye (processUpdates fullscreen t eye)) ↔ Fine fullscreen t := by
  cases fullscreen with
  | true => exact fullscreen_iff t h
  | false =>
  unfold Fine
  rw [if_neg (by simp)]
  have hnone (hs : ¬t.stereo) : t.chosen .right = [] := by simp [Tier.chosen,hs]
  constructor
  · refine fun hall => ⟨?_,fun hmode hs => ?_⟩
    · by_contra hno
      obtain ⟨hs,hnum⟩ := not_or.mp hno
      have hpos := Nat.pos_of_ne_zero hnum
      obtain ⟨p,hp⟩ := (t.within .right 0 hpos).1
      obtain ⟨c,hc,-⟩ := (hall .right).composes p ⟨0,hpos,hp⟩
      have hc : c ∈ t.chosen .right := hc
      simp [hnone hs] at hc
    · have hone (eye : Eye) : t.much ∨ ¬t.few ∨ t.num eye ≠ 0 := by
        refine (chosen_ne_nil (.inr hs)).mp fun hnil => (hall eye).set ?_
        simp [processUpdates,handOver,hmode,hs,hnil,unite]
      have hl := hone .left
      have hr := hone .right
      by_cases hm : t.much = true ∨ ¬t.few = true
      · exact hm.imp_right .inl
      · refine .inr (.inr fun eye => ?_)
        cases eye <;> tauto
  · rintro ⟨hright,hboth⟩ eye
    by_cases heye : eye = .left ∨ t.stereo
    · refine handed_seen heye fun hmode => (chosen_ne_nil heye).mpr ?_
      by_cases hs : t.stereo
      · exact (hboth hmode hs).imp_right (.imp_right fun hn => hn eye)
      · obtain ⟨other,hother⟩ := h
        have hzero := hright.resolve_left hs
        obtain rfl := heye.resolve_right hs
        cases other with
        | left => exact .inr (.inr hother)
        | right => exact absurd hzero hother
    · obtain ⟨hl,hs⟩ := not_or.mp heye
      have hr : eye = .right := by cases eye <;> simp_all
      subst hr
      have hzero := hright.resolve_left hs
      have hc : (processUpdates false t .right).2.composed = [] := hnone hs
      refine ⟨fun p ⟨i,hi,_⟩ => ?_,?_,fun c hmem => ?_⟩
      · exact absurd hi (by simp [show (t.side .right).updates.num = 0 from hzero])
      · cases hm : t.mode <;> simp [processUpdates,handOver,hm,hs]
        split_ifs <;> simp
      · simp [hc] at hmem

/-- A tier with an update of one pixel for one eye. -/
def corner (mode : BufferMode) (stereo : Bool) (pending : Eye) : Tier where
  width := 10
  height := 10
  contextMode := mode
  mode := mode
  stereo := stereo
  side eye :=
    let quiet : Updates := ⟨fun _ => ⟨0,0,0,0⟩,4,0,⟨0,0,0,0⟩⟩
    ⟨{quiet with num := if eye = pending then 1 else 0},quiet,quiet⟩
  width_pos := by decide
  height_pos := by decide
  good eye := by
    have hsame : Region.Within ⟨0,0,0,0⟩ ⟨0,0,0,0⟩ := ⟨le_rfl,le_rfl,le_rfl,le_rfl⟩
    refine ⟨⟨fun _ _ => hsame,?_,Nat.zero_lt_succ 3⟩,⟨fun _ _ => hsame,Nat.zero_le 4,Nat.zero_lt_succ 3⟩⟩
    dsimp only
    split_ifs <;> decide
  within eye i hi := ⟨⟨(0,0),le_rfl,le_rfl,le_rfl,le_rfl⟩,by constructor <;> dsimp only <;> decide⟩

theorem corner_handed : Handed (corner .frontOnly false .left) .left
    (processUpdates false (corner .frontOnly false .left) .left) :=
  (processUpdates_iff false _ ⟨.left,by decide⟩).mpr ⟨.inr (by decide),fun h => by cases h⟩ .left

/-- Where the buffers are swapped, an eye without updates is flipped by an unset region. -/
theorem other_eye_unset : ¬ ∀ (fullscreen : Bool) (t : Tier), (∃ eye, t.num eye ≠ 0) →
    ∀ eye, Handed t eye (processUpdates fullscreen t eye) := by
  intro hall
  exact (hall false (corner .backVideo true .right) ⟨.right,by decide⟩ .left).set rfl

end DirectFB.SaWMan.ProcessUpdates
