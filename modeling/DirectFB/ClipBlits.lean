import DirectFB.ClipOutlines

/-! The clipping of blits, and the pixels that a blit takes from its source for those of its
destination. -/
namespace DirectFB.Clip

def Rotation.turn (flags : Rotation) (w h : ℤ) (s : ℤ × ℤ) : ℤ × ℤ :=
  let x := if flags.flipHorizontal then w-1-s.1 else s.1
  let y := if flags.flipVertical then h-1-s.2 else s.2
  if flags.rotate90 then (y,w-1-x) else (x,y)

/-- The flags for a rotation by this angle, as `dfb_simplify_blittingflags` has them. -/
def Rotation.ofAngle (rotation : ℤ) : Rotation :=
  if rotation = 90 then ⟨false,false,true⟩
  else if rotation = 180 then ⟨true,true,false⟩
  else if rotation = 270 then ⟨true,true,true⟩
  else {}

/-- `dfb_rectangle_from_rotated`, for a part `r` of what has the size `w`, `h`. -/
def rectangleFromRotated (r : Rect) (w h rotation : ℤ) : Rect :=
  if rotation = 90 then ⟨r.y,w-r.x-r.w,r.h,r.w⟩
  else if rotation = 180 then ⟨w-r.x-r.w,h-r.y-r.h,r.w,r.h⟩
  else if rotation = 270 then ⟨h-r.y-r.h,r.x,r.h,r.w⟩
  else r

theorem rectangleFromRotated_contains (r : Rect) (w h rotation : ℤ) (p : ℤ × ℤ) :
    (rectangleFromRotated r w h rotation).region.Contains ((Rotation.ofAngle rotation).turn w h p) ↔
      r.region.Contains p := by
  rw [Rect.contains_region,Rect.contains_region]
  unfold rectangleFromRotated Rotation.ofAngle
  split_ifs <;> simp only [Rotation.turn,if_true,if_false,Bool.false_eq_true] <;> omega

/-- The sizes that go together, as the assertions of `dfb_clip_blit_flipped_rotated` have it. -/
def Rotation.Matches (flags : Rotation) (srect drect : Rect) : Prop :=
  if flags.rotate90 then srect.w = drect.h ∧ srect.h = drect.w
  else srect.w = drect.w ∧ srect.h = drect.h

/-- The blit takes the pixel `d` of the destination from the pixel `s` of the source. -/
def Blits (flags : Rotation) (srect drect : Rect) (s d : ℤ × ℤ) : Prop :=
  srect.region.Contains s ∧
    flags.turn srect.w srect.h (s.1-srect.x,s.2-srect.y) = (d.1-drect.x,d.2-drect.y)

section
variable {flags : Rotation} {srect drect : Rect}

theorem Blits.contains (hm : flags.Matches srect drect) {s d : ℤ × ℤ}
    (h : Blits flags srect drect s d) : drect.region.Contains d := by
  obtain ⟨hs,ht⟩ := h
  rw [Rect.contains_region] at hs ⊢
  obtain ⟨fh,fv,r⟩ := flags
  cases fh <;> cases fv <;> cases r
  all_goals
    simp only [Rotation.Matches,Rotation.turn,if_true,if_false,Bool.false_eq_true,
      Prod.mk.injEq] at hm ht
    omega

end

end DirectFB.Clip
