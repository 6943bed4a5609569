import DirectFB.Clip

/-! The outlines of a clipped rectangle: its border inside the clip, every pixel once. -/
namespace DirectFB.Clip

def Rect.Apart (r s : Rect) : Prop := ∀ p, r.region.Contains p → ¬ s.region.Contains p

variable {p : ℤ × ℤ} {clip : Region}

theorem Rect.contains_region {r : Rect} : r.region.Contains p ↔
    r.x ≤ p.1 ∧ p.1 < r.x+r.w ∧ r.y ≤ p.2 ∧ p.2 < r.y+r.h := by
  simp only [Rect.region,Region.Contains]
  omega

/-- A rectangle that is not clipped away reaches into the clip on every side, and is cut there. -/
structure Cut (clip : Region) (r c : Rect) : Prop where
  left : clip.x1 < r.x+r.w
  right : r.x ≤ clip.x2
  top : clip.y1 < r.y+r.h
  bottom : r.y ≤ clip.y2
  x : c.x = max r.x clip.x1
  y : c.y = max r.y clip.y1
  w : c.x+c.w = min (r.x+r.w) (clip.x2+1)
  h : c.y+c.h = min (r.y+r.h) (clip.y2+1)

theorem Cut.contains {r c : Rect} (h : Cut clip r c) :
    c.region.Contains p ↔ r.region.Contains p ∧ clip.Contains p := by
  have hx := h.x
  have hy := h.y
  have hw := h.w
  have hh := h.h
  rw [Rect.contains_region,Rect.contains_region]
  simp only [Region.Contains]
  omega

def Edges.above (e : Edges) : ℤ := if e.top then 1 else 0

def Edges.rows (e : Edges) : ℤ := e.above+if e.bottom then 1 else 0

def topLine (r : Rect) : Rect := ⟨r.x,r.y,r.w,1⟩

def bottomLine (r : Rect) : Rect := ⟨r.x,r.y+r.h-1,r.w,1⟩

def leftLine (e : Edges) (r : Rect) : Rect := ⟨r.x,r.y+e.above,1,r.h-e.rows⟩

def rightLine (e : Edges) (r : Rect) : Rect := ⟨r.x+r.w-1,r.y+e.above,1,r.h-e.rows⟩

def lines (e : Edges) (r : Rect) : List Rect :=
  (if e.top then [topLine r] else [])++
  (if e.bottom ∧ e.above < r.h then [bottomLine r] else [])++
  (if e.left ∧ e.rows < r.h then [leftLine e r] else [])++
  if e.right ∧ (1 < r.w ∨ ¬ e.left) ∧ e.rows < r.h then [rightLine e r] else []

section
variable {e : Edges} {r : Rect}

end

/-- A column that is cut below has its upper end and one side left. -/
example : outlines ⟨0,0,4,4⟩ ⟨2,1,1,9⟩ = [⟨2,1,1,1⟩,⟨2,2,1,3⟩] := by decide

end DirectFB.Clip
