import DirectFB.SaWManTier

/-! How a region of a tier is parted into bins with the windows that are seen in each, and
how a bin is drawn. -/
set_option linter.unusedSectionVars false
namespace DirectFB.SaWMan.UpdateRegion4
variable {ω : Type*} [DecidableEq ω]

/-- `DFBUpdateBin`, with its windows from the top down. -/
structure Bin (ω : Type*) where
  region : Region
  cap : ℕ
  windows : List ω
  id : ℕ

/-- What happens to the bins: one is allocated, drawn or freed. -/
inductive Event (ω : Type*)
  | get (id size cap : ℕ)
  | draw (bin : Bin ω) (layer : Layer ω)
  | free (id : ℕ)

/-- `dfb_update_bin_get`, with a source. -/
def updateBinGet (src : Bin ω) (window : Option ω) (region : Region) (id : ℕ) : Bin ω :=
  ⟨region,src.cap,src.windows++window.toList,id⟩

variable (borders : Borders) (tier : Tier) (bg : Background) (s : Windows ω) (eye : Eye)

/-- How the windows of a bin are drawn from the current one up, and if it is the lowest. Where
two are drawn at once, the upper one is drawn first. -/
def drawFrom : List ω → Bool → List (Layer ω)
  | [], _ => []
  | [w], lowest =>
    (if lowest && (s w).translucent then [.background] else [])++
    [.window w ((s w).translucent && !(optimized bg (s w) && lowest))]
  | w::v::above, lowest =>
    (if lowest && (s w).translucent then [.background] else [])++
    if !(s w).translucent || (optimized bg (s w) && lowest) then
      .window v false::.window w true::drawFrom above false
    else .window w true::drawFrom (v::above) false

def drawBin (windows : List ω) : List (Layer ω) :=
  if windows.isEmpty then [.background] else drawFrom bg s windows.reverse true

def finish (bin : Bin ω) : List (Event ω) :=
  (drawBin bg s bin.windows).map (.draw bin)++[.free bin.id]

def forBins (f : Bin ω → ℕ → List (Event ω) × ℕ) (src : Bin ω) (window : Option ω) :
    List Region → ℕ → List (Event ω) × ℕ
  | [], n => ([],n)
  | region::rest, n =>
    let bin := updateBinGet src window region n
    let first := f bin (n+1)
    let others := forBins f src window rest first.2
    (.get n bin.windows.length bin.cap::(first.1++others.1),others.2)

/-- What `update_region4_r` does with the part of a bin where a window is, if it calls itself
by `f` for the windows below. -/
def divideInside (f : Bin ω → ℕ → List (Event ω) × ℕ) (w : ω) (bin : Bin ω) (region : Region)
    (n : ℕ) : List (Event ω) × ℕ :=
  if (s w).options.opaqueRegion then
    match ((s w).config.opaqueRegion.translated (s w).bounds.x (s w).bounds.y).intersect region with
    | some inner =>
      let outer := forBins f bin (some w) (Region.strips inner region) n
      let last := forBins (fun bin n => (finish bg s bin,n)) bin (some w) [inner] outer.2
      (outer.1++last.1,last.2)
    | none => forBins f bin (some w) [region] n
  else if (s w).translucent then forBins f bin (some w) [region] n
  else forBins (fun bin n => (finish bg s bin,n)) bin (some w) [region] n

/-- `update_region4_r`, on the windows from the one at `start` down to the lowest. -/
def updateRegion4R : List ω → Bin ω → ℕ → List (Event ω) × ℕ
  | [], bin, n => (finish bg s bin,n)
  | w::below, bin, n =>
    if Shown borders tier s w then
      match ((s w).boundsArea eye).intersect bin.region with
      | none => updateRegion4R below bin n
      | some region =>
        let around := forBins (updateRegion4R below) bin none (Region.strips region bin.region) n
        let inside := divideInside bg s (updateRegion4R below) w bin region around.2
        (around.1++inside.1++[.free bin.id],inside.2)
    else updateRegion4R below bin n

/-- `update_region4`, on the windows of a layout from the top down. Without any the background
is drawn as in an empty bin that is not allocated. -/
def updateRegion4 (l : List ω) (region : Region) : List (Event ω) :=
  let bin : Bin ω := ⟨region,l.length,[],0⟩
  if l.isEmpty then [.draw bin .background]
  else .get bin.id bin.windows.length bin.cap::(updateRegion4R borders tier bg s eye l bin 1).1

def drawsAt (p : ℤ × ℤ) (events : List (Event ω)) : List (Bin ω × Layer ω) :=
  events.filterMap fun
    | .draw bin layer => if bin.region.Contains p then some (bin,layer) else none
    | _ => none

def gotIds (events : List (Event ω)) : List ℕ :=
  events.filterMap fun
    | .get id _ _ => some id
    | _ => none

def freedIds (events : List (Event ω)) : List ℕ :=
  events.filterMap fun
    | .free id => some id
    | _ => none

def Ends (w : ω) (p : ℤ × ℤ) : Prop :=
  if (s w).options.opaqueRegion then
    ((s w).config.opaqueRegion.translated (s w).bounds.x (s w).bounds.y).Contains p
  else (s w).translucent = false

instance (w : ω) (p : ℤ × ℤ) : Decidable (Ends s w p) := inferInstanceAs (Decidable (ite ..))

def upTo {α : Type*} (P : α → Prop) [DecidablePred P] : List α → List α
  | [] => []
  | a::l => if P a then [a] else a::upTo P l

def foundAt (l : List ω) (p : ℤ × ℤ) : List ω := l.filter (Found borders tier s eye p)

variable {borders tier bg s eye}

section Numbers

@[simp] theorem gotIds_append (a b : List (Event ω)) : gotIds (a++b) = gotIds a++gotIds b :=
  List.filterMap_append

@[simp] theorem freedIds_append (a b : List (Event ω)) :
    freedIds (a++b) = freedIds a++freedIds b := List.filterMap_append

theorem gotIds_finish (bin : Bin ω) : gotIds (finish bg s bin) = [] := by
  simp [finish,gotIds]

theorem freedIds_finish (bin : Bin ω) : freedIds (finish bg s bin) = [bin.id] := by
  simp [finish,freedIds]

def Numbered (n : ℕ) (events : List (Event ω)) (next : ℕ) (others : List ℕ) : Prop :=
  ∃ k, next = n+k ∧ gotIds events = List.range' n k ∧
    ∀ id, (freedIds events).count id = (List.range' n k).count id+others.count id

theorem Numbered.append {n m k : ℕ} {a b : List (Event ω)} {l l' : List ℕ}
    (ha : Numbered n a m l) (hb : Numbered m b k l') : Numbered n (a++b) k (l++l') := by
  obtain ⟨i,rfl,hgot,hfreed⟩ := ha
  obtain ⟨j,rfl,hgot',hfreed'⟩ := hb
  have hrange : List.range' n (i+j) = List.range' n i++List.range' (n+i) j := by
    rw [List.range'_append_1]
  refine ⟨i+j,Nat.add_assoc .., ?_,fun id => ?_⟩
  · rw [gotIds_append,hgot,hgot',hrange]
  · rw [freedIds_append,List.count_append,hfreed id,hfreed' id,hrange,List.count_append,
      List.count_append]
    omega

theorem numbered_finish (bin : Bin ω) (n : ℕ) : Numbered n (finish bg s bin) n [bin.id] :=
  ⟨0,rfl,gotIds_finish bin,fun id => by rw [freedIds_finish]; simp⟩

theorem numbered_free (id n : ℕ) : Numbered n [(.free id : Event ω)] n [id] :=
  ⟨0,rfl,rfl,fun i => by simp [freedIds]⟩

theorem numbered_forBins {f : Bin ω → ℕ → List (Event ω) × ℕ}
    (hf : ∀ bin n, Numbered n (f bin n).1 (f bin n).2 [bin.id]) (src : Bin ω)
    (window : Option ω) (regions : List Region) (n : ℕ) :
    Numbered n (forBins f src window regions n).1 (forBins f src window regions n).2 [] := by
  induction regions generalizing n with
  | nil => exact ⟨0,rfl,rfl,fun _ => rfl⟩
  | cons region rest ih =>
    obtain ⟨i,hi,hgot,hfreed⟩ := (hf (updateBinGet src window region n) (n+1)).append (ih _)
    refine ⟨i+1,?_,?_,fun id => ?_⟩
    · rw [forBins,hi]
      omega
    · rw [forBins,List.range'_succ,← hgot]
      rfl
    · have h := hfreed id
      rw [List.range'_succ,List.count_cons]
      rw [forBins]
      simp only [updateBinGet,List.count_append,List.count_nil,List.count_singleton] at h ⊢
      exact h

theorem numbered_divideInside {f : Bin ω → ℕ → List (Event ω) × ℕ}
    (hf : ∀ bin n, Numbered n (f bin n).1 (f bin n).2 [bin.id]) (w : ω) (bin : Bin ω)
    (region : Region) (n : ℕ) : Numbered n (divideInside bg s f w bin region n).1
      (divideInside bg s f w bin region n).2 [] := by
  have hfinish : ∀ (bin : Bin ω) n, Numbered n (finish bg s bin) n [bin.id] := numbered_finish
  unfold divideInside
  split_ifs
  · split
    · exact (numbered_forBins hf bin (some w) _ _).append
        (numbered_forBins hfinish bin (some w) _ _)
    · exact numbered_forBins hf bin (some w) _ _
  · exact numbered_forBins hf bin (some w) _ _
  · exact numbered_forBins hfinish bin (some w) _ _

theorem numbered_updateRegion4R (l : List ω) (bin : Bin ω) (n : ℕ) :
    Numbered n (updateRegion4R borders tier bg s eye l bin n).1
      (updateRegion4R borders tier bg s eye l bin n).2 [bin.id] := by
  induction l generalizing bin n with
  | nil => exact numbered_finish bin n
  | cons w below ih =>
    rw [updateRegion4R]
    by_cases hs : Shown borders tier s w
    · rw [if_pos hs]
      split
      · exact ih bin n
      · exact ((numbered_forBins ih bin none _ n).append
          (numbered_divideInside ih w bin _ _)).append (numbered_free bin.id _)
    · rw [if_neg hs]
      exact ih bin n

end Numbers

section Capacity

def Fits (events : List (Event ω)) : Prop :=
  ∀ id size cap, .get id size cap ∈ events → size ≤ cap

theorem Fits.append {a b : List (Event ω)} (ha : Fits a) (hb : Fits b) : Fits (a++b) :=
  fun id size cap h => (List.mem_append.mp h).elim (ha id size cap) (hb id size cap)

theorem fits_finish (bin : Bin ω) : Fits (finish bg s bin) := by
  intro id size cap h
  simp [finish] at h

theorem fits_forBins {f : Bin ω → ℕ → List (Event ω) × ℕ} {m : ℕ}
    (hf : ∀ bin n, bin.windows.length+m ≤ bin.cap → Fits (f bin n).1) {src : Bin ω}
    {window : Option ω} (hsrc : src.windows.length+(window.toList.length+m) ≤ src.cap)
    (regions : List Region) (n : ℕ) : Fits (forBins f src window regions n).1 := by
  induction regions generalizing n with
  | nil => exact fun id size cap h => by cases h
  | cons region rest ih =>
    have hlen : (updateBinGet src window region n).windows.length =
        src.windows.length+window.toList.length := List.length_append
    have hcap : (updateBinGet src window region n).cap = src.cap := rfl
    rw [forBins]
    refine Fits.append (a := [_]) ?_ (.append (hf _ _ (by omega)) (ih _))
    intro id size cap h
    obtain ⟨-,rfl,rfl⟩ := Event.get.inj (List.mem_singleton.mp h)
    omega

theorem fits_updateRegion4R (l : List ω) (bin : Bin ω) (n : ℕ)
    (hcap : bin.windows.length+l.length ≤ bin.cap) :
    Fits (updateRegion4R borders tier bg s eye l bin n).1 := by
  induction l generalizing bin n with
  | nil => exact fits_finish bin
  | cons w below ih =>
    rw [List.length_cons] at hcap
    have hbelow : ∀ (bin : Bin ω) n, bin.windows.length+below.length ≤ bin.cap →
        Fits (updateRegion4R borders tier bg s eye below bin n).1 := fun bin n h => ih bin n h
    have hone : ∀ regions n, Fits (forBins (updateRegion4R borders tier bg s eye below) bin
        (some w) regions n).1 := fits_forBins hbelow (by simp only [Option.toList,List.length]; omega)
    have hlast : ∀ regions n, Fits (forBins (fun bin n => (finish bg s bin,n)) bin
        (some w) regions n).1 := fits_forBins (m := 0) (fun bin _ _ => fits_finish bin)
      (by simp only [Option.toList,List.length]; omega)
    rw [updateRegion4R]
    by_cases hs : Shown borders tier s w
    · rw [if_pos hs]
      split
      · exact hbelow bin n (by omega)
      · refine ((fits_forBins hbelow (by simp; omega) _ n).append ?_).append
          fun id size cap h => by simp at h
        unfold divideInside
        split_ifs
        · split
          · exact (hone _ _).append (hlast _ _)
          · exact hone _ _
        · exact hone _ _
        · exact hlast _ _
    · rw [if_neg hs]
      exact hbelow bin n (by omega)

end Capacity

section Pixel
variable {p : ℤ × ℤ}

@[simp] theorem drawsAt_append (a b : List (Event ω)) :
    drawsAt p (a++b) = drawsAt p a++drawsAt p b := List.filterMap_append

theorem drawsAt_get (id size cap : ℕ) (events : List (Event ω)) :
    drawsAt p (.get id size cap::events) = drawsAt p events := rfl

def Drawn (bg : Background) (s : Windows ω) (p : ℤ × ℤ) (events : List (Event ω))
    (windows : List ω) : Prop :=
  ∃ bin : Bin ω, bin.region.Contains p ∧ bin.windows = windows ∧
    drawsAt p events = (drawBin bg s windows).map (bin,·)

theorem Drawn.append {a b : List (Event ω)} {windows : List ω} (h : Drawn bg s p a windows)
    (hb : drawsAt p b = []) : Drawn bg s p (a++b) windows := by
  obtain ⟨bin,hp,hw,hdraws⟩ := h
  exact ⟨bin,hp,hw,by rw [drawsAt_append,hb,List.append_nil,hdraws]⟩

theorem Drawn.prepend {a b : List (Event ω)} {windows : List ω} (h : Drawn bg s p b windows)
    (ha : drawsAt p a = []) : Drawn bg s p (a++b) windows := by
  obtain ⟨bin,hp,hw,hdraws⟩ := h
  exact ⟨bin,hp,hw,by rw [drawsAt_append,ha,List.nil_append,hdraws]⟩

def Divides (bg : Background) (s : Windows ω) (p : ℤ × ℤ)
    (f : Bin ω → ℕ → List (Event ω) × ℕ) (windows : List ω) : Prop :=
  ∀ bin n, bin.region.Regular →
    (bin.region.Contains p → Drawn bg s p (f bin n).1 (bin.windows++windows)) ∧
    (¬ bin.region.Contains p → drawsAt p (f bin n).1 = [])

theorem divides_finish : Divides bg s p (fun bin n => (finish bg s bin,n)) [] := by
  intro bin n _
  have hdraws : drawsAt p (finish bg s bin) =
      if bin.region.Contains p then (drawBin bg s bin.windows).map (bin,·) else [] := by
    rw [finish,drawsAt_append]
    by_cases hp : bin.region.Contains p <;>
      simp [drawsAt,hp,List.filterMap_map]
  constructor
  · exact fun hp => ⟨bin,hp,(List.append_nil _).symm,by rw [hdraws,if_pos hp,List.append_nil]⟩
  · exact fun hp => by rw [hdraws,if_neg hp]

theorem forBins_none {f : Bin ω → ℕ → List (Event ω) × ℕ} {windows : List ω}
    (hf : Divides bg s p f windows) (src : Bin ω) (window : Option ω) {regions : List Region}
    (hr : ∀ r ∈ regions, r.Regular ∧ ¬ r.Contains p) (n : ℕ) :
    drawsAt p (forBins f src window regions n).1 = [] := by
  induction regions generalizing n with
  | nil => rfl
  | cons region rest ih =>
    obtain ⟨hregular,hp⟩ := hr region List.mem_cons_self
    rw [forBins,drawsAt_get,drawsAt_append,
      (hf (updateBinGet src window region n) (n+1) hregular).2 hp,
      ih fun r hmem => hr r (List.mem_cons_of_mem region hmem)]
    rfl

/-- Of regions of which one contains the pixel, the bin for it is drawn. -/
theorem forBins_one {f : Bin ω → ℕ → List (Event ω) × ℕ} {windows : List ω}
    (hf : Divides bg s p f windows) (src : Bin ω) (window : Option ω) {regions : List Region}
    (hr : ∀ r ∈ regions, r.Regular) (n : ℕ)
    (hone : regions.flatMap (fun r => if r.Contains p then [()] else []) = [()]) :
    Drawn bg s p (forBins f src window regions n).1 (src.windows++window.toList++windows) := by
  induction regions generalizing n with
  | nil => cases hone
  | cons region rest ih =>
    have hregular := hr region List.mem_cons_self
    have hrest := fun r hmem => hr r (List.mem_cons_of_mem region hmem)
    have hsplit := hf (updateBinGet src window region n) (n+1) hregular
    rw [List.flatMap_cons] at hone
    rw [forBins]
    refine Drawn.prepend (a := [_]) ?_ rfl
    by_cases hp : region.Contains p
    · rw [if_pos hp,List.singleton_append,List.cons.injEq,List.flatMap_eq_nil_iff] at hone
      refine (hsplit.1 hp).append (forBins_none hf src window (fun r hmem => ⟨hrest r hmem,?_⟩) _)
      intro hrp
      have := hone.2 r hmem
      rw [if_pos hrp] at this
      cases this
    · rw [if_neg hp,List.nil_append] at hone
      exact (ih hrest _ hone).prepend (hsplit.2 hp)

theorem strips_one {inner outer : Region} (hi : inner.Regular) (hw : inner.Within outer) :
    (Region.strips inner outer).flatMap (fun r => if r.Contains p then [()] else []) =
      if outer.Contains p ∧ ¬ inner.Contains p then [()] else [] :=
  Region.flatMap_strips hi hw fun _ _ => rfl

theorem not_contains_of_strips {inner outer : Region} (hi : inner.Regular)
    (hw : inner.Within outer) (h : ¬ (outer.Contains p ∧ ¬ inner.Contains p)) :
    ∀ r ∈ Region.strips inner outer, r.Regular ∧ ¬ r.Contains p := by
  intro r hr
  refine ⟨Region.strips_regular hi hw r hr,fun hp => ?_⟩
  have hnil := strips_one (p := p) hi hw
  rw [if_neg h,List.flatMap_eq_nil_iff] at hnil
  have := hnil r hr
  rw [if_pos hp] at this
  cases this

theorem upTo_cons {α : Type*} (P : α → Prop) [DecidablePred P] (a : α) (l : List α) :
    upTo P (a::l) = if P a then [a] else a::upTo P l := rfl

theorem divideInside_drawn {f : Bin ω → ℕ → List (Event ω) × ℕ} {windows : List ω}
    (hf : Divides bg s p f windows) (w : ω) (bin : Bin ω) {region : Region}
    (hregion : region.Regular) (n : ℕ) :
    (region.Contains p → Drawn bg s p (divideInside bg s f w bin region n).1
      (bin.windows++if Ends s w p then [w] else w::windows)) ∧
    (¬ region.Contains p → drawsAt p (divideInside bg s f w bin region n).1 = []) := by
  have hsingle : ∀ r : Region, r.Regular → ∀ r' ∈ [r], r'.Regular :=
    fun r hr => List.forall_mem_singleton.mpr hr
  have hone : region.Contains p →
      [region].flatMap (fun r => if r.Contains p then [()] else []) = [()] := by
    intro hp
    simp [hp]
  have hnone : ¬ region.Contains p → ∀ r ∈ [region], r.Regular ∧ ¬ r.Contains p :=
    fun hp => List.forall_mem_singleton.mpr ⟨hregion,hp⟩
  have hbelow : ¬ Ends s w p → (region.Contains p → Drawn bg s p
      (forBins f bin (some w) [region] n).1 (bin.windows++if Ends s w p then [w] else w::windows)) ∧
      (¬ region.Contains p → drawsAt p (forBins f bin (some w) [region] n).1 = []) := by
    intro hends
    refine ⟨fun hp => ?_,fun hp => forBins_none hf bin (some w) (hnone hp) n⟩
    rw [if_neg hends]
    have h := forBins_one hf bin (some w) (hsingle region hregion) n (hone hp)
    rwa [List.append_assoc] at h
  have hfinish : Divides bg s p (fun bin n => (finish bg s bin,n)) [] := divides_finish
  unfold divideInside
  by_cases hopt : (s w).options.opaqueRegion
  · have hends : Ends s w p ↔
        ((s w).config.opaqueRegion.translated (s w).bounds.x (s w).bounds.y).Contains p := by
      rw [Ends,if_pos hopt]
    rw [if_pos hopt]
    split
    next inner hinner =>
      have hin := Region.intersect_contains hinner p
      have hi : inner.Regular := ((s w).config.opaqueRegion.valid.translated _ _).regular.intersect
        hregion hinner
      have hw := (Region.intersect_within hinner).2
      refine ⟨fun hp => ?_,fun hp => ?_⟩
      · by_cases hcut : inner.Contains p
        · have hlast := forBins_one hfinish bin (some w) (hsingle inner hi)
            (forBins f bin (some w) (Region.strips inner region) n).2 (by simp [hcut])
          rw [if_pos (hends.mpr (hin.mp hcut).1)]
          rw [List.append_nil] at hlast
          exact hlast.prepend (forBins_none hf bin (some w)
            (not_contains_of_strips hi hw fun h => h.2 hcut) n)
        · have houter := forBins_one hf bin (some w) (Region.strips_regular hi hw) n
            ((strips_one hi hw).trans (if_pos ⟨hp,hcut⟩))
          rw [if_neg fun h => hcut (hin.mpr ⟨hends.mp h,hp⟩)]
          rw [List.append_assoc] at houter
          exact houter.append (forBins_none hfinish bin (some w)
            (List.forall_mem_singleton.mpr ⟨hi,hcut⟩) _)
      · have hcut : ¬ inner.Contains p := fun h => hp (hin.mp h).2
        rw [drawsAt_append,forBins_none hf bin (some w)
          (not_contains_of_strips hi hw fun h => hp h.1) n,forBins_none hfinish bin (some w)
          (List.forall_mem_singleton.mpr ⟨hi,hcut⟩)]
        rfl
    next hnoinner =>
      refine ⟨fun hp => ?_,fun hp => forBins_none hf bin (some w) (hnone hp) n⟩
      exact (hbelow fun h =>
        Region.not_contains_of_intersect hnoinner (hends.mp h) hp).1 hp
  · have hends : Ends s w p ↔ (s w).translucent = false := by
      rw [Ends,if_neg hopt]
    rw [if_neg hopt]
    by_cases htr : (s w).translucent
    · rw [if_pos htr]
      exact hbelow fun h => by rw [hends,htr] at h; cases h
    · rw [if_neg htr]
      refine ⟨fun hp => ?_,fun hp => forBins_none hfinish bin (some w) (hnone hp) n⟩
      have hlast := forBins_one hfinish bin (some w) (hsingle region hregion) n (hone hp)
      rw [List.append_nil] at hlast
      rw [if_pos (hends.mpr (by simpa using htr))]
      exact hlast

/-- A bin is divided so that over each pixel one is drawn, with the windows found there down
to the one that ends the recursion. -/
theorem divides_updateRegion4R (l : List ω) :
    Divides bg s p (updateRegion4R borders tier bg s eye l)
      (upTo (Ends s · p) (foundAt borders tier s eye l p)) := by
  induction l with
  | nil => exact divides_finish
  | cons w below ih =>
    intro bin n hregular
    rw [updateRegion4R]
    -- a window that is not found at a pixel of the bin leaves it to those below
    have hskip : (bin.region.Contains p → ¬ Found borders tier s eye p w) →
        (bin.region.Contains p → Drawn bg s p (updateRegion4R borders tier bg s eye below bin n).1
          (bin.windows++upTo (Ends s · p) (foundAt borders tier s eye (w::below) p))) ∧
        (¬ bin.region.Contains p →
          drawsAt p (updateRegion4R borders tier bg s eye below bin n).1 = []) := by
      intro hn
      refine ⟨fun hp => ?_,(ih bin n hregular).2⟩
      rw [foundAt,List.filter_cons_of_neg (by simpa using hn hp)]
      exact (ih bin n hregular).1 hp
    by_cases hs : Shown borders tier s w
    · rw [if_pos hs]
      split
      next hnone =>
        exact hskip fun hp hf => Region.not_contains_of_intersect hnone hf.2 hp
      next region hregion =>
        have hmem := Region.intersect_contains hregion p
        have hr := (Window.boundsArea_regular eye (s w)).intersect hregular hregion
        have hw := (Region.intersect_within hregion).2
        obtain ⟨hinside,houtside⟩ := divideInside_drawn ih w bin hr
          (forBins (updateRegion4R borders tier bg s eye below) bin none
            (Region.strips region bin.region) n).2
        have hfree : drawsAt p [(.free bin.id : Event ω)] = [] := rfl
        refine ⟨fun hp => ?_,fun hp => ?_⟩
        · refine Drawn.append ?_ hfree
          by_cases hin : region.Contains p
          · have hf : Found borders tier s eye p w := ⟨hs,(hmem.mp hin).1⟩
            rw [foundAt,List.filter_cons_of_pos (by simpa using hf),upTo_cons]
            exact (hinside hin).prepend (forBins_none ih bin none
              (not_contains_of_strips hr hw fun h => h.2 hin) n)
          · have hf : ¬ Found borders tier s eye p w := fun h => hin (hmem.mpr ⟨h.2,hp⟩)
            rw [foundAt,List.filter_cons_of_neg (by simpa using hf)]
            have haround := forBins_one ih bin none (Region.strips_regular hr hw) n
              ((strips_one hr hw).trans (if_pos ⟨hp,hin⟩))
            rw [Option.toList_none,List.append_nil] at haround
            exact haround.append (houtside hin)
        · have hin : ¬ region.Contains p := fun h => hp (hmem.mp h).2
          rw [drawsAt_append,drawsAt_append,hfree,houtside hin,
            forBins_none ih bin none (not_contains_of_strips hr hw fun h => hp h.1)]
          rfl
    · rw [if_neg hs]
      exact hskip fun _ hf => hs hf.1

end Pixel

section Order

def Single (bg : Background) (s : Windows ω) : List ω → Bool → Prop
  | [], _ => True
  | [_], _ => True
  | w::v::above, lowest => (s w).translucent ∧ ¬ (optimized bg (s w) ∧ lowest) ∧
      Single bg s (v::above) false

instance Single.decidable (bg : Background) (s : Windows ω) :
    (l : List ω) → (lowest : Bool) → Decidable (Single bg s l lowest)
  | [], _ => .isTrue trivial
  | [_], _ => .isTrue trivial
  | w::v::above, lowest =>
    have := Single.decidable bg s (v::above) false
    inferInstanceAs (Decidable ((s w).translucent ∧ ¬ (optimized bg (s w) ∧ lowest) ∧ _))

/-- The calls for a bin draw the background if the lowest window is translucent, and then the
windows from the bottom up. The alpha channel is left out where nothing is seen through the
window, or where there is only the zero background below. -/
structure InOrder (bg : Background) (s : Windows ω) (windows : List ω)
    (draws : List (Layer ω)) : Prop where
  order : draws.map Layer.window? =
    (if windows.reverse.head?.all fun w => (s w).translucent then [none] else [])++
      windows.reverse.map some
  unblended : ∀ w, .window w false ∈ draws → (s w).translucent = false ∨
    optimized bg (s w) ∧ windows = [w]

theorem drawFrom_order {l : List ω} (hl : l.Nodup) (lowest : Bool) :
    (drawFrom bg s l lowest).map Layer.window? =
      (if lowest && l.head?.any fun w => (s w).translucent then [none] else [])++l.map some ↔
      Single bg s l lowest := by
  match l with
  | [] => simp [drawFrom,Single]
  | [w] =>
    refine iff_of_true ?_ trivial
    rw [drawFrom,List.map_append,apply_ite (List.map _)]
    rfl
  | w::v::above =>
    have hne : v ≠ w := by
      rintro rfl
      simp at hl
    rw [drawFrom,List.map_append,apply_ite (List.map _),Single,List.head?_cons,Option.any_some,
      List.map_cons]
    by_cases hone : !(s w).translucent || (optimized bg (s w) && lowest)
    · rw [if_pos hone]
      refine iff_of_false (fun h => ?_) fun h => ?_
      · have h' := List.append_cancel_left h
        rw [List.map_cons] at h'
        exact hne (Option.some.inj (List.cons.inj h').1)
      · simp only [Bool.or_eq_true,Bool.not_eq_true',Bool.and_eq_true] at hone
        rcases hone with htr | ho
        · rw [h.1] at htr
          cases htr
        · exact h.2.1 ho
    · have hsingle : (s w).translucent = true ∧ ¬ (optimized bg (s w) ∧ lowest) := by
        simpa [Bool.or_eq_true,not_or] using hone
      have ih := drawFrom_order (List.nodup_cons.mp hl).2 false
      rw [if_neg hone,List.map_cons]
      rw [Bool.false_and,if_neg Bool.false_ne_true,List.nil_append] at ih
      constructor
      · intro h
        have h' := List.append_cancel_left h
        exact ⟨hsingle.1,hsingle.2,ih.mp (List.cons.inj h').2⟩
      · intro h
        exact congrArg ((if lowest && (s w).translucent then [none] else [])++some w::·)
          (ih.mpr h.2.2)

/-- A window is drawn without its alpha channel only if it is the lowest and the topmost of
several that are drawn one by one, or nothing is seen through it. -/
theorem drawFrom_unblended {l : List ω} {lowest : Bool} (h : Single bg s l lowest) {w : ω}
    (hw : .window w false ∈ drawFrom bg s l lowest) :
    (s w).translucent = false ∨ optimized bg (s w) ∧ lowest ∧ l = [w] := by
  match l with
  | [] => cases hw
  | [v] =>
    rw [drawFrom,List.mem_append] at hw
    rcases hw with hw | hw
    · split_ifs at hw
      · cases List.mem_singleton.mp hw
      · cases hw
    · obtain ⟨rfl,hflag⟩ := Layer.window.inj (List.mem_singleton.mp hw)
      by_cases htr : (s w).translucent
      · simp only [htr,Bool.true_and,Bool.false_eq,Bool.not_eq_false',Bool.and_eq_true] at hflag
        exact .inr ⟨hflag.1,hflag.2,rfl⟩
      · exact .inl (by simpa using htr)
  | u::v::above =>
    have hone : ¬ (!(s u).translucent || (optimized bg (s u) && lowest)) := by
      rw [Bool.or_eq_true,Bool.not_eq_true',Bool.and_eq_true,h.1]
      exact fun hor => hor.elim (fun h => by cases h) h.2.1
    rw [drawFrom,if_neg hone,List.mem_append] at hw
    rcases hw with hw | hw
    · split_ifs at hw
      · cases List.mem_singleton.mp hw
      · cases hw
    · rcases List.mem_cons.mp hw with hw | hw
      · cases hw
      · rcases drawFrom_unblended h.2.2 hw with htr | ho
        · exact .inl htr
        · exact absurd ho.2.1 Bool.false_ne_true

/-- A bin is drawn in order exactly if no two of its windows are drawn at once. -/
theorem inOrder_iff {windows : List ω} (hl : windows.Nodup) :
    InOrder bg s windows (drawBin bg s windows) ↔ Single bg s windows.reverse true := by
  by_cases hempty : windows = []
  · subst hempty
    refine iff_of_true ⟨rfl,fun w hw => ?_⟩ trivial
    cases List.mem_singleton.mp hw
  have hne : windows.isEmpty = false := List.isEmpty_eq_false_iff.mpr hempty
  have horder : (drawFrom bg s windows.reverse true).map Layer.window? =
      (if true && windows.reverse.head?.any fun w => (s w).translucent then [none] else [])++
        windows.reverse.map some ↔ Single bg s windows.reverse true :=
    drawFrom_order (List.nodup_reverse.mpr hl) true
  have hhead : (true && windows.reverse.head?.any fun w => (s w).translucent) =
      windows.reverse.head?.all fun w => (s w).translucent := by
    obtain ⟨w,hw⟩ : ∃ w, windows.reverse.head? = some w :=
      Option.isSome_iff_exists.mp (by simpa using hempty)
    rw [hw]
    rfl
  rw [hhead] at horder
  have hdraw : drawBin bg s windows = drawFrom bg s windows.reverse true := by
    rw [drawBin,hne,if_neg Bool.false_ne_true]
  constructor
  · intro h
    rw [← horder,← hdraw]
    exact h.order
  · intro h
    rw [hdraw]
    refine ⟨horder.mpr h,fun w hw => ?_⟩
    refine (drawFrom_unblended h hw).imp_right fun ⟨ho,_,hone⟩ => ⟨ho,?_⟩
    rw [← List.reverse_reverse windows,hone]
    rfl

def Agree (borders : Borders) (tier : Tier) (s : Windows ω) (eye : Eye) (l : List ω)
    (p : ℤ × ℤ) : Prop :=
  ∀ above w below, foundAt borders tier s eye l p = above++w::below → below ≠ [] →
    (∀ v ∈ above, ¬ Ends s v p ∧ ¬ Hides borders tier s eye v p) →
    (Ends s w p ↔ Hides borders tier s eye w p)

theorem upTo_ne_nil {α : Type*} (P : α → Prop) [DecidablePred P] {l : List α} (h : l ≠ []) :
    upTo P l ≠ [] := by
  cases l with
  | nil => exact absurd rfl h
  | cons a l =>
    rw [upTo_cons]
    split_ifs <;> exact List.cons_ne_nil _ _

/-- Two lists that end at different properties are the same exactly if they agree on the first
entry with one of them, or that is the last. -/
theorem upTo_eq_iff {α : Type*} (P Q : α → Prop) [DecidablePred P] [DecidablePred Q]
    (l : List α) : upTo P l = upTo Q l ↔ ∀ above a below, l = above++a::below → below ≠ [] →
      (∀ b ∈ above, ¬ P b ∧ ¬ Q b) → (P a ↔ Q a) := by
  induction l with
  | nil =>
    refine iff_of_true rfl fun above a below h => ?_
    simp at h
  | cons c l ih =>
    rw [upTo_cons,upTo_cons]
    by_cases hPQ : ¬ P c ∧ ¬ Q c
    · rw [if_neg hPQ.1,if_neg hPQ.2,List.cons.injEq,ih]
      simp only [true_and]
      constructor
      · intro h above a below heq hne habove
        cases above with
        | nil =>
          obtain ⟨rfl,-⟩ := List.cons.inj heq
          exact iff_of_false hPQ.1 hPQ.2
        | cons b above =>
          obtain ⟨rfl,rfl⟩ := List.cons.inj heq
          exact h above a below rfl hne fun b hb => habove b (List.mem_cons_of_mem _ hb)
      · intro h above a below heq hne habove
        refine h (c::above) a below (by rw [heq]; rfl) hne ?_
        rw [List.forall_mem_cons]
        exact ⟨hPQ,habove⟩
    · by_cases hl : l = []
      · subst hl
        refine iff_of_true (by simp [upTo]) fun above a below heq hne => ?_
        cases above with
        | nil => exact absurd (List.cons.inj heq).2.symm hne
        | cons b above => simp at heq
      · have hfirst : (∀ above a below, c::l = above++a::below → below ≠ [] →
            (∀ b ∈ above, ¬ P b ∧ ¬ Q b) → (P a ↔ Q a)) ↔ (P c ↔ Q c) := by
          constructor
          · exact fun h => h [] c l rfl hl fun b hb => by cases hb
          · intro h above a below heq _ habove
            cases above with
            | nil =>
              obtain ⟨rfl,-⟩ := List.cons.inj heq
              exact h
            | cons b above =>
              obtain ⟨rfl,-⟩ := List.cons.inj heq
              exact absurd (habove c List.mem_cons_self) hPQ
        have hP := upTo_ne_nil P hl
        have hQ := upTo_ne_nil Q hl
        rw [hfirst]
        by_cases hp : P c <;> by_cases hq : Q c <;> simp [hp,hq,hP,hQ.symm]
        exact absurd ⟨hp,hq⟩ hPQ

end Order

def seenAt (borders : Borders) (tier : Tier) (s : Windows ω) (eye : Eye) (l : List ω)
    (p : ℤ × ℤ) : List ω :=
  upTo (Hides borders tier s eye · p) (foundAt borders tier s eye l p)

def binAt (borders : Borders) (tier : Tier) (s : Windows ω) (eye : Eye) (l : List ω)
    (p : ℤ × ℤ) : List ω :=
  upTo (Ends s · p) (foundAt borders tier s eye l p)

theorem drawn_updateRegion4 (l : List ω) {region : Region} (hr : region.Regular) (p : ℤ × ℤ) :
    (region.Contains p → Drawn bg s p (updateRegion4 borders tier bg s eye l region)
      (binAt borders tier s eye l p)) ∧
    (¬ region.Contains p → drawsAt p (updateRegion4 borders tier bg s eye l region) = []) := by
  unfold updateRegion4
  by_cases hl : l.isEmpty
  · obtain rfl := List.isEmpty_iff.mp hl
    rw [if_pos hl]
    refine ⟨fun hp => ⟨⟨region,0,[],0⟩,hp,rfl,?_⟩,fun hp => ?_⟩
    · simp [drawsAt,hp,binAt,foundAt,upTo,drawBin]
    · simp [drawsAt,hp]
  · have hdivides : Divides bg s p (updateRegion4R borders tier bg s eye l)
        (upTo (Ends s · p) (foundAt borders tier s eye l p)) := divides_updateRegion4R l
    obtain ⟨hin,hout⟩ := hdivides ⟨region,l.length,[],0⟩ 1 hr
    rw [if_neg hl]
    exact ⟨fun hp => (hin hp).prepend (a := [_]) rfl,fun hp => hout hp⟩

/-- All numbers of bins are different, and each of them is freed as often as it is given. -/
theorem ids_updateRegion4 (l : List ω) (region : Region) :
    (gotIds (updateRegion4 borders tier bg s eye l region)).Nodup ∧
    ∀ id, (freedIds (updateRegion4 borders tier bg s eye l region)).count id =
      (gotIds (updateRegion4 borders tier bg s eye l region)).count id := by
  unfold updateRegion4
  by_cases hl : l.isEmpty
  · rw [if_pos hl]
    exact ⟨List.nodup_nil,fun _ => rfl⟩
  rw [if_neg hl]
  have hnumbered : ∀ bin : Bin ω, Numbered 1 (updateRegion4R borders tier bg s eye l bin 1).1
      (updateRegion4R borders tier bg s eye l bin 1).2 [bin.id] :=
    fun bin => numbered_updateRegion4R l bin 1
  obtain ⟨k,-,hgot,hfreed⟩ := hnumbered ⟨region,l.length,[],0⟩
  have hids : ∀ size cap rest, gotIds (.get 0 size cap::rest : List (Event ω)) = 0::gotIds rest :=
    fun _ _ _ => rfl
  have hfree : ∀ size cap rest, freedIds (.get 0 size cap::rest : List (Event ω)) =
      freedIds rest := fun _ _ _ => rfl
  dsimp only
  refine ⟨?_,fun id => ?_⟩
  · rw [hids,hgot]
    refine List.nodup_cons.mpr ⟨fun h => ?_,List.nodup_range'⟩
    have := (List.mem_range'_1.mp h).1
    omega
  · rw [hids,hfree,hgot,hfreed id]
    simp only [List.count_cons,List.count_nil,Nat.zero_add]

theorem foundAt_nodup {l : List ω} (hl : l.Nodup) (p : ℤ × ℤ) :
    (foundAt borders tier s eye l p).Nodup := hl.filter _

theorem upTo_sublist {α : Type*} (P : α → Prop) [DecidablePred P] (l : List α) :
    (upTo P l).Sublist l := by
  induction l with
  | nil => exact .slnil
  | cons a l ih =>
    rw [upTo_cons]
    split_ifs
    · exact (List.nil_sublist l).cons_cons a
    · exact ih.cons_cons a

theorem drawBin_ne_nil (windows : List ω) : drawBin bg s windows ≠ [] := by
  unfold drawBin
  split_ifs with hempty
  · exact List.cons_ne_nil _ _
  · match h : windows.reverse with
    | [] => exact absurd (by simpa using h) hempty
    | [w] => simp [drawFrom]
    | w::v::above =>
      rw [drawFrom]
      split_ifs <;> simp

section Picture
variable {p : ℤ × ℤ} {π : Type*} {paint : Layer ω → π → π}

/-- Without its alpha channel a window is drawn alike, where nothing is seen through it, or it
is the lowest, and may be drawn without blending over the background. -/
theorem paint_flag (hm : Blending bg s eye p paint) (w : ω) (lowest : Bool) (x : π) :
    paint (.window w ((s w).translucent && !(optimized bg (s w) && lowest)))
      (painted paint x (if lowest && (s w).translucent then [.background] else [])) =
    paint (.window w true)
      (painted paint x (if lowest && (s w).translucent then [.background] else [])) := by
  by_cases htr : (s w).translucent
  · by_cases ho : optimized bg (s w) && lowest
    · obtain ⟨ho,hl⟩ := (Bool.and_eq_true _ _).mp ho
      obtain ⟨hz,hpre,hun⟩ := optimized_spec ho
      simp only [htr,ho,hl,Bool.and_self,Bool.not_true,if_true]
      exact hm.premultiplied hz w hpre hun _ _
    · simp [htr,ho]
  · have ha : (s w).options.alphaChannel = false := by
      simp only [Window.translucent,Bool.or_eq_true,not_or] at htr
      simpa using htr.1.1.2.1.2
    have heq := hm.alpha w fun h => by rw [ha] at h; cases h
    simp [htr,heq]

theorem filter_background (c : Bool) : (if c then [.background] else [] : List (Layer ω)).filter
    (fun a => Reaches borders s eye a p) = if c then [.background] else [] := by
  cases c <;> simp [reaches_background]

/-- The draws of a bin give what its windows do, drawn one over the other. -/
theorem painted_drawFrom (hm : Blending bg s eye p paint) {l : List ω} {lowest : Bool}
    (hb : ∀ w ∈ l, (s w).border borders = 0) (hs : ∀ w ∈ l, Shown borders tier s w)
    (h : Single bg s l lowest) (x : π) :
    painted paint x ((drawFrom bg s l lowest).filter fun a => Reaches borders s eye a p) =
      painted paint x ((if lowest && l.head?.any fun w => (s w).translucent then
        [.background] else [])++covering borders tier s eye l p) := by
  have hreach : ∀ w ∈ l, ∀ a, Reaches borders s eye (.window w a) p ↔
      Covers borders tier s eye w p := fun w hw a =>
    (reaches_window (hb w hw) (input_of_visible (hb w hw) (hs w hw).1) a p).trans
      ⟨fun h => (covers_iff (hb w hw)).mpr ⟨hs w hw,h⟩,fun h => h.2.2⟩
  match l with
  | [] => simp [drawFrom,covering]
  | [w] =>
    have hw := hreach w List.mem_cons_self
    rw [drawFrom,List.filter_append,filter_background,covering_cons,List.head?_cons,
      Option.any_some,painted_append,painted_append]
    by_cases hc : Covers borders tier s eye w p
    · rw [if_pos hc,List.filter_cons_of_pos (by simpa using (hw _).mpr hc)]
      exact paint_flag hm w lowest x
    · rw [if_neg hc,List.filter_cons_of_neg (by simpa using (hw _).not.mpr hc)]
      rfl
  | w::v::above =>
    have hw := hreach w List.mem_cons_self
    have hone : ¬ (!(s w).translucent || (optimized bg (s w) && lowest)) := by
      rw [Bool.or_eq_true,Bool.not_eq_true',Bool.and_eq_true,h.1]
      exact fun hor => hor.elim (fun h => by cases h) h.2.1
    have ih := fun y => painted_drawFrom hm (fun u hu => hb u (List.mem_cons_of_mem w hu))
      (fun u hu => hs u (List.mem_cons_of_mem w hu)) h.2.2 y
    rw [drawFrom,if_neg hone,List.filter_append,filter_background,covering_cons,List.head?_cons,
      Option.any_some,painted_append,painted_append]
    by_cases hc : Covers borders tier s eye w p
    · rw [if_pos hc,List.filter_cons_of_pos (by simpa using (hw _).mpr hc)]
      exact ih _
    · rw [if_neg hc,List.filter_cons_of_neg (by simpa using (hw _).not.mpr hc)]
      exact ih _

theorem hides_found {w : ω} (h : Hides borders tier s eye w p) : Found borders tier s eye p w :=
  ⟨h.1.1,(Window.dstArea_within eye (s w)).contains h.1.2.2⟩

/-- What is painted from the topmost window that hides the rest: the windows that are seen, and
the background if there is none such. -/
theorem painterFrom_eq (l : List ω) : painterFrom (Covers borders tier s eye · p)
    (Hides borders tier s eye · p) (Layer.window · true) l =
      (if ∃ w ∈ seenAt borders tier s eye l p, Hides borders tier s eye w p then []
        else [.background])++covering borders tier s eye (seenAt borders tier s eye l p).reverse p := by
  induction l with
  | nil => rfl
  | cons w below ih =>
    rw [painterFrom]
    by_cases hcut : Hides borders tier s eye w p
    · have hseen : seenAt borders tier s eye (w::below) p = [w] := by
        rw [seenAt,foundAt,List.filter_cons_of_pos (by simpa using hides_found hcut),upTo_cons,
          if_pos hcut]
      rw [if_pos hcut,hseen,if_pos ⟨w,List.mem_singleton_self w,hcut⟩,List.reverse_singleton,
        covering_cons,if_pos hcut.1]
      rfl
    · rw [if_neg hcut,ih]
      by_cases hf : Found borders tier s eye p w
      · have hseen : seenAt borders tier s eye (w::below) p =
            w::seenAt borders tier s eye below p := by
          rw [seenAt,foundAt,List.filter_cons_of_pos (by simpa using hf),upTo_cons,if_neg hcut]
          rfl
        have hex : (∃ v ∈ w::seenAt borders tier s eye below p, Hides borders tier s eye v p) ↔
            ∃ v ∈ seenAt borders tier s eye below p, Hides borders tier s eye v p := by
          simp [hcut]
        rw [hseen,if_congr hex rfl rfl,List.reverse_cons,covering_append,covering_cons]
        split_ifs <;> simp [covering]
      · have hc : ¬ Covers borders tier s eye w p :=
          fun h => hf ⟨h.1,(Window.dstArea_within eye (s w)).contains h.2.2⟩
        have hseen : seenAt borders tier s eye (w::below) p = seenAt borders tier s eye below p := by
          rw [seenAt,foundAt,List.filter_cons_of_neg (by simpa using hf)]
          rfl
        rw [if_neg hc,hseen]

def Grounded (borders : Borders) (tier : Tier) (s : Windows ω) (eye : Eye) (windows : List ω)
    (p : ℤ × ℤ) : Prop :=
  (∃ w ∈ windows, Hides borders tier s eye w p) ∨ ∀ w, windows.getLast? = some w → (s w).translucent

theorem mem_binAt {l : List ω} {w : ω} (hw : w ∈ (binAt borders tier s eye l p).reverse) :
    w ∈ l ∧ Found borders tier s eye p w := by
  have := (upTo_sublist _ _).subset (List.mem_reverse.mp hw)
  simpa [foundAt] using this

/-- What is drawn over a pixel of a bin are its windows, and the background if the lowest is
translucent. -/
theorem painted_drawBin (hm : Blending bg s eye p paint) {l : List ω}
    (hb : ∀ w ∈ l, (s w).border borders = 0)
    (hsingle : Single bg s (binAt borders tier s eye l p).reverse true) (x : π) :
    painted paint x ((drawBin bg s (binAt borders tier s eye l p)).filter
      fun a => Reaches borders s eye a p) =
    painted paint x ((if (binAt borders tier s eye l p).getLast?.all fun w => (s w).translucent then
      [.background] else [])++covering borders tier s eye (binAt borders tier s eye l p).reverse p) := by
  unfold drawBin
  by_cases hempty : binAt borders tier s eye l p = []
  · rw [hempty]
    simp [covering,reaches_background]
  have hne : (binAt borders tier s eye l p).isEmpty = false := List.isEmpty_eq_false_iff.mpr hempty
  obtain ⟨w,hw⟩ : ∃ w, (binAt borders tier s eye l p).getLast? = some w :=
    Option.isSome_iff_exists.mp (by simpa using hempty)
  rw [hne,if_neg Bool.false_ne_true,painted_drawFrom hm (fun w hw => hb w (mem_binAt hw).1)
    (fun w hw => (mem_binAt hw).2.1) hsingle,Bool.true_and,List.head?_reverse,hw,Option.any_some,
    Option.all_some]

theorem painted_bin (hm : Blending bg s eye p paint) {l : List ω}
    (hb : ∀ w ∈ l, (s w).border borders = 0) (hagree : Agree borders tier s eye l p)
    (hsingle : Single bg s (binAt borders tier s eye l p).reverse true)
    (hground : Grounded borders tier s eye (binAt borders tier s eye l p) p) (x : π) :
    painted paint x ((drawBin bg s (binAt borders tier s eye l p)).filter
      fun a => Reaches borders s eye a p) = painted paint x (painter borders tier s eye l p) := by
  have hseen : binAt borders tier s eye l p = seenAt borders tier s eye l p :=
    (upTo_eq_iff (Ends s · p) (Hides borders tier s eye · p) _).mpr hagree
  have hpainter : painted paint x (painterFrom (Covers borders tier s eye · p)
      (Hides borders tier s eye · p) (Layer.window · true) l) =
      painted paint x (painter borders tier s eye l p) :=
    painted_painterFrom hm.toMeaning (fun _ => Iff.rfl) (fun _ h => h) (fun _ => rfl) l x
  rw [painted_drawBin hm hb hsingle,← hpainter,painterFrom_eq,← hseen,painted_append,
    painted_append]
  rcases hground with ⟨w,hw,hh⟩ | htr
  · exact painted_covering hm.toMeaning ⟨w,List.mem_reverse.mpr hw,hh⟩ _ _
  by_cases hcut : ∃ w ∈ binAt borders tier s eye l p, Hides borders tier s eye w p
  · obtain ⟨w,hw,hc⟩ := hcut
    exact painted_covering hm.toMeaning ⟨w,List.mem_reverse.mpr hw,hc⟩ _ _
  · have hall : (binAt borders tier s eye l p).getLast?.all fun w => (s w).translucent := by
      cases h : (binAt borders tier s eye l p).getLast? with
      | none => rfl
      | some w => exact htr w h
    rw [if_neg hcut,if_pos hall]

theorem grounded_of_painted {l : List ω} (hb : ∀ w ∈ l, (s w).border borders = 0)
    (hsingle : Single bg s (binAt borders tier s eye l p).reverse true)
    (h : painted (mark s eye p) false ((drawBin bg s (binAt borders tier s eye l p)).filter
      fun a => Reaches borders s eye a p) =
        painted (mark s eye p) false (painter borders tier s eye l p)) :
    Grounded borders tier s eye (binAt borders tier s eye l p) p := by
  by_contra hn
  simp only [Grounded,not_or,not_forall] at hn
  obtain ⟨hhid,w,hw,htr⟩ := hn
  have hpainter := painter_reverse borders tier s eye l.reverse p
  rw [List.reverse_reverse] at hpainter
  have hnone : ¬ ∃ w ∈ (binAt borders tier s eye l p).reverse, Hides borders tier s eye w p :=
    fun ⟨v,hv,hh⟩ => hhid ⟨v,List.mem_reverse.mp hv,hh⟩
  rw [painted_drawBin (mark_blending bg s eye p) hb hsingle,hw,Option.all_some,if_neg htr,
    List.nil_append,painted_mark_covering hnone,hpainter] at h
  exact absurd (h.trans (painted_mark_true _)) Bool.false_ne_true

end Picture

/-- A region is parted into bins, each of which is freed once and never gets more windows than
it can hold. Over each pixel one bin is drawn. -/
structure Parts (region : Region) (events : List (Event ω)) : Prop where
  once : (gotIds events).Nodup
  freed : ∀ id, (freedIds events).count id = (gotIds events).count id
  fits : Fits events
  inside : ∀ p, ¬ region.Contains p → drawsAt p events = []
  one : ∀ p, region.Contains p → ∃ bin draws, bin.region.Contains p ∧ draws ≠ [] ∧
    drawsAt p events = draws.map (bin,·)

/-- The bins have the windows that are seen there, and what is drawn are these in their order,
and the painter's picture. -/
structure Composes (borders : Borders) (tier : Tier) (bg : Background) (s : Windows ω)
    (eye : Eye) (l : List ω) (region : Region) (events : List (Event ω)) : Prop
    extends Parts region events where
  bins : ∀ p, region.Contains p → ∀ bin draws, drawsAt p events = draws.map (bin,·) →
    bin.windows = seenAt borders tier s eye l p ∧ InOrder bg s bin.windows draws
  painter : ∀ p, region.Contains p → ∀ {π : Type} (paint : Layer ω → π → π),
    Blending bg s eye p paint → ∀ x,
      painted paint x (((drawsAt p events).map Prod.snd).filter fun a => Reaches borders s eye a p) =
        painted paint x (painter borders tier s eye l p)

theorem parts_updateRegion4 (l : List ω) {region : Region} (hr : region.Regular) :
    Parts region (updateRegion4 borders tier bg s eye l region) := by
  refine ⟨(ids_updateRegion4 l region).1,(ids_updateRegion4 l region).2,?_,
    fun p => (drawn_updateRegion4 l hr p).2,fun p hp => ?_⟩
  · unfold updateRegion4
    split_ifs
    · exact fun id size cap h => by simp at h
    · refine Fits.append (a := [_]) (fun id size cap h => ?_) (fits_updateRegion4R l _ 1 (by simp))
      obtain ⟨-,rfl,rfl⟩ := Event.get.inj (List.mem_singleton.mp h)
      exact Nat.zero_le _
  · obtain ⟨bin,hbin,-,hdraws⟩ := (drawn_updateRegion4 l hr p).1 hp
    exact ⟨bin,_,hbin,drawBin_ne_nil _,hdraws⟩

/-- The draws over a pixel tell of which bin they are. -/
theorem draws_eq {region : Region} (hr : region.Regular) {l : List ω} {p : ℤ × ℤ}
    (hp : region.Contains p) {bin : Bin ω} {draws : List (Layer ω)}
    (h : drawsAt p (updateRegion4 borders tier bg s eye l region) = draws.map (bin,·)) :
    bin.windows = binAt borders tier s eye l p ∧
      draws = drawBin bg s (binAt borders tier s eye l p) := by
  obtain ⟨bin',-,hw,hdraws⟩ := (drawn_updateRegion4 l hr p).1 hp
  have hsame := h.symm.trans hdraws
  have hlayers : draws = drawBin bg s (binAt borders tier s eye l p) := by
    have := congrArg (List.map Prod.snd) hsame
    simpa [Function.comp_def] using this
  have hne : drawBin bg s (binAt borders tier s eye l p) ≠ [] := drawBin_ne_nil _
  obtain ⟨a,rest,hcons⟩ := List.exists_cons_of_ne_nil hne
  rw [hlayers,hcons] at hsame
  obtain rfl : bin = bin' := (Prod.mk.inj (List.cons.inj hsame).1).1
  exact ⟨hw,hlayers⟩

theorem layers_updateRegion4 {region : Region} (hr : region.Regular) (l : List ω) {p : ℤ × ℤ}
    (hp : region.Contains p) :
    (drawsAt p (updateRegion4 borders tier bg s eye l region)).map Prod.snd =
      drawBin bg s (binAt borders tier s eye l p) := by
  obtain ⟨bin,-,-,hdraws⟩ := (drawn_updateRegion4 l hr p).1 hp
  rw [hdraws,List.map_map]
  exact List.map_id _

/-- A region is always parted into bins as it is demanded. They are also drawn so exactly if at
each pixel the recursion ends at the window that hides the rest, no window that is drawn without
its alpha channel has others above it in the bin, and the lowest is drawn upon the background
where that is seen. -/
theorem bins_compose {l : List ω} (hl : l.Nodup) (hb : ∀ w ∈ l, (s w).border borders = 0)
    {region : Region} (hr : region.Regular) :
    Parts region (updateRegion4 borders tier bg s eye l region) ∧
      (Composes borders tier bg s eye l region (updateRegion4 borders tier bg s eye l region) ↔
        ∀ p, region.Contains p → Agree borders tier s eye l p ∧
          Single bg s (seenAt borders tier s eye l p).reverse true ∧
          Grounded borders tier s eye (seenAt borders tier s eye l p) p) := by
  have hagree : ∀ p, Agree borders tier s eye l p ↔
      binAt borders tier s eye l p = seenAt borders tier s eye l p :=
    fun p => (upTo_eq_iff (Ends s · p) (Hides borders tier s eye · p) _).symm
  have hnodup : ∀ p, (binAt borders tier s eye l p).Nodup :=
    fun p => (foundAt_nodup hl p).sublist (upTo_sublist _ _)
  refine ⟨parts_updateRegion4 l hr,fun h p hp => ?_,fun h => ⟨parts_updateRegion4 l hr,?_,?_⟩⟩
  · obtain ⟨bin,draws,-,-,hdraws⟩ := h.one p hp
    obtain ⟨hw,horder⟩ := h.bins p hp bin draws hdraws
    obtain ⟨hbin,rfl⟩ := draws_eq hr hp hdraws
    have hsame : binAt borders tier s eye l p = seenAt borders tier s eye l p := hbin.symm.trans hw
    have hsingle : Single bg s (binAt borders tier s eye l p).reverse true := by
      rw [← inOrder_iff (hnodup p),← hbin]
      rwa [hbin] at horder ⊢
    have hground := h.painter p hp (mark s eye p) (mark_blending bg s eye p) false
    rw [layers_updateRegion4 hr l hp] at hground
    rw [hagree p,← hsame]
    exact ⟨rfl,hsingle,grounded_of_painted hb hsingle hground⟩
  · intro p hp bin draws hdraws
    obtain ⟨hag,hsingle,-⟩ := h p hp
    obtain ⟨hbin,rfl⟩ := draws_eq hr hp hdraws
    rw [← (hagree p).mp hag] at hsingle ⊢
    rw [hbin]
    exact ⟨rfl,(inOrder_iff (hnodup p)).mpr hsingle⟩
  · intro p hp π paint hm x
    obtain ⟨hag,hsingle,hground⟩ := h p hp
    rw [layers_updateRegion4 hr l hp]
    rw [← (hagree p).mp hag] at hsingle hground
    exact painted_bin hm hb hag hsingle hground x

def stereoWindow (opacity : Fin 256) (z : ℤ) : Window Bool where
  config := {bounds := ⟨0,0,10,10,ten_nonneg,ten_nonneg⟩, opacity := opacity, z := z}
  inserted := true
  placement := ⟨⟨0,0,10,10,ten_nonneg,ten_nonneg⟩,⟨0,0,10,10,ten_nonneg,ten_nonneg⟩,
    ⟨0,0,10,10,ten_nonneg,ten_nonneg⟩,by decide⟩

def stereoWindows (lower : Fin 256) : Windows Bool
  | false => stereoWindow lower 0
  | true => stereoWindow 0x80 2

def middleTier : Tier := ⟨fun c => c == .middle,20,20,twenty_nonneg,twenty_nonneg⟩

def colorBackground : Background := ⟨.color,0xff,0,0,0⟩

/-- With a translucent window below, the windows are drawn one by one. -/
theorem translucent_bins_compose :
    Composes noBorders middleTier colorBackground (stereoWindows 0x80) .right [true,false] ⟨2,2,5,5⟩
      (updateRegion4 noBorders middleTier colorBackground (stereoWindows 0x80) .right [true,false]
        ⟨2,2,5,5⟩) := by
  refine (bins_compose (by decide) (by decide) ⟨by decide,by decide⟩).2.mpr fun p hp => ?_
  have hends : ∀ w, ¬ Ends (stereoWindows 0x80) w p := fun w => by
    cases w <;> exact fun h => Bool.noConfusion h
  have hhides : ∀ w, ¬ Hides noBorders middleTier (stereoWindows 0x80) .right w p :=
    fun w h => absurd h.2.1 (by cases w <;> decide)
  have hfound : foundAt noBorders middleTier (stereoWindows 0x80) .right [true,false] p =
      [true,false] := by
    refine List.filter_eq_self.mpr fun w _ => decide_eq_true ⟨by cases w <;> decide,?_⟩
    simp only [Region.Contains] at hp
    cases w
    · show 0+0 ≤ p.1 ∧ p.1 ≤ 0+10-1+0 ∧ 0+0 ≤ p.2 ∧ p.2 ≤ 0+10-1+0
      omega
    · show 0+(-2) ≤ p.1 ∧ p.1 ≤ 0+10-1+(-2) ∧ 0+0 ≤ p.2 ∧ p.2 ≤ 0+10-1+0
      omega
  have hseen : seenAt noBorders middleTier (stereoWindows 0x80) .right [true,false] p =
      [true,false] := by
    rw [seenAt,hfound,upTo_cons,if_neg (hhides _),upTo_cons,if_neg (hhides _)]
    rfl
  rw [hseen]
  exact ⟨fun _ w _ _ _ _ => iff_of_false (hends w) (hhides w),by decide,
    .inr fun w _ => by cases w <;> decide⟩

/-- With an opaque window below, both are drawn at once, and the upper one is lost. -/
theorem opaque_bin_reversed :
    ¬ Composes noBorders middleTier colorBackground (stereoWindows 0xff) .left [true,false]
      ⟨2,2,5,5⟩ (updateRegion4 noBorders middleTier colorBackground (stereoWindows 0xff) .left
        [true,false] ⟨2,2,5,5⟩) := by
  rw [(bins_compose (by decide) (by decide) ⟨by decide,by decide⟩).2]
  intro h
  exact absurd (h (2,2) (by decide)).2.1 (by decide)

end DirectFB.SaWMan.UpdateRegion4
