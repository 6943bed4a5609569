import DirectFB.Forest
import DirectFB.Reaches
import DirectFB.Types

/-! Windows that are bound to others, and move with them. -/
set_option linter.unusedSectionVars false
namespace DirectFB.WindowBinding
open Forest Transition

/-- What is read of a `CoreWindow`. -/
structure Window (ω : Type*) where
  position : ℤ×ℤ
  size : ℤ×ℤ
  boundTo : Option ω
  boundWindows : List (ω×ℤ×ℤ)
  destroyed : Bool
  subwindows : List ω

/-- How the window manager answers to a new position, or new bounds: if it succeeds, and what
becomes of the window. -/
structure WM (ω : Type*) where
  setPosition : ω → ℤ×ℤ → Bool×(ℤ×ℤ)
  setBounds : ω → ℤ×ℤ → ℤ×ℤ → Bool×(ℤ×ℤ)×(ℤ×ℤ)

abbrev State (ω : Type*) := ω → Window ω

variable {ω : Type*} [DecidableEq ω]

def modify (s : State ω) (w : ω) (f : Window ω → Window ω) : State ω :=
  Function.update s w (f (s w))

def moveBound (move : State ω → ω → ℤ×ℤ → Option (State ω)) (w : ω) :
    List (ω×ℤ×ℤ) → State ω → Option (State ω)
  | [], s => some s
  | (b,offset)::l, s => (move s b ((s w).position+offset)).bind (moveBound move w l)

/-- `move_window`, at most so many levels deep. -/
def moveWindow (wm : WM ω) : ℕ → State ω → ω → ℤ×ℤ → Option (State ω×Bool)
  | 0, _, _, _ => none
  | n+1, s, w, position =>
    let s' := modify s w fun window => {window with position := (wm.setPosition w position).2}
    if (wm.setPosition w position).1 then
      (moveBound (fun s b position => (moveWindow wm n s b position).map Prod.fst) w
        (s w).boundWindows s').map fun s => (s,true)
    else some (s',false)

/-- `dfb_window_move`. -/
def move (wm : WM ω) (n : ℕ) (s : State ω) (w : ω) (position : ℤ×ℤ) (relative : Bool) :
    Option (State ω×DirectResult) :=
  if (s w).destroyed then some (s,.destroyed)
  else if (s w).boundTo.isSome then some (s,.unsupported)
  else
    let position := if relative then position+(s w).position else position
    if position = (s w).position then some (s,.ok)
    else (moveWindow wm n s w position).map fun r => (r.1,if r.2 then .ok else .failure)

/-- `dfb_window_set_bounds`. -/
def setBounds (wm : WM ω) (n : ℕ) (s : State ω) (w : ω) (position size : ℤ×ℤ) :
    Option (State ω×DirectResult) :=
  if (s w).destroyed then some (s,.destroyed)
  else if (s w).boundTo.isSome ∧ (s w).position ≠ position then some (s,.unsupported)
  else if (s w).position = position ∧ (s w).size = size then some (s,.ok)
  else
    let answer := wm.setBounds w position size
    let s' := modify s w fun window => {window with
      position := answer.2.1
      size := answer.2.2}
    if answer.1 then
      if (s w).position ≠ position then
        (moveBound (fun s b position => (moveWindow wm n s b position).map Prod.fst) w
          (s w).boundWindows s').map fun s => (s,.ok)
      else some (s',.ok)
    else some (s',.failure)

/-- `dfb_window_unbind`. -/
def unbind (s : State ω) (w source : ω) : State ω×DirectResult :=
  if (s w).destroyed ∨ (s source).destroyed then (s,.destroyed)
  else if (s source).boundTo ≠ some w then (s,.unsupported)
  else if (s w).boundWindows.any fun b => b.1 = source then
    let s := modify s w fun window => {window with
      boundWindows := window.boundWindows.eraseP fun b => b.1 = source}
    (modify s source fun window => {window with boundTo := none},.ok)
  else (s,.itemNotFound)

/-- What `dfb_window_bind` and `dfb_window_destroy` begin with for a bound window. -/
def dissolve (s : State ω) (source : ω) : State ω :=
  match (s source).boundTo with
  | some w => (unbind s w source).1
  | none => s

/-- The end of `dfb_window_bind`. -/
def link (s : State ω) (w source : ω) (offset : ℤ×ℤ) : State ω :=
  let s := modify s w fun window => {window with
    boundWindows := window.boundWindows++[(source,offset)]}
  modify s source fun window => {window with boundTo := some w}

/-- `dfb_window_bind`. -/
def bind (wm : WM ω) (n : ℕ) (s : State ω) (w source : ω) (offset : ℤ×ℤ) :
    Option (State ω×DirectResult) :=
  if w = source then some (s,.unsupported)
  else if (s w).destroyed ∨ (s source).destroyed then some (s,.destroyed)
  else (moveWindow wm n (dissolve s source) source ((s w).position+offset)).map fun r =>
    if r.2 then (link r.1 w source offset,.ok) else (r.1,.failure)

def release (s : State ω) (w : ω) : State ω :=
  let s' := (s w).boundWindows.foldl (fun s b => modify s b.1 fun window =>
    {window with boundTo := none}) s
  modify s' w fun window => {window with boundWindows := []}

/-- `dfb_window_destroy`, for a window without sub windows. -/
def destroyOne (s : State ω) (w : ω) : State ω :=
  if (s w).destroyed then s
  else modify (dissolve (release s w) w) w fun window => {window with destroyed := true}

/-- `dfb_window_destroy`. Sub windows have no sub windows themselves. -/
def destroy (s : State ω) (w : ω) : State ω :=
  destroyOne ((s w).subwindows.reverse.foldl destroyOne s) w

inductive Event (ω : Type*)
  | bind (window source : ω) (offset : ℤ×ℤ) (wm : WM ω)
  | unbind (window source : ω)
  | move (window : ω) (position : ℤ×ℤ) (relative : Bool) (wm : WM ω)
  | setBounds (window : ω) (position size : ℤ×ℤ) (wm : WM ω)
  | destroy (window : ω)

def run (n : ℕ) (s : State ω) : Event ω → Option (State ω×DirectResult)
  | .bind w source offset wm => bind wm n s w source offset
  | .unbind w source => some (unbind s w source)
  | .move w position relative wm => move wm n s w position relative
  | .setBounds w position size wm => setBounds wm n s w position size
  | .destroy w => some (destroy s w,.ok)

def step (s : State ω) (e : ℕ×Event ω) : Option (State ω) := (run e.1 s e.2).map Prod.fst

def Initial (s : State ω) : Prop :=
  ∀ w, (s w).boundTo = none ∧ (s w).boundWindows = [] ∧ (s w).destroyed = false

def parent (s : State ω) (w : ω) : Option ω := (s w).boundTo

structure Linked (s : State ω) : Prop where
  bound : ∀ w b, (∃ offset, (b,offset) ∈ (s w).boundWindows) ↔ (s b).boundTo = some w
  nodup : ∀ w, ((s w).boundWindows.map Prod.fst).Nodup
  live : ∀ w b, (s b).boundTo = some w → (s w).destroyed = false ∧ (s b).destroyed = false
  forest : IsForest (parent s)

def links (s : State ω) (w : ω) : Option ω×List (ω×ℤ×ℤ)×Bool×List ω :=
  ((s w).boundTo,(s w).boundWindows,(s w).destroyed,(s w).subwindows)

/-- A window was moved, and so were those that are bound to it as the window manager allowed. -/
inductive Moved (wm : WM ω) (s : State ω) (w : ω) : ω → Prop
  | root : Moved wm s w w
  | bound {x b : ω} {offset : ℤ×ℤ} : Moved wm s w x → (b,offset) ∈ (s x).boundWindows →
      (wm.setPosition b ((s x).position+offset)).1 = true → Moved wm s w b

def Follow (wm : WM ω) (s : State ω) (w : ω) : Prop :=
  ∀ x b offset, Moved wm s w x → (b,offset) ∈ (s x).boundWindows →
    (s b).position = (wm.setPosition b ((s x).position+offset)).2

section Moves
variable {wm : WM ω} {s s' u : State ω} {w x b : ω}

theorem links_eq (h : links u = links s) (w : ω) : (u w).boundTo = (s w).boundTo ∧
    (u w).boundWindows = (s w).boundWindows ∧ (u w).destroyed = (s w).destroyed ∧
    (u w).subwindows = (s w).subwindows := by
  have hw := congrFun h w
  simp only [links,Prod.mk.injEq] at hw
  exact hw

theorem Linked.congr (h : Linked s) (hu : links u = links s) : Linked u := by
  have hlinks := links_eq hu
  refine ⟨fun w b => ?_,fun w => ?_,fun w b hb => ?_,?_⟩
  · rw [(hlinks w).2.1,(hlinks b).1]
    exact h.bound w b
  · rw [(hlinks w).2.1]
    exact h.nodup w
  · rw [(hlinks b).1] at hb
    rw [(hlinks w).2.2.1,(hlinks b).2.2.1]
    exact h.live w b hb
  · have hparent : parent u = parent s := funext fun w => (hlinks w).1
    rw [hparent]
    exact h.forest

theorem Linked.below (h : Linked s) {offset : ℤ×ℤ} (hb : (b,offset) ∈ (s w).boundWindows) :
    Below (parent s) b w := (h.bound w b).mp ⟨offset,hb⟩

theorem Moved.inTree (h : Moved wm s w x) (hs : Linked s) : InTree (parent s) x w := by
  induction h with
  | root => exact .refl
  | bound _ hb _ ih => exact .head (hs.below hb) ih

/-- What happens outside of its tree does not concern a window. -/
theorem Follow.congr (h : Follow wm s w) (hs : Linked s)
    (htree : ∀ x, InTree (parent s) x w → (u x).position = (s x).position ∧
      (u x).boundWindows = (s x).boundWindows) : Follow wm u w := by
  have hmoved : ∀ x, Moved wm u w x → Moved wm s w x := by
    intro x hx
    induction hx with
    | root => exact .root
    | @bound x b offset _ hb hok ih =>
      obtain ⟨hposition,hbound⟩ := htree x (ih.inTree hs)
      rw [hbound] at hb
      rw [hposition] at hok
      exact .bound ih hb hok
  intro x b offset hx hb
  have hx := hmoved x hx
  have hin := hx.inTree hs
  rw [(htree x hin).2] at hb
  rw [(htree x hin).1,(htree b (.head (hs.below hb) hin)).1]
  exact h x b offset hx hb

/-- A window that was moved is followed as the windows that are bound to it are. -/
theorem Follow.of_bound (h : ∀ b offset, (b,offset) ∈ (s w).boundWindows →
    (s b).position = (wm.setPosition b ((s w).position+offset)).2 ∧
    ((wm.setPosition b ((s w).position+offset)).1 = true → Follow wm s b)) : Follow wm s w := by
  have hcases : ∀ x, Moved wm s w x → x = w ∨ ∃ b offset, (b,offset) ∈ (s w).boundWindows ∧
      (wm.setPosition b ((s w).position+offset)).1 = true ∧ Moved wm s b x := by
    intro x hx
    induction hx with
    | root => exact .inl rfl
    | bound _ hb hok ih =>
      obtain rfl | ⟨c,offset,hc,hcok,hmoved⟩ := ih
      · exact .inr ⟨_,_,hb,hok,.root⟩
      · exact .inr ⟨c,offset,hc,hcok,.bound hmoved hb hok⟩
  intro x b offset hx hb
  obtain rfl | ⟨c,coffset,hc,hcok,hmoved⟩ := hcases x hx
  · exact (h b offset hb).1
  · exact (h c coffset hc).2 hcok x b offset hmoved hb

structure Effect (wm : WM ω) (s : State ω) (w : ω) (position : ℤ×ℤ) (s' : State ω) (ok : Bool) :
    Prop where
  links : links s' = links s
  outside : ∀ x, ¬InTree (parent s) x w → (s' x).position = (s x).position
  moved : (s' w).position = (wm.setPosition w position).2
  answer : ok = (wm.setPosition w position).1
  follow : ok = true → Follow wm s' w

/-- The loop moves the trees of bound windows, each of which stays where it was put. -/
theorem moveBound_effect {move : State ω → ω → ℤ×ℤ → Option (State ω)}
    (hmove : ∀ s u b position, Linked s → move s b position = some u →
      ∃ ok, Effect wm s b position u ok)
    (hs : Linked s) {l : List (ω×ℤ×ℤ)} (hl : ∀ b ∈ l, b ∈ (s w).boundWindows)
    (hnodup : (l.map Prod.fst).Nodup) (hu : moveBound move w l s = some u) :
    links u = links s ∧ (∀ x, (∀ b ∈ l, ¬InTree (parent s) x b.1) →
      (u x).position = (s x).position) ∧
    ∀ b offset, (b,offset) ∈ l → (u b).position = (wm.setPosition b ((s w).position+offset)).2 ∧
      ((wm.setPosition b ((s w).position+offset)).1 = true → Follow wm u b) := by
  induction l generalizing s with
  | nil =>
    obtain rfl := Option.some.inj hu
    exact ⟨rfl,fun _ _ => rfl,fun b offset hb => by cases hb⟩
  | cons head l ih =>
    obtain ⟨b,offset⟩ := head
    obtain ⟨hnot,hnodup⟩ := List.nodup_cons.mp hnodup
    obtain ⟨v,hv,hrest⟩ := Option.bind_eq_some_iff.mp hu
    obtain ⟨ok,heffect⟩ := hmove s v b _ hs hv
    have hparent : parent v = parent s := funext fun x => (links_eq heffect.links x).1
    have hb : Below (parent s) b w := hs.below (hl _ List.mem_cons_self)
    have hw : (v w).position = (s w).position := heffect.outside w (hs.forest.irrefl hb)
    obtain ⟨hlinks,houtside,hfollow⟩ := ih (hs.congr heffect.links) (fun c hc => by
      rw [(links_eq heffect.links w).2.1]
      exact hl c (List.mem_cons_of_mem _ hc)) hnodup hrest
    rw [hparent] at houtside
    rw [hw] at hfollow
    -- the trees of the others have nothing in common with this one
    have htree : ∀ x, InTree (parent s) x b → (u x).position = (v x).position := by
      refine fun x hx => houtside x fun c hc => ?_
      have hcw : Below (parent s) c.1 w := hs.below (hl c (List.mem_cons_of_mem _ hc))
      refine hs.forest.disjoint hb hcw ?_ hx
      rintro rfl
      exact hnot (List.mem_map.mpr ⟨c,hc,rfl⟩)
    refine ⟨hlinks.trans heffect.links,fun x hx => ?_,fun c coffset hc => ?_⟩
    · rw [houtside x fun c hc => hx c (List.mem_cons_of_mem _ hc)]
      exact heffect.outside x (hx _ List.mem_cons_self)
    · obtain heq | hc := List.mem_cons.mp hc
      · obtain ⟨rfl,rfl⟩ := Prod.mk.inj heq
        refine ⟨(htree c .refl).trans heffect.moved,fun hok => ?_⟩
        refine (heffect.follow (heffect.answer.trans hok)).congr (hs.congr heffect.links) fun x hx => ?_
        rw [hparent] at hx
        exact ⟨htree x hx,(links_eq hlinks x).2.1⟩
      · exact hfollow c coffset hc

theorem modify_apply (s : State ω) (w x : ω) (f : Window ω → Window ω) :
    modify s w f x = if x = w then f (s x) else s x := by
  unfold modify
  by_cases hx : x = w
  · subst hx
    rw [Function.update_self,if_pos rfl]
  · rw [Function.update_of_ne hx,if_neg hx]

theorem moveWindow_effect (n : ℕ) (hs : Linked s) {position : ℤ×ℤ} {ok : Bool}
    (hu : moveWindow wm n s w position = some (u,ok)) : Effect wm s w position u ok := by
  induction n generalizing s w position u ok with
  | zero => cases hu
  | succ n ih =>
    set v := modify s w fun window => {window with position := (wm.setPosition w position).2} with hv
    have hlinks : links v = links s := by
      funext x
      unfold links
      rw [hv,modify_apply]
      split_ifs <;> rfl
    have hself : (v w).position = (wm.setPosition w position).2 := by
      rw [hv,modify_apply,if_pos rfl]
    have hother : ∀ x, x ≠ w → (v x).position = (s x).position := fun x hx => by
      rw [hv,modify_apply,if_neg hx]
    have hbound : (v w).boundWindows = (s w).boundWindows := (links_eq hlinks w).2.1
    have hparent : parent v = parent s := funext fun x => (links_eq hlinks x).1
    rw [moveWindow,← hv] at hu
    split_ifs at hu with hok
    · obtain ⟨r,hr,heq⟩ := Option.map_eq_some_iff.mp hu
      obtain ⟨rfl,rfl⟩ := Prod.mk.inj heq
      have hmove : ∀ (s u : State ω) b position, Linked s →
          (moveWindow wm n s b position).map Prod.fst = some u →
          ∃ ok, Effect wm s b position u ok := by
        intro s u b position hs hu
        obtain ⟨⟨u',ok⟩,hu',rfl⟩ := Option.map_eq_some_iff.mp hu
        exact ⟨ok,ih hs hu'⟩
      have hlinked := hs.congr hlinks
      rw [← hbound] at hr
      obtain ⟨hlinks',houtside,hfollow⟩ := moveBound_effect hmove hlinked (fun b hb => hb)
        (hlinked.nodup w) hr
      rw [hparent] at houtside
      have hbelow : ∀ b ∈ (v w).boundWindows, Below (parent s) b.1 w := by
        rintro ⟨b,offset⟩ hb
        rw [hbound] at hb
        exact hs.below hb
      have hw : (r w).position = (v w).position := houtside w fun b hb =>
        hs.forest.irrefl (hbelow b hb)
      refine ⟨hlinks'.trans hlinks,fun x hx => ?_,hw.trans hself,hok.symm,fun _ => ?_⟩
      · have hxw : x ≠ w := by
          rintro rfl
          exact hx .refl
        rw [houtside x,hother x hxw]
        exact fun b hb hxb => hx (hxb.tail (hbelow b hb))
      · refine .of_bound fun b offset hb => ?_
        rw [(links_eq hlinks' w).2.1] at hb
        rw [hw]
        exact hfollow b offset hb
    · obtain ⟨rfl,rfl⟩ := Prod.mk.inj (Option.some.inj hu)
      refine ⟨hlinks,fun x hx => hother x ?_,hself,(Bool.eq_false_iff.mpr hok).symm,
        fun heq => by cases heq⟩
      rintro rfl
      exact hx .refl

theorem moveBound_mono {move move' : State ω → ω → ℤ×ℤ → Option (State ω)}
    (h : ∀ s b position r, move s b position = some r → move' s b position = some r)
    {l : List (ω×ℤ×ℤ)} (hu : moveBound move w l s = some u) : moveBound move' w l s = some u := by
  induction l generalizing s with
  | nil => exact hu
  | cons b l ih =>
    obtain ⟨v,hv,hrest⟩ := Option.bind_eq_some_iff.mp hu
    exact Option.bind_eq_some_iff.mpr ⟨v,h _ _ _ _ hv,ih hrest⟩

/-- What returns does so with any deeper recursion. -/
theorem moveWindow_mono {n k : ℕ} (hnk : n ≤ k) {position : ℤ×ℤ} {r : State ω×Bool}
    (hu : moveWindow wm n s w position = some r) : moveWindow wm k s w position = some r := by
  induction n generalizing k s w position r with
  | zero => cases hu
  | succ n ih =>
    obtain ⟨k,rfl⟩ : ∃ i, k = i+1 := ⟨k-1,by omega⟩
    rw [moveWindow] at hu ⊢
    split_ifs at hu ⊢ with hok
    · obtain ⟨v,hv,rfl⟩ := Option.map_eq_some_iff.mp hu
      refine Option.map_eq_some_iff.mpr ⟨v,moveBound_mono (fun s b position r hr => ?_) hv,rfl⟩
      obtain ⟨r',hr',rfl⟩ := Option.map_eq_some_iff.mp hr
      exact Option.map_eq_some_iff.mpr ⟨r',ih (Nat.le_of_succ_le_succ hnk) hr',rfl⟩
    · exact hu

theorem exists_bound {α : Type*} {P : α → ℕ → Prop} {l : List α}
    (h : ∀ b ∈ l, ∃ n, ∀ k ≥ n, P b k) : ∃ n, ∀ k ≥ n, ∀ b ∈ l, P b k := by
  induction l with
  | nil => exact ⟨0,fun _ _ b hb => by cases hb⟩
  | cons b l ih =>
    obtain ⟨n,hn⟩ := h b List.mem_cons_self
    obtain ⟨n',hn'⟩ := ih fun b hb => h b (List.mem_cons_of_mem _ hb)
    refine ⟨max n n',fun k hk c hc => ?_⟩
    obtain rfl | hc := List.mem_cons.mp hc
    · exact hn k (le_trans (le_max_left ..) hk)
    · exact hn' k (le_trans (le_max_right ..) hk) c hc

theorem moveBound_returns {move : State ω → ω → ℤ×ℤ → Option (State ω)} {l : List (ω×ℤ×ℤ)}
    (hlinks : ∀ v u b position, links v = links s → move v b position = some u → links u = links s)
    (hmove : ∀ b ∈ l, ∀ v position, links v = links s → (move v b.1 position).isSome)
    (hu : links u = links s) : (moveBound move w l u).isSome := by
  induction l generalizing u with
  | nil => rfl
  | cons b l ih =>
    obtain ⟨v,hv⟩ := Option.isSome_iff_exists.mp
      (hmove b List.mem_cons_self u ((u w).position+b.2) hu)
    rw [moveBound,hv]
    exact ih (fun b hb => hmove b (List.mem_cons_of_mem _ hb)) (hlinks u v b.1 _ hu hv)

theorem moveBound_ends (wm : WM ω) (hs : Linked s) (w : ω)
    (hall : ∀ b, Below (parent s) b w → ∃ n, ∀ k ≥ n, ∀ v, links v = links s →
      ∀ position, (moveWindow wm k v b position).isSome) :
    ∃ n, ∀ k ≥ n, ∀ v, links v = links s →
      (moveBound (fun s b position => (moveWindow wm k s b position).map Prod.fst) w
        (s w).boundWindows v).isSome := by
  have hall : ∀ b ∈ (s w).boundWindows, ∃ n, ∀ k ≥ n, ∀ v, links v = links s →
      ∀ position, (moveWindow wm k v b.1 position).isSome := by
    rintro ⟨b,offset⟩ hb
    exact hall b (hs.below hb)
  obtain ⟨n,hn⟩ := exists_bound hall
  refine ⟨n,fun k hk v hv => ?_⟩
  refine moveBound_returns (s := s) (fun x u b position hx hu => ?_) (fun b hb x position hx => ?_) hv
  · obtain ⟨⟨u',ok⟩,hu',rfl⟩ := Option.map_eq_some_iff.mp hu
    exact (moveWindow_effect k (hs.congr hx) hu').links.trans hx
  · rw [Option.isSome_map]
    exact hn k hk b hb x hx position

/-- Moving a window ends, by induction on the tree. -/
theorem moveWindow_returns (wm : WM ω) (hs : Linked s) (w : ω) : ∃ n, ∀ k ≥ n, ∀ v,
    links v = links s → ∀ position, (moveWindow wm k v w position).isSome := by
  induction w using hs.forest.induction with
  | _ w ih =>
    obtain ⟨n,hn⟩ := moveBound_ends wm hs w ih
    refine ⟨n+1,fun k hk v hv position => ?_⟩
    obtain ⟨k,rfl⟩ : ∃ i, k = i+1 := ⟨k-1,by omega⟩
    rw [moveWindow]
    split_ifs
    · rw [Option.isSome_map,(links_eq hv w).2.1]
      refine hn k (Nat.le_of_succ_le_succ hk) _ (Eq.trans ?_ hv)
      funext x
      unfold links
      rw [modify_apply]
      split_ifs <;> rfl
    · rfl

end Moves

section Links
variable {wm : WM ω} {s u : State ω} {w source x b : ω}

/-- Some windows are bound no longer. -/
theorem Linked.unlink (h : Linked s) (P : ω → Prop) [DecidablePred P]
    (hto : ∀ b, (u b).boundTo = if P b then none else (s b).boundTo)
    (hsub : ∀ w, (u w).boundWindows.Sublist (s w).boundWindows)
    (hmem : ∀ w b offset, (b,offset) ∈ (u w).boundWindows ↔ (b,offset) ∈ (s w).boundWindows ∧ ¬P b)
    (hdestroyed : ∀ w, (u w).destroyed = (s w).destroyed) : Linked u := by
  have hsome : ∀ b w, (u b).boundTo = some w ↔ (s b).boundTo = some w ∧ ¬P b := by
    intro b w
    rw [hto]
    split_ifs with hb
    · exact iff_of_false (fun heq => by cases heq) fun hand => hand.2 hb
    · exact (and_iff_left hb).symm
  refine ⟨fun w b => ?_,fun w => (h.nodup w).sublist ((hsub w).map _),fun w b hb => ?_,?_⟩
  · simp only [hmem]
    rw [exists_and_right,h.bound,hsome]
  · rw [hdestroyed,hdestroyed]
    exact h.live w b ((hsome b w).mp hb).1
  · exact h.forest.mono fun b w hb => ((hsome b w).mp hb).1

theorem mem_eraseP {l : List (ω×ℤ×ℤ)} (hnodup : (l.map Prod.fst).Nodup) {e : ω×ℤ×ℤ} :
    e ∈ l.eraseP (fun b => b.1 = source) ↔ e ∈ l ∧ e.1 ≠ source := by
  induction l with
  | nil => simp
  | cons b l ih =>
    obtain ⟨hnot,htail⟩ := List.nodup_cons.mp hnodup
    by_cases hb : b.1 = source
    · rw [List.eraseP_cons_of_pos (by simpa using hb)]
      constructor
      · intro he
        refine ⟨List.mem_cons_of_mem _ he,fun heq => hnot ?_⟩
        exact List.mem_map.mpr ⟨e,he,heq.trans hb.symm⟩
      · rintro ⟨he,hne⟩
        refine (List.mem_cons.mp he).resolve_left ?_
        rintro rfl
        exact hne hb
    · rw [List.eraseP_cons_of_neg (by simpa using hb),List.mem_cons,List.mem_cons,ih htail]
      constructor
      · rintro (rfl | ⟨he,hne⟩)
        · exact ⟨.inl rfl,hb⟩
        · exact ⟨.inr he,hne⟩
      · rintro ⟨rfl | he,hne⟩
        · exact .inl rfl
        · exact .inr ⟨he,hne⟩

/-- What `dfb_window_unbind` does to a window that is bound. -/
theorem Linked.unbind_eq (h : Linked s) (hto : (s source).boundTo = some w) :
    unbind s w source = (fun x => {s x with
      boundTo := if x = source then none else (s x).boundTo
      boundWindows := if x = w then (s x).boundWindows.eraseP fun b => b.1 = source
        else (s x).boundWindows},.ok) := by
  obtain ⟨hw,hsource⟩ := h.live w source hto
  obtain ⟨offset,hin⟩ := (h.bound w source).mpr hto
  have hany : (s w).boundWindows.any (fun b => b.1 = source) = true :=
    List.any_eq_true.mpr ⟨_,hin,decide_eq_true rfl⟩
  unfold unbind
  rw [if_neg (by rw [hw,hsource]; decide),if_neg (not_not.mpr hto),if_pos hany]
  dsimp only
  refine Prod.ext ?_ rfl
  funext x
  dsimp only
  rw [modify_apply,modify_apply]
  split_ifs <;> rfl

theorem Linked.unbind (h : Linked s) (w source : ω) : Linked (unbind s w source).1 := by
  by_cases hto : (s source).boundTo = some w
  · rw [h.unbind_eq hto]
    refine h.unlink (fun b => b = source) (fun b => rfl) (fun x => ?_) (fun x b offset => ?_)
      fun x => rfl
    · dsimp only
      split_ifs
      · exact List.eraseP_sublist
      · exact List.Sublist.refl _
    · dsimp only
      split_ifs with hx
      · exact mem_eraseP (h.nodup x)
      · refine (and_iff_left_of_imp fun hin heq => hx ?_).symm
        rw [heq] at hin
        exact Option.some.inj (((h.bound x source).mp ⟨_,hin⟩).symm.trans hto)
  · unfold WindowBinding.unbind
    rw [if_pos hto]
    split_ifs <;> exact h

/-- A window that was bound is not. -/
theorem Linked.dissolve (h : Linked s) (source : ω) : Linked (dissolve s source) ∧
    (WindowBinding.dissolve s source source).boundTo = none ∧
    ∀ x, (x ≠ source → (WindowBinding.dissolve s source x).boundTo = (s x).boundTo) ∧
      (WindowBinding.dissolve s source x).destroyed = (s x).destroyed ∧
      (WindowBinding.dissolve s source x).position = (s x).position ∧
      (WindowBinding.dissolve s source x).boundWindows.Sublist (s x).boundWindows := by
  unfold WindowBinding.dissolve
  cases hto : (s source).boundTo with
  | none => exact ⟨h,hto,fun x => ⟨fun _ => rfl,rfl,rfl,List.Sublist.refl _⟩⟩
  | some w =>
    have hlinked := h.unbind w source
    dsimp only
    rw [h.unbind_eq hto] at hlinked ⊢
    refine ⟨hlinked,if_pos rfl,fun x => ⟨fun hx => if_neg hx,rfl,rfl,?_⟩⟩
    dsimp only
    split_ifs
    · exact List.eraseP_sublist
    · exact List.Sublist.refl _

theorem link_apply (s : State ω) (w source x : ω) (offset : ℤ×ℤ) : link s w source offset x =
    {s x with
      boundTo := if x = source then some w else (s x).boundTo
      boundWindows := if x = w then (s x).boundWindows++[(source,offset)]
        else (s x).boundWindows} := by
  unfold link
  dsimp only
  rw [modify_apply,modify_apply]
  split_ifs <;> rfl

/-- A window is bound to one that is not in its tree. -/
theorem Linked.link (h : Linked s) (hsource : (s source).boundTo = none)
    (hnot : ¬InTree (parent s) w source) (hw : (s w).destroyed = false)
    (hlive : (s source).destroyed = false) (offset : ℤ×ℤ) : Linked (link s w source offset) := by
  have hnone : ∀ x d, (source,d) ∉ (s x).boundWindows := fun x d hin => by
    cases hsource.symm.trans ((h.bound x source).mp ⟨d,hin⟩)
  refine ⟨fun x b => ?_,fun x => ?_,fun x b hb => ?_,?_⟩
  · rw [link_apply,link_apply]
    dsimp only
    by_cases hb : b = source
    · subst hb
      rw [if_pos rfl]
      by_cases hx : x = w
      · subst hx
        rw [if_pos rfl]
        exact iff_of_true ⟨offset,List.mem_append_right _ (List.mem_singleton_self _)⟩ rfl
      · rw [if_neg hx]
        exact iff_of_false (fun ⟨d,hd⟩ => hnone x d hd) fun heq => hx (Option.some.inj heq).symm
    · rw [if_neg hb,← h.bound]
      refine exists_congr fun d => ?_
      split_ifs
      · refine List.mem_append.trans (or_iff_left fun hin => hb ?_)
        exact congrArg Prod.fst (List.mem_singleton.mp hin)
      · exact Iff.rfl
  · rw [link_apply]
    dsimp only
    split_ifs
    · rw [List.map_append,List.nodup_append]
      refine ⟨h.nodup x,List.nodup_singleton _,fun b hb c hc => ?_⟩
      obtain rfl := List.mem_singleton.mp hc
      obtain ⟨⟨b',d⟩,hin,rfl⟩ := List.mem_map.mp hb
      rintro rfl
      exact hnone x d hin
    · exact h.nodup x
  · rw [link_apply] at hb
    dsimp only at hb
    rw [link_apply,link_apply]
    dsimp only
    split_ifs at hb with hbs
    · obtain rfl := Option.some.inj hb
      exact ⟨hw,hbs ▸ hlive⟩
    · exact h.live x b hb
  · have hparent : parent (WindowBinding.link s w source offset) =
        Function.update (parent s) source (some w) := by
      funext x
      unfold parent
      rw [link_apply]
      dsimp only
      by_cases hx : x = source
      · subst hx
        rw [if_pos rfl,Function.update_self]
      · rw [if_neg hx,Function.update_of_ne hx]
    rw [hparent]
    exact h.forest.attach hnot

theorem release_apply (s : State ω) (w x : ω) : release s w x = {s x with
    boundTo := if x ∈ (s w).boundWindows.map Prod.fst then none else (s x).boundTo
    boundWindows := if x = w then [] else (s x).boundWindows} := by
  have hfold : ∀ (l : List (ω×ℤ×ℤ)) (s : State ω), l.foldl (fun s b => modify s b.1 fun window =>
      {window with boundTo := none}) s x = {s x with
        boundTo := if x ∈ l.map Prod.fst then none else (s x).boundTo} := by
    intro l
    induction l with
    | nil => exact fun s => rfl
    | cons b l ih =>
      intro s
      rw [List.foldl_cons,ih,modify_apply,List.map_cons]
      by_cases hb : x = b.1
      · rw [if_pos hb,if_pos (List.mem_cons.mpr (.inl hb))]
        split_ifs <;> rfl
      · have hiff : x ∈ b.1::l.map Prod.fst ↔ x ∈ l.map Prod.fst :=
          List.mem_cons.trans (or_iff_right hb)
        rw [if_neg hb]
        simp only [hiff]
  unfold release
  dsimp only
  rw [modify_apply,hfold]
  split_ifs <;> rfl

theorem Linked.release (h : Linked s) (w : ω) : Linked (release s w) := by
  have hin : ∀ b, b ∈ (s w).boundWindows.map Prod.fst ↔ (s b).boundTo = some w := by
    intro b
    rw [← h.bound,List.mem_map]
    exact ⟨fun ⟨e,he,heq⟩ => ⟨e.2,heq ▸ he⟩,fun ⟨d,hd⟩ => ⟨_,hd,rfl⟩⟩
  refine h.unlink (fun b => b ∈ (s w).boundWindows.map Prod.fst) (fun b => ?_) (fun x => ?_)
    (fun x b offset => ?_) fun x => ?_
  · rw [release_apply]
  · rw [release_apply]
    dsimp only
    split_ifs
    · exact List.nil_sublist _
    · exact List.Sublist.refl _
  · rw [release_apply]
    dsimp only
    rw [hin]
    split_ifs with hx
    · subst hx
      exact iff_of_false List.not_mem_nil fun hand => hand.2 ((h.bound x b).mp ⟨_,hand.1⟩)
    · refine (and_iff_left_of_imp fun hmem heq => hx ?_).symm
      exact Option.some.inj (((h.bound x b).mp ⟨_,hmem⟩).symm.trans heq)
  · rw [release_apply]

theorem Linked.destroyOne (h : Linked s) (w : ω) : Linked (destroyOne s w) := by
  unfold WindowBinding.destroyOne
  split_ifs
  · exact h
  · obtain ⟨hlinked,hnone,hrest⟩ := (h.release w).dissolve w
    have hnil : (WindowBinding.dissolve (WindowBinding.release s w) w w).boundWindows = [] := by
      refine List.sublist_nil.mp ?_
      have hsub := (hrest w).2.2.2
      rw [release_apply] at hsub
      dsimp only at hsub
      rwa [if_pos rfl] at hsub
    set u := WindowBinding.dissolve (WindowBinding.release s w) w
    have happly : ∀ x, (modify u w fun window => {window with destroyed := true}) x =
        {u x with destroyed := if x = w then true else (u x).destroyed} := by
      intro x
      rw [modify_apply]
      split_ifs <;> rfl
    refine ⟨fun x b => ?_,fun x => ?_,fun x b hb => ?_,?_⟩
    · rw [happly,happly]
      exact hlinked.bound x b
    · rw [happly]
      exact hlinked.nodup x
    · rw [happly] at hb
      have hxw : x ≠ w := by
        rintro rfl
        obtain ⟨d,hd⟩ := (hlinked.bound x b).mpr hb
        rw [hnil] at hd
        cases hd
      have hbw : b ≠ w := by
        rintro rfl
        cases hnone.symm.trans hb
      rw [happly,happly]
      dsimp only
      rw [if_neg hxw,if_neg hbw]
      exact hlinked.live x b hb
    · have hparent : parent (modify u w fun window => {window with destroyed := true}) =
          parent u := by
        funext x
        unfold parent
        rw [happly]
      rw [hparent]
      exact hlinked.forest

theorem Linked.destroy (h : Linked s) (w : ω) : Linked (destroy s w) := by
  have hfold : ∀ (l : List ω) (s : State ω), Linked s →
      Linked (l.foldl WindowBinding.destroyOne s) := by
    intro l
    induction l with
    | nil => exact fun s hs => hs
    | cons x l ih => exact fun s hs => ih _ (hs.destroyOne x)
  exact (hfold _ s h).destroyOne w

def Kept (s : State ω) : Event ω → Prop
  | .bind w source offset wm =>
    w ≠ source → (s w).destroyed = false → (s source).destroyed = false →
      if (wm.setPosition source ((s w).position+offset)).1 then ¬InTree (parent s) w source
      else (s source).boundTo = none
  | _ => True

/-- What is expected of a call. -/
def Answered (s u : State ω) (ret : DirectResult) : Event ω → Prop
  | .bind w source offset wm =>
    if ret = .ok then (u source).boundTo = some w ∧ (source,offset) ∈ (u w).boundWindows ∧
      (u source).position = (wm.setPosition source ((u w).position+offset)).2 ∧
      Follow wm u source
    else links u = links s
  | .move w _ _ wm => ret = .ok → u = s ∨ Follow wm u w
  | .setBounds w position _ wm => ret = .ok → (s w).position = position ∨ Follow wm u w
  | _ => True

theorem move_answered (h : Linked s) (n : ℕ) {position : ℤ×ℤ} {relative : Bool}
    {ret : DirectResult} (hu : move wm n s w position relative = some (u,ret)) :
    Linked u ∧ (ret = .ok → u = s ∨ Follow wm u w) := by
  unfold move at hu
  dsimp only at hu
  generalize (if relative then position+(s w).position else position) = p at hu
  split_ifs at hu with hd hb hp
  · obtain ⟨rfl,rfl⟩ := Prod.mk.inj (Option.some.inj hu)
    exact ⟨h,fun _ => .inl rfl⟩
  · obtain ⟨rfl,rfl⟩ := Prod.mk.inj (Option.some.inj hu)
    exact ⟨h,fun _ => .inl rfl⟩
  · obtain ⟨rfl,rfl⟩ := Prod.mk.inj (Option.some.inj hu)
    exact ⟨h,fun _ => .inl rfl⟩
  · obtain ⟨⟨v,ok⟩,hv,heq⟩ := Option.map_eq_some_iff.mp hu
    obtain ⟨rfl,rfl⟩ := Prod.mk.inj heq
    have heffect := moveWindow_effect n h hv
    refine ⟨h.congr heffect.links,fun hret => .inr (heffect.follow ?_)⟩
    cases ok with
    | true => rfl
    | false => cases hret

theorem moveBound_spec (h : Linked s) (n : ℕ)
    (hu : moveBound (fun s b position => (moveWindow wm n s b position).map Prod.fst) w
      (s w).boundWindows s = some u) : links u = links s ∧ Follow wm u w := by
  have hmove : ∀ (s u : State ω) b position, Linked s →
      (moveWindow wm n s b position).map Prod.fst = some u →
      ∃ ok, Effect wm s b position u ok := by
    intro s u b position hs hu
    obtain ⟨⟨u',ok⟩,hu',rfl⟩ := Option.map_eq_some_iff.mp hu
    exact ⟨ok,moveWindow_effect n hs hu'⟩
  obtain ⟨hlinks,houtside,hfollow⟩ := moveBound_effect hmove h (fun b hb => hb) (h.nodup w) hu
  have hw : (u w).position = (s w).position := by
    refine houtside w fun b hb => h.forest.irrefl ?_
    obtain ⟨b,offset⟩ := b
    exact h.below hb
  refine ⟨hlinks,.of_bound fun b offset hb => ?_⟩
  rw [(links_eq hlinks w).2.1] at hb
  rw [hw]
  exact hfollow b offset hb

theorem links_modify {f : Window ω → Window ω} (hf : ∀ window, (f window).boundTo = window.boundTo ∧
    (f window).boundWindows = window.boundWindows ∧ (f window).destroyed = window.destroyed ∧
    (f window).subwindows = window.subwindows) (s : State ω) (w : ω) :
    links (modify s w f) = links s := by
  funext x
  unfold links
  rw [modify_apply]
  split_ifs
  · obtain ⟨hto,hbound,hdestroyed,hsub⟩ := hf (s x)
    rw [hto,hbound,hdestroyed,hsub]
  · rfl

theorem setBounds_answered (h : Linked s) (n : ℕ) {position size : ℤ×ℤ}
    {ret : DirectResult} (hu : setBounds wm n s w position size = some (u,ret)) :
    Linked u ∧ (ret = .ok → (s w).position = position ∨ Follow wm u w) := by
  unfold setBounds at hu
  dsimp only at hu
  set v := modify s w fun window => {window with
    position := (wm.setBounds w position size).2.1
    size := (wm.setBounds w position size).2.2} with hv
  have hlinks : links v = links s := by
    refine links_modify ?_ s w
    exact fun _ => ⟨rfl,rfl,rfl,rfl⟩
  split_ifs at hu with hd hb hp hok hne
  · obtain ⟨rfl,rfl⟩ := Prod.mk.inj (Option.some.inj hu)
    exact ⟨h,fun heq => by cases heq⟩
  · obtain ⟨rfl,rfl⟩ := Prod.mk.inj (Option.some.inj hu)
    exact ⟨h,fun heq => by cases heq⟩
  · obtain ⟨rfl,rfl⟩ := Prod.mk.inj (Option.some.inj hu)
    exact ⟨h,fun _ => .inl hp.1⟩
  · obtain ⟨r,hr,heq⟩ := Option.map_eq_some_iff.mp hu
    obtain ⟨rfl,rfl⟩ := Prod.mk.inj heq
    have hlinked := h.congr hlinks
    rw [← (links_eq hlinks w).2.1] at hr
    obtain ⟨hlinks',hfollow⟩ := moveBound_spec hlinked n hr
    exact ⟨hlinked.congr hlinks',fun _ => .inr hfollow⟩
  · obtain ⟨rfl,rfl⟩ := Prod.mk.inj (Option.some.inj hu)
    exact ⟨h.congr hlinks,fun _ => .inl (not_not.mp hne)⟩
  · obtain ⟨rfl,rfl⟩ := Prod.mk.inj (Option.some.inj hu)
    exact ⟨h.congr hlinks,fun heq => by cases heq⟩

theorem bind_answered (h : Linked s) (n : ℕ) {offset : ℤ×ℤ} {ret : DirectResult}
    (hkept : Kept s (.bind w source offset wm))
    (hu : bind wm n s w source offset = some (u,ret)) :
    Linked u ∧ Answered s u ret (.bind w source offset wm) := by
  unfold bind at hu
  split_ifs at hu with hne hd
  · obtain ⟨rfl,rfl⟩ := Prod.mk.inj (Option.some.inj hu)
    exact ⟨h,rfl⟩
  · obtain ⟨rfl,rfl⟩ := Prod.mk.inj (Option.some.inj hu)
    exact ⟨h,rfl⟩
  · obtain ⟨hw,hsource⟩ := not_or.mp hd
    have hkept := hkept hne (Bool.eq_false_iff.mpr hw) (Bool.eq_false_iff.mpr hsource)
    obtain ⟨hlinked,hnone,hrest⟩ := h.dissolve source
    obtain ⟨⟨v,ok⟩,hv,heq⟩ := Option.map_eq_some_iff.mp hu
    have heffect := moveWindow_effect n hlinked hv
    have hok := heffect.answer
    cases ok with
    | false =>
      obtain ⟨rfl,rfl⟩ := Prod.mk.inj heq
      rw [if_neg (by rw [← hok]; decide)] at hkept
      have hsame : dissolve s source = s := by
        unfold dissolve
        rw [hkept]
      rw [hsame] at heffect
      exact ⟨h.congr heffect.links,heffect.links⟩
    | true =>
      obtain ⟨rfl,rfl⟩ := Prod.mk.inj heq
      rw [if_pos hok.symm] at hkept
      have hlive : ∀ x, (v x).destroyed = (s x).destroyed := fun x =>
        (links_eq heffect.links x).2.2.1.trans (hrest x).2.1
      have hparent : parent v = parent (dissolve s source) :=
        funext fun x => (links_eq heffect.links x).1
      have hin : ¬InTree (parent v) w source := by
        rw [hparent]
        refine fun hin => hkept (Relation.ReflTransGen.mono (fun x y hxy => ?_) _ _ hin)
        have hxs : x ≠ source := by
          rintro rfl
          cases hnone.symm.trans hxy
        exact ((hrest x).1 hxs).symm.trans hxy
      have hlinkedv := hlinked.congr heffect.links
      have hlinkedu := hlinkedv.link ((links_eq heffect.links source).1.trans hnone) hin
        ((hlive w).trans (Bool.eq_false_iff.mpr hw))
        ((hlive source).trans (Bool.eq_false_iff.mpr hsource)) offset
      have hpw : (v w).position = (s w).position := by
        rw [heffect.outside w (hparent ▸ hin)]
        exact (hrest w).2.2.1
      refine ⟨hlinkedu,?_⟩
      simp only [Answered,if_true]
      refine ⟨?_,?_,?_,?_⟩
      · rw [link_apply]
        exact if_pos rfl
      · rw [link_apply]
        dsimp only
        rw [if_pos rfl]
        exact List.mem_append_right _ (List.mem_singleton_self _)
      · rw [link_apply,link_apply]
        dsimp only
        rw [hpw]
        exact heffect.moved
      · refine (heffect.follow rfl).congr hlinkedv fun x hx => ?_
        have hxw : x ≠ w := by
          rintro rfl
          exact hin hx
        rw [link_apply]
        exact ⟨rfl,if_neg hxw⟩

theorem run_answered (h : Linked s) (n : ℕ) {e : Event ω} (hkept : Kept s e) {ret : DirectResult}
    (hu : run n s e = some (u,ret)) : Linked u ∧ Answered s u ret e := by
  cases e with
  | bind w source offset wm => exact bind_answered h n hkept hu
  | unbind w source =>
    have heq : unbind s w source = (u,ret) := Option.some.inj hu
    have hlinked := h.unbind w source
    rw [heq] at hlinked
    exact ⟨hlinked,trivial⟩
  | move w position relative wm => exact move_answered h n hu
  | setBounds w position size wm => exact setBounds_answered h n hu
  | destroy w =>
    obtain ⟨rfl,-⟩ := Prod.mk.inj (Option.some.inj hu)
    exact ⟨h.destroy w,trivial⟩

theorem run_returns (h : Linked s) (e : Event ω) : ∃ n r, ∀ k ≥ n, run k s e = some r := by
  have hmono : ∀ {σ : Type _} {f : ℕ → Option σ} {n : ℕ}, (∀ k ≥ n, (f k).isSome) →
      (∀ i j r, i ≤ j → f i = some r → f j = some r) → ∃ n r, ∀ k ≥ n, f k = some r := by
    intro σ f n hsome hf
    obtain ⟨r,hr⟩ := Option.isSome_iff_exists.mp (hsome n le_rfl)
    exact ⟨n,r,fun k hk => hf n k r hk hr⟩
  cases e with
  | bind w source offset wm =>
    obtain ⟨n,hn⟩ := moveWindow_returns wm (h.dissolve source).1 source
    refine hmono (n := n) (fun k hk => ?_) fun i j r hij hr => ?_
    · simp only [run,bind]
      split_ifs
      · rfl
      · rfl
      · rw [Option.isSome_map]
        exact hn k hk _ rfl _
    · simp only [run,bind] at hr ⊢
      split_ifs at hr ⊢
      · exact hr
      · exact hr
      · obtain ⟨v,hv,rfl⟩ := Option.map_eq_some_iff.mp hr
        exact Option.map_eq_some_iff.mpr ⟨v,moveWindow_mono hij hv,rfl⟩
  | unbind w source => exact ⟨0,_,fun _ _ => rfl⟩
  | move w position relative wm =>
    obtain ⟨n,hn⟩ := moveWindow_returns wm h w
    refine hmono (n := n) (fun k hk => ?_) fun i j r hij hr => ?_
    · simp only [run,move]
      split_ifs
      all_goals first | rfl | (rw [Option.isSome_map]; exact hn k hk _ rfl _)
    · simp only [run,move] at hr ⊢
      split_ifs at hr ⊢
      all_goals first | exact hr | skip
      all_goals
        obtain ⟨v,hv,rfl⟩ := Option.map_eq_some_iff.mp hr
        exact Option.map_eq_some_iff.mpr ⟨v,moveWindow_mono hij hv,rfl⟩
  | setBounds w position size wm =>
    obtain ⟨n,hn⟩ := moveBound_ends wm h w fun b _ => moveWindow_returns wm h b
    have hlinks : links (modify s w fun window => {window with
        position := (wm.setBounds w position size).2.1
        size := (wm.setBounds w position size).2.2}) = links s := by
      refine links_modify ?_ s w
      exact fun _ => ⟨rfl,rfl,rfl,rfl⟩
    refine hmono (n := n) (fun k hk => ?_) fun i j r hij hr => ?_
    · simp only [run,setBounds]
      split_ifs
      all_goals first | rfl | (rw [Option.isSome_map]; exact hn k hk _ hlinks)
    · simp only [run,setBounds] at hr ⊢
      split_ifs at hr ⊢
      all_goals first | exact hr | skip
      obtain ⟨v,hv,rfl⟩ := Option.map_eq_some_iff.mp hr
      refine Option.map_eq_some_iff.mpr ⟨v,moveBound_mono (fun s b position r hr => ?_) hv,rfl⟩
      obtain ⟨r',hr',rfl⟩ := Option.map_eq_some_iff.mp hr
      exact Option.map_eq_some_iff.mpr ⟨r',moveWindow_mono hij hr',rfl⟩
  | destroy w => exact ⟨0,_,fun _ _ => rfl⟩

end Links

/-- A window is bound to another if that has one entry for it, and in no cycle. -/
structure Bound (s : State ω) : Prop where
  once : ∀ w b, (s b).boundTo = some w ↔ (s w).boundWindows.countP (fun e => e.1 = b) = 1
  forest : IsForest (parent s)

theorem Linked.bound_once {s : State ω} (h : Linked s) : Bound s := by
  refine ⟨fun w b => ?_,h.forest⟩
  have hcount : (s w).boundWindows.countP (fun e => e.1 = b) =
      ((s w).boundWindows.map Prod.fst).count b := by
    rw [List.count_eq_countP,List.countP_map]
    rfl
  have hin : b ∈ (s w).boundWindows.map Prod.fst ↔ (s b).boundTo = some w := by
    rw [← h.bound,List.mem_map]
    exact ⟨fun ⟨e,he,heq⟩ => ⟨e.2,heq ▸ he⟩,fun ⟨d,hd⟩ => ⟨_,hd,rfl⟩⟩
  rw [hcount,← hin,← List.one_le_count_iff]
  have hle := List.nodup_iff_count_le_one.mp (h.nodup w) b
  omega

theorem Linked.initial {s : State ω} (h : Initial s) : Linked s := by
  refine ⟨fun w b => ?_,fun w => ?_,fun w b hb => ?_,?_⟩
  · rw [(h w).2.1,(h b).1]
    exact iff_of_false (fun ⟨_,hd⟩ => by cases hd) fun heq => by cases heq
  · rw [(h w).2.1]
    exact List.nodup_nil
  · cases (h b).1.symm.trans hb
  · refine ⟨fun w => .intro w fun b hb => ?_⟩
    cases (h b).1.symm.trans hb

/-- Windows that are not bound within their own trees form a forest, whose trees move together. Each
call ends, and a binding that fails leaves the one before as it was, which does not exist. -/
theorem bound_together {s : State ω} (h : Reaches step (fun s e => Kept s e.2) Initial s) :
    Bound s ∧ ∀ e, Kept s e → (∃ n r, ∀ k ≥ n, run k s e = some r) ∧
      ∀ n u ret, run n s e = some (u,ret) → Answered s u ret e := by
  have hlinked : Linked s := by
    refine h.invariant Linked (fun _ => Linked.initial) fun s e u hs hkept hu => ?_
    obtain ⟨⟨u,ret⟩,hrun,rfl⟩ := Option.map_eq_some_iff.mp hu
    exact (run_answered hs e.1 hkept hrun).1
  exact ⟨hlinked.bound_once,fun e hkept => ⟨run_returns hlinked e,fun n u ret hu =>
    (run_answered hlinked n hkept hu).2⟩⟩

section Runs

def obeying : WM ℕ := ⟨fun _ position => (true,position),fun _ position size => (true,position,size)⟩

def fixed : WM ℕ := ⟨fun _ _ => (false,(0,0)),fun _ _ size => (false,(0,0),size)⟩

def screen : State ℕ := fun _ => ⟨(0,0),(10,10),none,[],false,[]⟩

theorem screen_initial : Initial screen := fun _ => ⟨rfl,rfl,rfl⟩

/-- Two windows in a row follow the first one. -/
theorem row_moved : ∃ s, Reaches step (fun s e => Kept s e.2) Initial s ∧ Bound s ∧
    (s 0).position = (100,50) ∧ (s 1).position = (110,50) ∧ (s 2).position = (110,55) := by
  have hnone : ∀ (s : State ℕ) w b, parent s w = none → w ≠ b → ¬InTree (parent s) w b := by
    intro s w b hw hne hin
    obtain rfl | ⟨c,hc,-⟩ := Relation.ReflTransGen.cases_head hin
    · exact hne rfl
    · cases hw.symm.trans hc
  have h1 : Reaches step (fun s e => Kept s e.2) Initial _ :=
    .step (3,.bind 1 2 (0,5) obeying) (.init screen_initial)
      (fun hne _ _ => hnone _ 1 2 rfl (by decide)) rfl
  have h2 : Reaches step (fun s e => Kept s e.2) Initial _ :=
    .step (3,.bind 0 1 (10,0) obeying) h1 (fun hne _ _ => hnone _ 0 1 rfl (by decide)) rfl
  have h3 : Reaches step (fun s e => Kept s e.2) Initial _ :=
    .step (4,.move 0 (100,50) false obeying) h2 trivial rfl
  exact ⟨_,h3,(bound_together h3).1,rfl,rfl,rfl⟩

/-- Two windows are bound to each other, and a window that is not moved loses its binding. -/
theorem bound_in_cycle :
    (∃ s, Reaches step (fun _ _ => True) Initial s ∧ ¬Bound s ∧ (s 0).boundTo = some 1 ∧
      (s 1).boundTo = some 0) ∧
    ∃ s u, Reaches step (fun _ _ => True) Initial s ∧ (s 1).boundTo = some 0 ∧
      run 3 s (.bind 2 1 (5,5) fixed) = some (u,.failure) ∧ (u 1).boundTo = none ∧
      (u 0).boundWindows = [] ∧ ¬Answered s u .failure (.bind 2 1 (5,5) fixed) := by
  have hinit : Reaches step (fun _ _ => True) Initial screen := .init screen_initial
  constructor
  · have h := hinit.exec (fun _ _ => trivial) (show exec step screen
      [(3,.bind 0 1 (10,0) obeying),(3,.bind 1 0 (0,10) obeying)] = some _ from rfl)
    refine ⟨_,h,fun hbound => ?_,rfl,rfl⟩
    exact hbound.forest.irrefl (show Below _ 0 1 from rfl) (.single (show Below _ 1 0 from rfl))
  · have h := hinit.exec (fun _ _ => trivial) (show exec step screen
      [(3,.bind 0 1 (10,0) obeying)] = some _ from rfl)
    refine ⟨_,_,h,rfl,rfl,rfl,rfl,fun hlinks => ?_⟩
    cases congrArg Prod.fst (congrFun hlinks 1)

end Runs

end DirectFB.WindowBinding
