import DirectFB.WindowStack

/-! The focus and the window under the pointer: which windows the manager refers to, and
how the events about focus and pointer that a window gets alternate. -/
namespace DirectFB.WindowFocus
open Function (update update_apply update_of_ne update_self)
open Transition Alternation WindowStack

variable {ω : Type*} [DecidableEq ω]

def focus? : WindowEvent → Option Bool
  | .gotFocus => some true
  | .lostFocus => some false
  | _ => none

def enter? : WindowEvent → Option Bool
  | .enter _ => some true
  | .leave _ => some false
  | _ => none

/-- `DWET_KEYDOWN` and `DWET_KEYUP` for a code. -/
def key? (code : ℤ) : WindowEvent → Option Bool
  | .keyDown k => if k.code = code then some true else none
  | .keyUp k => if k.code = code then some false else none
  | _ => none

/-- The events about focus and pointer that a window got alternate, and it has one without
its end where it is the focused or the entered window. -/
structure Paired (x : State ω) (w : ω) : Prop where
  focus : Holds focus? x.focusedWindow x.posted w
  enter : Holds enter? x.enteredWindow x.posted w

structure Quiet (x y : State ω) : Prop where
  windows : y.windows.Perm x.windows
  destroyed : ∀ w, (y.window w).destroyed = (x.window w).destroyed
  focused : ∀ w, y.focusedWindow = some w → x.focusedWindow = some w ∨ w ∈ x.windows
  entered : ∀ w, y.enteredWindow = some w → x.enteredWindow = some w ∨ w ∈ x.windows
  pointer : ∀ w, y.pointerWindow = some w → x.pointerWindow = some w
  keyboard : y.keyboardWindow = x.keyboardWindow
  unselkeys : y.unselkeysWindow = x.unselkeysWindow
  keys : y.keys = x.keys
  grabbed : y.grabbedKeys = x.grabbedKeys
  paired : ∀ w, Paired x w → Paired y w
  pressed : ∀ code w, received (key? code) w y.posted = received (key? code) w x.posted

namespace Quiet
variable {x y z : State ω}

theorem refl (x : State ω) : Quiet x x :=
  ⟨.refl _,fun _ => rfl,fun _ => .inl,fun _ => .inl,fun _ => id,rfl,rfl,rfl,rfl,fun _ => id,
    fun _ _ => rfl⟩

theorem trans (h : Quiet x y) (h' : Quiet y z) : Quiet x z where
  windows := h'.windows.trans h.windows
  destroyed := fun w => (h'.destroyed w).trans (h.destroyed w)
  focused := fun w hw => (h'.focused w hw).elim (h.focused w) fun hm => .inr (h.windows.subset hm)
  entered := fun w hw => (h'.entered w hw).elim (h.entered w) fun hm => .inr (h.windows.subset hm)
  pointer := fun w hw => h.pointer w (h'.pointer w hw)
  keyboard := h'.keyboard.trans h.keyboard
  unselkeys := h'.unselkeys.trans h.unselkeys
  keys := h'.keys.trans h.keys
  grabbed := h'.grabbed.trans h.grabbed
  paired := fun w hw => h'.paired w (h.paired w hw)
  pressed := fun code w => (h'.pressed code w).trans (h.pressed code w)

/-- Nothing changes but how the windows look and where the cursor is. -/
theorem of_eq (hwindows : y.windows = x.windows)
    (hdestroyed : ∀ w, (y.window w).destroyed = (x.window w).destroyed)
    (hfocused : y.focusedWindow = x.focusedWindow) (hentered : y.enteredWindow = x.enteredWindow)
    (hpointer : y.pointerWindow = x.pointerWindow)
    (hkeyboard : y.keyboardWindow = x.keyboardWindow)
    (hunselkeys : y.unselkeysWindow = x.unselkeysWindow) (hkeys : y.keys = x.keys)
    (hgrabbed : y.grabbedKeys = x.grabbedKeys) (hposted : y.posted = x.posted) : Quiet x y where
  windows := hwindows ▸ .refl _
  destroyed := hdestroyed
  focused := fun w hw => .inl (hfocused ▸ hw)
  entered := fun w hw => .inl (hentered ▸ hw)
  pointer := fun w hw => hpointer ▸ hw
  keyboard := hkeyboard
  unselkeys := hunselkeys
  keys := hkeys
  grabbed := hgrabbed
  paired := fun w hw => ⟨hfocused ▸ hposted ▸ hw.focus,hentered ▸ hposted ▸ hw.enter⟩
  pressed := fun _ _ => by rw [hposted]

end Quiet

section Focus
variable {x : State ω}

omit [DecidableEq ω] in
theorem postTo_eq (x : State ω) (o : Option ω) (e : ω → WindowEvent) :
    postTo x o e = {x with posted := x.posted++entryFor o e} := by
  cases o with
  | none =>
    have hnil : x.posted++entryFor none e = x.posted := List.append_nil _
    rw [hnil]
    rfl
  | some w => rfl

theorem quiet_postTo {e : ω → WindowEvent} (hfocus : ∀ v, focus? (e v) = none)
    (henter : ∀ v, enter? (e v) = none) (hkey : ∀ code v, key? code (e v) = none) (o : Option ω) :
    Quiet x (postTo x o e) := by
  rw [postTo_eq]
  exact ⟨.refl _,fun _ => rfl,fun _ => .inl,fun _ => .inl,fun _ => id,rfl,rfl,rfl,rfl,
    fun _ hw => ⟨hw.focus.skip hfocus o,hw.enter.skip henter o⟩,
    fun code w => received_skip (fun _ => hkey code w) _⟩

theorem quiet_switchFocus {next : Option ω} (hnext : ∀ w, next = some w → w ∈ x.windows) :
    Quiet x (switchFocus x next) := by
  unfold switchFocus
  split_ifs
  · exact .refl x
  · exact .refl x
  · rw [postTo_eq,postTo_eq]
    refine ⟨.refl _,fun _ => rfl,fun w hw => .inr (hnext w hw),fun _ => .inl,fun _ => id,rfl,rfl,
      rfl,rfl,fun w hw => ⟨?_,?_⟩,fun code w => ?_⟩
    · have hended := hw.focus.ends (e := fun _ => WindowEvent.lostFocus) fun _ => rfl
      exact hended.begins (e := fun _ => WindowEvent.gotFocus) (fun _ => rfl) next
    · have hskip := hw.enter.skip (e := fun _ => WindowEvent.lostFocus) (fun _ => rfl) x.focusedWindow
      exact hskip.skip (e := fun _ => WindowEvent.gotFocus) (fun _ => rfl) next
    · exact (received_skip (fun _ => rfl) _).trans (received_skip (fun _ => rfl) _)

theorem quiet_leave (p : ω → ℤ × ℤ) : Quiet x
    {postTo x x.enteredWindow fun w => .leave (p w) with enteredWindow := none} := by
  rw [postTo_eq]
  refine ⟨.refl _,fun _ => rfl,fun _ => .inl,fun w hw => (by cases hw),fun _ => id,rfl,rfl,rfl,rfl,
    fun w hw => ⟨?_,?_⟩,fun code w => received_skip (fun _ => rfl) _⟩
  · exact hw.focus.skip (e := fun w => WindowEvent.leave (p w)) (fun _ => rfl) _
  · exact hw.enter.ends (e := fun w => WindowEvent.leave (p w)) fun _ => rfl

theorem quiet_enter (hnone : x.enteredWindow = none) {o : Option ω}
    (ho : ∀ w, o = some w → w ∈ x.windows) (p : ω → ℤ × ℤ) : Quiet x
    {postTo x o fun w => .enter (p w) with enteredWindow := o} := by
  rw [postTo_eq]
  refine ⟨.refl _,fun _ => rfl,fun _ => .inl,fun w hw => .inr (ho w hw),fun _ => id,rfl,rfl,rfl,rfl,
    fun w hw => ⟨?_,?_⟩,fun code w => received_skip (fun _ => rfl) _⟩
  · exact hw.focus.skip (e := fun w => WindowEvent.enter (p w)) (fun _ => rfl) _
  · have hfree : Holds enter? none x.posted w := hnone ▸ hw.enter
    exact hfree.begins (e := fun w => WindowEvent.enter (p w)) (fun _ => rfl) o

theorem switchFocus_entered (x : State ω) (next o : Option ω) :
    switchFocus {x with enteredWindow := o} next =
      {switchFocus x next with enteredWindow := o} := by
  unfold switchFocus
  dsimp only
  split_ifs
  · rfl
  · rfl
  · rw [postTo_eq,postTo_eq,postTo_eq,postTo_eq]

omit [DecidableEq ω] in
theorem windowAtPointer_mem {w : ω} (h : windowAtPointer x = some w) : w ∈ x.windows := by
  unfold windowAtPointer at h
  split_ifs at h <;> exact List.mem_reverse.mp (List.mem_of_find?_eq_some h)

theorem switchFocus_windows (x : State ω) (next : Option ω) :
    (switchFocus x next).windows = x.windows := by
  unfold switchFocus
  split_ifs
  · rfl
  · rfl
  · rw [postTo_eq,postTo_eq]

theorem quiet_updateFocus (x : State ω) : Quiet x (updateFocus x).1 := by
  unfold updateFocus
  dsimp only
  split_ifs
  · exact .refl x
  · exact .refl x
  · have hleave := quiet_leave (x := x) (pointIn x)
    have hmem : ∀ w, windowAtPointer x = some w → w ∈ x.windows := fun w => windowAtPointer_mem
    set y := postTo x x.enteredWindow fun w => WindowEvent.leave (pointIn x w) with hy
    have hwindows : y.windows = x.windows := by
      rw [hy,postTo_eq]
    have hswitch := quiet_switchFocus (x := {y with enteredWindow := none})
      fun w hw => hwindows ▸ hmem w hw
    rw [switchFocus_entered] at hswitch
    have henter := quiet_enter (x := {switchFocus y (windowAtPointer x) with enteredWindow := none})
      rfl (fun w hw => by
        rw [switchFocus_windows,hwindows]
        exact hmem w hw) (pointIn x)
    have hall := (hleave.trans hswitch).trans henter
    rw [postTo_eq] at hall ⊢
    exact hall

theorem quiet_ensureFocus (x : State ω) : Quiet x (ensureFocus x) := by
  unfold ensureFocus
  split_ifs
  · exact .refl x
  · split
    · rename_i w hw
      refine quiet_switchFocus fun v hv => ?_
      cases hv
      exact List.mem_reverse.mp (List.mem_of_find?_eq_some hw)
    · exact .refl x

theorem quiet_requestFocus {w : ω} (hw : w ∈ x.windows) : Quiet x (requestFocus x w) := by
  have hswitch : Quiet x (switchFocus x (some w)) := quiet_switchFocus fun v hv => by
    cases hv
    exact hw
  unfold requestFocus
  dsimp only
  split
  · rename_i v hv
    split_ifs
    · exact hswitch
    · have hleave := quiet_leave (x := switchFocus x (some w)) (pointIn (switchFocus x (some w)))
      rw [hv] at hleave
      exact hswitch.trans hleave
  · exact hswitch

end Focus

section Windows
variable {x : State ω} {w : ω}

theorem quiet_setWindow {data : InputWindow} (h : data.destroyed = (x.window w).destroyed) :
    Quiet x (setWindow x w data) := by
  refine .of_eq rfl (fun v => ?_) rfl rfl rfl rfl rfl rfl rfl rfl
  unfold setWindow
  dsimp only
  rw [update_apply]
  split_ifs with hv
  · rw [hv,h]
  · rfl

theorem quiet_post {e : WindowEvent} (hfocus : focus? e = none) (henter : enter? e = none)
    (hkey : ∀ code, key? code e = none) (w : ω) : Quiet x (post x w e) :=
  quiet_postTo (e := fun _ => e) (fun _ => hfocus) (fun _ => henter) (fun code _ => hkey code)
    (some w)

theorem quiet_moveWindow (x : State ω) (w : ω) (dx dy : ℤ) : Quiet x (moveWindow x w dx dy) := by
  have hset : Quiet x (setWindow x w {x.window w with
      toWindow := WindowConfig.moveWindow (x.window w).toWindow dx dy}) := quiet_setWindow rfl
  exact hset.trans (quiet_post rfl rfl (fun _ => rfl) w)

omit [DecidableEq ω] in
theorem resizeWindow_destroyed (v : Window) (s : WindowConfig.Size) :
    (WindowConfig.resizeWindow v s).1.destroyed = v.destroyed := by
  unfold WindowConfig.resizeWindow
  split_ifs <;> rfl

omit [DecidableEq ω] in
theorem setWindowBounds_destroyed (v : Window) (px py : ℤ) (s : WindowConfig.Size) :
    (WindowConfig.setWindowBounds v px py s).1.destroyed = v.destroyed := by
  unfold WindowConfig.setWindowBounds
  split_ifs <;> rfl

theorem quiet_resizeWindow (x : State ω) (w : ω) (s : WindowConfig.Size) :
    Quiet x (resizeWindow x w s) := by
  unfold resizeWindow
  dsimp only
  split_ifs
  · have hset : Quiet x (setWindow x w {x.window w with
        toWindow := (WindowConfig.resizeWindow (x.window w).toWindow s).1}) :=
      quiet_setWindow (resizeWindow_destroyed _ s)
    exact (hset.trans (quiet_post rfl rfl (fun _ => rfl) w)).trans (quiet_updateFocus _)
  · exact .refl x

theorem quiet_setWindowBounds (x : State ω) (w : ω) (px py : ℤ) (s : WindowConfig.Size) :
    Quiet x (setWindowBounds x w px py s) := by
  unfold setWindowBounds
  dsimp only
  split_ifs
  · have hset : Quiet x (setWindow x w {x.window w with
        toWindow := (WindowConfig.setWindowBounds (x.window w).toWindow px py s).1}) :=
      quiet_setWindow (setWindowBounds_destroyed _ px py s)
    exact (hset.trans (quiet_post rfl rfl (fun _ => rfl) w)).trans (quiet_updateFocus _)
  · exact .refl x

/-- What `set_opacity` does before a window that it hides is withdrawn. -/
def hide (x : State ω) (w : ω) : State ω :=
  (updateFocus (setWindow x w {x.window w with opacity := 0})).1

theorem quiet_hide (x : State ω) (w : ω) : Quiet x (hide x w) := by
  have hset : Quiet x (setWindow x w {x.window w with opacity := 0}) := quiet_setWindow rfl
  exact hset.trans (quiet_updateFocus _)

omit [DecidableEq ω] in
theorem opacity_ne_zero {translucent : Bool} {v : Window} {o : Fin 256} (ho : o ≠ 0) :
    (WindowConfig.setOpacity translucent v o).opacity ≠ 0 := by
  unfold WindowConfig.setOpacity
  dsimp only
  split_ifs
  · decide
  · exact ho

theorem quiet_setOpacity (x : State ω) (w : ω) {o : Fin 256} (ho : o ≠ 0) :
    Quiet x (setOpacity x w o) := by
  unfold setOpacity
  dsimp only
  rw [if_neg (opacity_ne_zero ho)]
  have hset : Quiet x (setWindow x w {x.window w with
      toWindow := WindowConfig.setOpacity x.translucentWindows (x.window w).toWindow o}) :=
    quiet_setWindow rfl
  split_ifs
  · exact .refl x
  · exact hset.trans (quiet_updateFocus _)
  · exact hset

theorem setOpacity_hide (h : (x.window w).opacity ≠ 0) :
    setOpacity x w 0 = ensureFocus (withdrawWindow (hide x w) w) := by
  have hzero : WindowConfig.setOpacity x.translucentWindows (x.window w).toWindow 0 =
      {(x.window w).toWindow with opacity := 0} := by
    unfold WindowConfig.setOpacity
    simp
  unfold setOpacity
  dsimp only
  rw [hzero]
  dsimp only
  rw [if_neg h,if_pos rfl,if_pos (.inr rfl)]
  rfl

theorem setOpacity_hidden (h : (x.window w).opacity = 0) : setOpacity x w 0 = x := by
  have hzero : (WindowConfig.setOpacity x.translucentWindows (x.window w).toWindow 0).opacity = 0 := by
    unfold WindowConfig.setOpacity
    simp
  unfold setOpacity
  dsimp only
  rw [hzero,if_pos h]

end Windows

section Restack
variable {x : State ω} {w : ω}

omit [DecidableEq ω] in
theorem sink_le (x : State ω) (priority : ℤ) (old i : ℕ) : sink x priority old i ≤ i := by
  induction i with
  | zero => exact le_rfl
  | succ i ih =>
    unfold sink
    split_ifs <;> omega

omit [DecidableEq ω] in
theorem rise_le (x : State ω) (priority : ℤ) (old n i : ℕ) : rise x priority old n i ≤ i+n := by
  induction n generalizing i with
  | zero => exact le_rfl
  | succ n ih =>
    have := ih (i+1)
    unfold rise
    split_ifs <;> omega

theorem desiredIndex_le (h : x.windows ≠ []) (old : ℕ) (relative : Option ω) (relation : ℤ) :
    desiredIndex x old relative relation ≤ x.windows.length-1 := by
  have hpos := List.length_pos_iff.mpr h
  unfold desiredIndex
  dsimp only
  cases relative with
  | none =>
    dsimp only
    split_ifs <;> omega
  | some v =>
    dsimp only
    split_ifs <;> omega

/-- The windows are the same, in another order. -/
theorem quiet_restackWindow (hw : w ∈ x.windows) (relative : Option ω) (relation : ℤ)
    (stacking : StackingClass) : Quiet x (restackWindow x w relative relation stacking) := by
  have hset : Quiet x (setWindow x w {x.window w with stacking := stacking}) := quiet_setWindow rfl
  unfold restackWindow
  dsimp only
  refine hset.trans ?_
  have hmem : w ∈ (setWindow x w {x.window w with stacking := stacking}).windows := hw
  generalize setWindow x w {x.window w with stacking := stacking} = y at *
  have hold := List.idxOf_lt_length_of_mem hmem
  split_ifs
  · exact .refl y
  · refine ⟨?_,fun _ => rfl,fun _ => .inl,fun _ => .inl,fun _ => id,rfl,rfl,rfl,rfl,fun _ h => ⟨h.focus,h.enter⟩,
      fun _ _ => rfl⟩
    have hdesired := desiredIndex_le (List.ne_nil_of_mem hmem) (y.windows.idxOf w) relative relation
    have hsink := sink_le y stacking.priority (y.windows.idxOf w)
      (desiredIndex y (y.windows.idxOf w) relative relation)
    have hrise := rise_le y stacking.priority (y.windows.idxOf w)
      (y.windows.length-1-sink y stacking.priority (y.windows.idxOf w)
        (desiredIndex y (y.windows.idxOf w) relative relation))
      (sink y stacking.priority (y.windows.idxOf w)
        (desiredIndex y (y.windows.idxOf w) relative relation))
    refine (List.perm_insertIdx _ _ ?_).trans ?_
    · rw [List.length_eraseIdx_of_lt hold]
      omega
    · have hperm := List.getElem_cons_eraseIdx_perm hold
      rwa [List.getElem_idxOf] at hperm

theorem quiet_raise (hw : w ∈ x.windows) : Quiet x (raise x w) := by
  have hrestack := quiet_restackWindow hw none 1 (x.window w).stacking
  exact hrestack.trans (quiet_requestFocus (hrestack.windows.symm.subset hw))

theorem quiet_wmCycle (x : State ω) (n : ℤ) : Quiet x {x with wmCycle := n} :=
  .of_eq rfl (fun _ => rfl) rfl rfl rfl rfl rfl rfl rfl rfl

theorem quiet_cycleFrom (x : State ω) : Quiet x (cycleFrom x) := by
  unfold cycleFrom
  split
  · split
    · rename_i v hv
      exact (quiet_raise (List.mem_of_getElem? hv)).trans (quiet_wmCycle _ _)
    · exact .refl x
  · exact quiet_wmCycle _ _

theorem quiet_cycleWindows (x : State ω) : Quiet x (cycleWindows x) := by
  unfold cycleWindows
  dsimp only
  by_cases h : x.windows.length = 0
  · rw [if_pos h]
    exact quiet_wmCycle _ _
  · rw [if_neg h]
    exact (quiet_wmCycle _ _).trans (quiet_cycleFrom _)

end Restack

section Withdraw
variable {x : State ω} {w : ω}

theorem releaseKey_eq (x : State ω) (w : ω) (i : Fin maxKeys) : releaseKey w x i = {x with
      keys := (releaseKey w x i).keys
      posted := (releaseKey w x i).posted} := by
  unfold releaseKey
  dsimp only
  split_ifs <;> rfl

theorem releaseKey_keys (x : State ω) (w : ω) (i j : Fin maxKeys) : (releaseKey w x i).keys j =
    if j = i ∧ usedBy x w j then {x.keys j with code := -1, owner := none} else x.keys j := by
  unfold releaseKey
  dsimp only
  by_cases hi : usedBy x w i = true
  · rw [if_pos hi]
    have hkeys : (if (x.window w).destroyed = true then x
        else post x w (.keyUp (x.keys i).toKeyData)).keys = x.keys := by
      split_ifs <;> rfl
    rw [hkeys]
    dsimp only
    rw [update_apply]
    by_cases hj : j = i
    · rw [if_pos hj,if_pos ⟨hj,hj ▸ hi⟩,hj]
    · rw [if_neg hj,if_neg fun h => hj h.1]
  · have hj : ¬ (j = i ∧ usedBy x w j = true) := fun h => hi (h.1 ▸ h.2)
    rw [if_neg hi,if_neg hj]

theorem releaseKey_received {f : WindowEvent → Option Bool} (hf : ∀ k, f (.keyUp k) = none)
    (x : State ω) (w v : ω) (i : Fin maxKeys) :
    received f v (releaseKey w x i).posted = received f v x.posted := by
  unfold releaseKey
  dsimp only
  split_ifs
  · rfl
  · exact received_skip (o := some w) (e := fun _ => WindowEvent.keyUp (x.keys i).toKeyData)
      (fun _ => hf _) x.posted
  · rfl

theorem releaseKeys_frame (w : ω) (l : List (Fin maxKeys)) (x : State ω) :
    (l.foldl (releaseKey w) x = {x with
      keys := (l.foldl (releaseKey w) x).keys
      posted := (l.foldl (releaseKey w) x).posted}) ∧
    ∀ f : WindowEvent → Option Bool, (∀ k, f (.keyUp k) = none) →
      ∀ v, received f v (l.foldl (releaseKey w) x).posted = received f v x.posted := by
  induction l generalizing x with
  | nil => exact ⟨rfl,fun _ _ _ => rfl⟩
  | cons i rest ih =>
    obtain ⟨hframe,hreceived⟩ := ih (releaseKey w x i)
    rw [List.foldl_cons]
    refine ⟨?_,fun f hf v => (hreceived f hf v).trans (releaseKey_received hf x w v i)⟩
    rw [hframe,releaseKey_eq x w i]

theorem releaseKeys_keys (w : ω) (l : List (Fin maxKeys)) (x : State ω) (j : Fin maxKeys) :
    (l.foldl (releaseKey w) x).keys j =
      if j ∈ l ∧ usedBy x w j then {x.keys j with code := -1, owner := none} else x.keys j := by
  induction l generalizing x with
  | nil =>
    rw [if_neg fun h => absurd h.1 List.not_mem_nil]
    rfl
  | cons i rest ih =>
    rw [List.foldl_cons,ih]
    have hkeys := releaseKey_keys x w i j
    by_cases hj : j = i ∧ usedBy x w j = true
    · rw [if_pos hj] at hkeys
      have hfree : usedBy (releaseKey w x i) w j = false := by
        unfold usedBy
        rw [hkeys]
        rfl
      rw [hfree,if_neg (by simp),if_pos ⟨hj.1 ▸ List.mem_cons_self,hj.2⟩,hkeys]
    · rw [if_neg hj] at hkeys
      have hsame : usedBy (releaseKey w x i) w j = usedBy x w j := by
        unfold usedBy
        rw [hkeys]
      rw [hsame,hkeys]
      by_cases hused : usedBy x w j = true
      · have hne : j ≠ i := fun he => hj ⟨he,hused⟩
        simp [hused,hne]
      · simp [hused]

structure Withdrawn (x y : State ω) (w : ω) : Prop where
  windows : y.windows = x.windows
  window : y.window = x.window
  focused : y.focusedWindow = if x.focusedWindow = some w then none else x.focusedWindow
  entered : y.enteredWindow = if x.enteredWindow = some w then none else x.enteredWindow
  pointer : y.pointerWindow = if x.pointerWindow = some w then none else x.pointerWindow
  keyboard : y.keyboardWindow = if x.keyboardWindow = some w then none else x.keyboardWindow
  unselkeys : y.unselkeysWindow = if x.unselkeysWindow = some w then none else x.unselkeysWindow
  keys : ∀ i, y.keys i =
    if usedBy x w i then {x.keys i with code := -1, owner := none} else x.keys i
  grabbed : y.grabbedKeys = x.grabbedKeys
  received : ∀ f : WindowEvent → Option Bool, (∀ k, f (.keyUp k) = none) →
    ∀ v, received f v y.posted = received f v x.posted

theorem withdrawn (x : State ω) (w : ω) : Withdrawn x (withdrawWindow x w) w := by
  obtain ⟨hframe,hreceived⟩ := releaseKeys_frame w (List.finRange maxKeys) (clearWindow x w)
  have hkeys := releaseKeys_keys w (List.finRange maxKeys) (clearWindow x w)
  unfold withdrawWindow
  dsimp only
  generalize hy : (List.finRange maxKeys).foldl (releaseKey w) (clearWindow x w) = y at *
  refine ⟨?_,?_,?_,?_,?_,?_,?_,fun i => ?_,?_,hreceived⟩
  · rw [hframe]
    rfl
  · rw [hframe]
    rfl
  · rw [hframe]
    rfl
  · rw [hframe]
    rfl
  · rw [hframe]
    rfl
  · rw [hframe]
    rfl
  · rw [hframe]
    rfl
  · rw [hkeys i]
    simp only [List.mem_finRange,true_and]
    rfl
  · rw [hframe]
    rfl

/-- A window that was neither focused nor entered, or is another one, notices nothing. -/
theorem Withdrawn.paired {y : State ω} (h : Withdrawn x y w) {v : ω}
    (hv : v = w → x.focusedWindow ≠ some w ∧ x.enteredWindow ≠ some w) (hp : Paired x v) :
    Paired y v := by
  have hfocus := h.received focus? (fun _ => rfl) v
  have henter := h.received enter? (fun _ => rfl) v
  constructor
  · unfold Holds
    rw [hfocus,h.focused]
    split_ifs with hw
    · exact hp.focus.forget fun he => by
        obtain rfl : v = w := Option.some.inj (he.symm.trans hw)
        exact (hv rfl).1 hw
    · exact hp.focus
  · unfold Holds
    rw [henter,h.entered]
    split_ifs with hw
    · exact hp.enter.forget fun he => by
        obtain rfl : v = w := Option.some.inj (he.symm.trans hw)
        exact (hv rfl).2 hw
    · exact hp.enter

end Withdraw

section Keys
variable {x : State ω}

structure OnlyKeys (x y : State ω) : Prop where
  frame : y = {x with keys := y.keys, posted := y.posted}
  received : ∀ f : WindowEvent → Option Bool, (∀ k, f (.keyDown k) = none) →
    (∀ k, f (.keyUp k) = none) → ∀ v, received f v y.posted = received f v x.posted

theorem OnlyKeys.paired {y : State ω} (h : OnlyKeys x y) {w : ω} (hp : Paired x w) : Paired y w := by
  have hfocus := h.received focus? (fun _ => rfl) (fun _ => rfl) w
  have henter := h.received enter? (fun _ => rfl) (fun _ => rfl) w
  constructor
  · unfold Holds
    rw [hfocus,h.frame]
    exact hp.focus
  · unfold Holds
    rw [henter,h.frame]
    exact hp.enter

theorem onlyKeys_post {y : State ω} (h : y = {x with keys := y.keys}) (o : Option ω)
    {e : WindowEvent} (he : ∀ f : WindowEvent → Option Bool, (∀ k, f (.keyDown k) = none) →
      (∀ k, f (.keyUp k) = none) → f e = none) : OnlyKeys x (postTo y o fun _ => e) := by
  rw [postTo_eq]
  refine ⟨?_,fun f hdown hup v => ?_⟩
  · rw [h]
  · rw [h]
    exact received_skip (fun _ => he f hdown hup) _

omit [DecidableEq ω] in
theorem pressWindow_frame (x : State ω) (k : KeyData) :
    (pressWindow x k).1 = {x with keys := (pressWindow x k).1.keys} := by
  unfold pressWindow
  split
  · rfl
  · split_ifs
    · rfl
    · split
      · rfl
      · split
        · rfl
        · split_ifs
          · rfl
          · split <;> rfl

omit [DecidableEq ω] in
theorem releaseWindow_frame (x : State ω) (k : KeyData) :
    (releaseWindow x k).1 = {x with keys := (releaseWindow x k).1.keys} := by
  unfold releaseWindow
  split
  · rfl
  · split_ifs
    · rfl
    · split <;> rfl

theorem onlyKeys_press (x : State ω) (k : KeyData) :
    OnlyKeys x (postTo (pressWindow x k).1 (pressWindow x k).2 fun _ => .keyDown k) :=
  onlyKeys_post (pressWindow_frame x k) _ fun _ hdown _ => hdown k

theorem onlyKeys_release (x : State ω) (k : KeyData) :
    OnlyKeys x (postTo (releaseWindow x k).1 (releaseWindow x k).2 fun _ => .keyUp k) :=
  onlyKeys_post (releaseWindow_frame x k) _ fun _ _ hup => hup k

end Keys

section Managed
variable {x : State ω} {w : ω}

structure Managed (x : State ω) : Prop where
  nodup : x.windows.Nodup
  alive : ∀ w ∈ x.windows, (x.window w).destroyed = false
  focused : ∀ w, x.focusedWindow = some w → w ∈ x.windows
  entered : ∀ w, x.enteredWindow = some w → w ∈ x.windows
  pointer : ∀ w, x.pointerWindow = some w → w ∈ x.windows
  keyboard : ∀ w, x.keyboardWindow = some w → w ∈ x.windows
  unselkeys : ∀ w, x.unselkeysWindow = some w → w ∈ x.windows
  keys : ∀ i w, (x.keys i).code ≠ -1 → (x.keys i).owner = some w → w ∈ x.windows
  grabbed : ∀ g ∈ x.grabbedKeys, g.owner ∈ x.windows

theorem Quiet.managed {y : State ω} (h : Quiet x y) (hx : Managed x) : Managed y where
  nodup := h.windows.nodup_iff.mpr hx.nodup
  alive := fun w hw => (h.destroyed w).trans (hx.alive w (h.windows.subset hw))
  focused := fun w hw => h.windows.symm.subset ((h.focused w hw).elim (hx.focused w) id)
  entered := fun w hw => h.windows.symm.subset ((h.entered w hw).elim (hx.entered w) id)
  pointer := fun w hw => h.windows.symm.subset (hx.pointer w (h.pointer w hw))
  keyboard := fun w hw => h.windows.symm.subset (hx.keyboard w (h.keyboard ▸ hw))
  unselkeys := fun w hw => h.windows.symm.subset (hx.unselkeys w (h.unselkeys ▸ hw))
  keys := fun i w hcode how => by
    rw [h.keys] at hcode how
    exact h.windows.symm.subset (hx.keys i w hcode how)
  grabbed := fun g hg => h.windows.symm.subset (hx.grabbed g (h.grabbed ▸ hg))

/-- A window that is withdrawn is referred to only by explicit grabs. -/
theorem Withdrawn.managed {y : State ω} (h : Withdrawn x y w) (hx : Managed x) : Managed y ∧
    (∀ v, y.focusedWindow = some v ∨ y.enteredWindow = some v ∨ y.pointerWindow = some v ∨
      y.keyboardWindow = some v ∨ y.unselkeysWindow = some v → v ≠ w) ∧
    ∀ i v, (y.keys i).code ≠ -1 → (y.keys i).owner = some v → v ≠ w := by
  have hcleared : ∀ {o o' : Option ω}, o' = (if o = some w then none else o) →
      ∀ v, o' = some v → o = some v ∧ v ≠ w := by
    intro o o' ho v hv
    rw [ho] at hv
    split_ifs at hv with hw
    refine ⟨hv,fun he => hw ?_⟩
    rw [hv,he]
  have hkeys : ∀ i v, (y.keys i).code ≠ -1 → (y.keys i).owner = some v →
      ((x.keys i).code ≠ -1 ∧ (x.keys i).owner = some v) ∧ v ≠ w := by
    intro i v hcode how
    rw [h.keys] at hcode how
    split_ifs at hcode how with hused
    refine ⟨⟨hcode,how⟩,fun he => hused ?_⟩
    unfold usedBy
    simp [hcode,how,he]
  refine ⟨⟨?_,fun v hv => ?_,fun v hv => ?_,fun v hv => ?_,fun v hv => ?_,fun v hv => ?_,
    fun v hv => ?_,fun i v hcode how => ?_,fun g hg => ?_⟩,fun v hv => ?_,
    fun i v hcode how => (hkeys i v hcode how).2⟩
  · rw [h.windows]
    exact hx.nodup
  · rw [h.window]
    exact hx.alive v (h.windows ▸ hv)
  · rw [h.windows]
    exact hx.focused v (hcleared h.focused v hv).1
  · rw [h.windows]
    exact hx.entered v (hcleared h.entered v hv).1
  · rw [h.windows]
    exact hx.pointer v (hcleared h.pointer v hv).1
  · rw [h.windows]
    exact hx.keyboard v (hcleared h.keyboard v hv).1
  · rw [h.windows]
    exact hx.unselkeys v (hcleared h.unselkeys v hv).1
  · rw [h.windows]
    exact hx.keys i v (hkeys i v hcode how).1.1 (hkeys i v hcode how).1.2
  · rw [h.windows]
    exact hx.grabbed g (h.grabbed ▸ hg)
  · rcases hv with hv | hv | hv | hv | hv
    · exact (hcleared h.focused v hv).2
    · exact (hcleared h.entered v hv).2
    · exact (hcleared h.pointer v hv).2
    · exact (hcleared h.keyboard v hv).2
    · exact (hcleared h.unselkeys v hv).2

theorem managed_setOpacity (hx : Managed x) (w : ω) (o : Fin 256) : Managed (setOpacity x w o) := by
  by_cases ho : o = 0
  · subst ho
    by_cases hw : (x.window w).opacity = 0
    · rw [setOpacity_hidden hw]
      exact hx
    · rw [setOpacity_hide hw]
      have hhide := (quiet_hide x w).managed hx
      exact (quiet_ensureFocus _).managed ((withdrawn (hide x w) w).managed hhide).1
  · exact (quiet_setOpacity x w ho).managed hx

theorem managed_removeWindow (hx : Managed x) (w : ω) (data : InputWindow) :
    Managed (setWindow (removeWindow x w) w data) := by
  have hwithdrawn := withdrawn x w
  obtain ⟨hy,hforgets,hkeys⟩ := hwithdrawn.managed hx
  unfold removeWindow
  generalize withdrawWindow x w = y at *
  have hmem : ∀ v, v ∈ y.windows → v ≠ w → v ∈ y.windows.erase w := fun v hv hne =>
    (List.mem_erase_of_ne hne).mpr hv
  refine ⟨hy.nodup.erase w,fun v hv => ?_,fun v hv => ?_,fun v hv => ?_,fun v hv => ?_,
    fun v hv => ?_,fun v hv => ?_,fun i v hcode how => ?_,fun g hg => ?_⟩
  · have hne : v ≠ w := fun he => by
      subst he
      exact hy.nodup.not_mem_erase hv
    change (update y.window w data v).destroyed = false
    rw [update_of_ne hne]
    exact hy.alive v (List.mem_of_mem_erase hv)
  · exact hmem v (hy.focused v hv) (hforgets v (.inl hv))
  · exact hmem v (hy.entered v hv) (hforgets v (.inr (.inl hv)))
  · exact hmem v (hy.pointer v hv) (hforgets v (.inr (.inr (.inl hv))))
  · exact hmem v (hy.keyboard v hv) (hforgets v (.inr (.inr (.inr (.inl hv)))))
  · exact hmem v (hy.unselkeys v hv) (hforgets v (.inr (.inr (.inr (.inr hv)))))
  · exact hmem v (hy.keys i v hcode how) (hkeys i v hcode how)
  · obtain ⟨hg,hne⟩ := List.mem_filter.mp hg
    exact hmem g.owner (hy.grabbed g hg) (by simpa using hne)

theorem managed_destroyWindow (hx : Managed x) (w : ω) : Managed (destroyWindow x w) :=
  managed_removeWindow (managed_setOpacity hx w 0) w _

theorem managed_addWindow (hx : Managed x) (hw : w ∉ x.windows) {data : InputWindow}
    (hdata : data.destroyed = false) : Managed (addWindow x w data) := by
  refine (quiet_updateFocus _).managed ?_
  have hperm : (insertWindow (setWindow x w data) w).windows.Perm (w::x.windows) := by
    unfold insertWindow setWindow
    exact List.perm_insertIdx _ _ List.findIdx_le_length
  have hmem : ∀ v ∈ x.windows, v ∈ (insertWindow (setWindow x w data) w).windows := fun v hv =>
    hperm.symm.subset (List.mem_cons_of_mem _ hv)
  refine ⟨hperm.nodup_iff.mpr (List.nodup_cons.mpr ⟨hw,hx.nodup⟩),fun v hv => ?_,
    fun v hv => hmem v (hx.focused v hv),fun v hv => hmem v (hx.entered v hv),
    fun v hv => hmem v (hx.pointer v hv),fun v hv => hmem v (hx.keyboard v hv),
    fun v hv => hmem v (hx.unselkeys v hv),fun i v hcode how => hmem v (hx.keys i v hcode how),
    fun g hg => hmem _ (hx.grabbed g hg)⟩
  change (update x.window w data v).destroyed = false
  rw [update_apply]
  split_ifs with hv'
  · exact hdata
  · exact hx.alive v ((List.mem_cons.mp (hperm.subset hv)).resolve_left hv')

end Managed

section Input
variable {x : State ω}

omit [DecidableEq ω] in
theorem focusedToStack_mem (hx : Managed x) {w : ω} (h : focusedToStack x = some w) :
    w ∈ x.windows := by
  unfold focusedToStack at h
  exact hx.focused w (Option.filter_eq_some_iff.mp h).1

/-- The keys of the window manager but the one that destroys a window. -/
theorem quiet_handleWmKey (hx : Managed x) {key : WmKey} (h : key ≠ .d) :
    Quiet x (handleWmKey x key) := by
  cases key with
  | x => exact quiet_cycleWindows x
  | s =>
    unfold handleWmKey
    dsimp only
    split
    · rename_i w hw
      exact quiet_raise (List.mem_of_find?_eq_some hw)
    · exact .refl x
  | c => exact quiet_postTo (fun _ => rfl) (fun _ => rfl) (fun _ _ => rfl) _
  | e => exact quiet_updateFocus x
  | a =>
    unfold handleWmKey
    dsimp only
    split
    · rename_i w hw
      exact (quiet_restackWindow (focusedToStack_mem hx hw) none 0 _).trans (quiet_updateFocus _)
    · exact .refl x
  | w =>
    unfold handleWmKey
    dsimp only
    split
    · rename_i w hw
      exact quiet_restackWindow (focusedToStack_mem hx hw) none 1 _
    · exact .refl x
  | d => exact absurd rfl h
  | p =>
    exact ⟨.refl _,fun _ => rfl,fun _ => .inl,fun _ => .inl,fun w hw => (by cases hw),rfl,rfl,rfl,
      rfl,fun _ h => ⟨h.focus,h.enter⟩,fun _ _ => rfl⟩
  | r =>
    unfold handleWmKey
    dsimp only
    split
    · split_ifs
      · exact .refl x
      · exact quiet_setWindow rfl
    · exact .refl x
  | print => exact .refl x
  | f12 => exact .refl x

theorem quiet_pressLevel (x : State ω) (symbol : ℕ) : Quiet x (pressLevel x symbol) := by
  unfold pressLevel
  split_ifs
  · split
    · exact .of_eq rfl (fun _ => rfl) rfl rfl rfl rfl rfl rfl rfl rfl
    · exact .refl x
  · exact .of_eq rfl (fun _ => rfl) rfl rfl rfl rfl rfl rfl rfl rfl
  · exact .refl x

theorem quiet_releaseLevel (x : State ω) (symbol : ℕ) : Quiet x (releaseLevel x symbol) := by
  unfold releaseLevel
  split
  · exact .of_eq rfl (fun _ => rfl) rfl rfl rfl rfl rfl rfl rfl rfl
  · exact .refl x

theorem quiet_tellMotion (x : State ω) : Quiet x (tellMotion x) := by
  unfold tellMotion
  dsimp only
  split
  · exact quiet_post rfl rfl (fun _ => rfl) _
  · split_ifs
    · exact quiet_updateFocus x
    · exact (quiet_updateFocus x).trans
        (quiet_postTo (fun _ => rfl) (fun _ => rfl) (fun _ _ => rfl) _)

theorem motion_opacity (v : ℤ) : Fin.ofNat 256 (clamp 8 255 v).toNat ≠ 0 := by
  intro hzero
  have hval := congrArg Fin.val hzero
  have hlow : 8 ≤ clamp 8 255 v ∧ clamp 8 255 v ≤ 255 := by
    unfold clamp
    omega
  simp only [Fin.ofNat,Fin.val_zero] at hval
  omega

theorem quiet_dragWindow (x : State ω) (w : ω) (dx dy : ℤ) : Quiet x (dragWindow x w dx dy) := by
  unfold dragWindow
  dsimp only
  split_ifs
  · exact quiet_setOpacity x w (motion_opacity _)
  · exact .refl x
  · unfold windowResize
    split_ifs
    · exact .refl x
    · exact quiet_resizeWindow x w _
  · exact .refl x
  · exact quiet_moveWindow x w dx dy

theorem quiet_performMotion (x : State ω) (dx dy : ℤ) : Quiet x (performMotion x dx dy) := by
  have hcursor : ∀ cursor, Quiet x {x with cursor := cursor} := fun cursor =>
    .of_eq rfl (fun _ => rfl) rfl rfl rfl rfl rfl rfl rfl rfl
  unfold performMotion
  dsimp only
  split_ifs
  · exact .refl x
  · exact hcursor _
  · exact (hcursor _).trans (quiet_tellMotion _)
  · split
    · exact (hcursor _).trans (quiet_dragWindow _ _ _ _)
    · exact hcursor _

end Input

section Step
variable {x : State ω} {w : ω}

theorem OnlyKeys.managed {y : State ω} (h : OnlyKeys x y) (hx : Managed x)
    (hkeys : ∀ i w, (y.keys i).code ≠ -1 → (y.keys i).owner = some w → w ∈ x.windows) :
    Managed y := by
  rw [h.frame]
  exact ⟨hx.nodup,hx.alive,hx.focused,hx.entered,hx.pointer,hx.keyboard,hx.unselkeys,hkeys,
    hx.grabbed⟩

omit [DecidableEq ω] in
theorem keyTarget_mem (hx : Managed x) (h : keyTarget x = some w) : w ∈ x.windows := by
  unfold keyTarget at h
  cases hk : x.keyboardWindow with
  | none =>
    rw [hk,Option.none_or] at h
    exact hx.focused w h
  | some v =>
    rw [hk,Option.some_or] at h
    exact hx.keyboard w (hk.trans h)

omit [DecidableEq ω] in
theorem pressWindow_keys (x : State ω) (k : KeyData) (i : Fin maxKeys) :
    (pressWindow x k).1.keys i = x.keys i ∨
    ∃ w, keyTarget x = some w ∧ (pressWindow x k).1.keys i = ⟨k,some w⟩ := by
  unfold pressWindow
  split
  · exact .inl rfl
  · split_ifs
    · exact .inl rfl
    · split
      · exact .inl rfl
      · split
        · exact .inl rfl
        · rename_i w hw
          split_ifs
          · exact .inl rfl
          · split
            · exact .inl rfl
            · dsimp only
              rw [update_apply]
              split_ifs
              · exact .inr ⟨w,hw,rfl⟩
              · exact .inl rfl

omit [DecidableEq ω] in
theorem releaseWindow_keys (x : State ω) (k : KeyData) (i : Fin maxKeys) :
    (releaseWindow x k).1.keys i = x.keys i ∨
    (releaseWindow x k).1.keys i = {x.keys i with code := -1} := by
  unfold releaseWindow
  split
  · exact .inl rfl
  · split_ifs
    · exact .inl rfl
    · split
      · dsimp only
        rw [update_apply]
        split_ifs with h
        · exact .inr (h ▸ rfl)
        · exact .inl rfl
      · exact .inl rfl

omit [DecidableEq ω] in
theorem keys_postTo (o : Option ω) (e : ω → WindowEvent) : (postTo x o e).keys = x.keys := by
  rw [postTo_eq]

def Owned (x : State ω) : Prop := ∀ i w, (x.keys i).owner = some w → w ∈ x.windows

theorem Quiet.owned {y : State ω} (h : Quiet x y) (hx : Owned x) : Owned y := fun i w hw => by
  rw [h.keys] at hw
  exact h.windows.symm.subset (hx i w hw)

theorem managed_press (hx : Managed x) (k : KeyData) :
    Managed (postTo (pressWindow x k).1 (pressWindow x k).2 fun _ => .keyDown k) ∧
    (Owned x → Owned (postTo (pressWindow x k).1 (pressWindow x k).2 fun _ => .keyDown k)) := by
  have honly := onlyKeys_press x k
  have howner : ∀ i w, ((pressWindow x k).1.keys i).owner = some w →
      (pressWindow x k).1.keys i = x.keys i ∨ w ∈ x.windows := by
    intro i w how
    rcases pressWindow_keys x k i with hsame | ⟨v,hv,hnew⟩
    · exact .inl hsame
    · rw [hnew] at how
      exact .inr (keyTarget_mem hx (hv.trans how))
  refine ⟨honly.managed hx fun i w hcode how => ?_,fun hown i w how => ?_⟩
  · rw [keys_postTo] at hcode how
    rcases howner i w how with hsame | hw
    · rw [hsame] at hcode how
      exact hx.keys i w hcode how
    · exact hw
  · rw [keys_postTo] at how
    rw [honly.frame]
    rcases howner i w how with hsame | hw
    · rw [hsame] at how
      exact hown i w how
    · exact hw

theorem managed_release (hx : Managed x) (k : KeyData) :
    Managed (postTo (releaseWindow x k).1 (releaseWindow x k).2 fun _ => .keyUp k) ∧
    (Owned x → Owned (postTo (releaseWindow x k).1 (releaseWindow x k).2 fun _ => .keyUp k)) := by
  have honly := onlyKeys_release x k
  refine ⟨honly.managed hx fun i w hcode how => ?_,fun hown i w how => ?_⟩
  · rw [keys_postTo] at hcode how
    rcases releaseWindow_keys x k i with hsame | hfree
    · rw [hsame] at hcode how
      exact hx.keys i w hcode how
    · rw [hfree] at hcode
      exact absurd rfl hcode
  · rw [keys_postTo] at how
    rw [honly.frame]
    rcases releaseWindow_keys x k i with hsame | hfree
    · rw [hsame] at how
      exact hown i w how
    · rw [hfree] at how
      exact hown i w how

theorem managed_guard {w : ω} {y z : State ω} (h : managed x w z = some y) :
    w ∈ x.windows ∧ z = y := by
  unfold managed at h
  split_ifs at h with hw
  exact ⟨hw,Option.some.inj h⟩

/-- The steps that leave all focus, input and windows to be managed as they are. -/
theorem quiet_step {e : Event ω} {y : State ω} (hy : step x e = some y) :
    match e with
    | .move _ _ _ | .resize _ _ | .bounds _ _ _ _ | .look _ _ | .stacking _ _ | .restack _ _ _
    | .motion _ _ | .requestFocus _ => Quiet x y
    | _ => True := by
  cases e with
  | move w dx dy => exact (managed_guard hy).2 ▸ quiet_moveWindow x w dx dy
  | resize w s => exact (managed_guard hy).2 ▸ quiet_resizeWindow x w s
  | bounds w px py s => exact (managed_guard hy).2 ▸ quiet_setWindowBounds x w px py s
  | look w look => exact (managed_guard hy).2 ▸ quiet_setWindow rfl
  | stacking w stacking =>
    obtain ⟨hw,rfl⟩ := managed_guard hy
    exact quiet_restackWindow hw (some w) 0 stacking
  | restack w relative relation =>
    obtain ⟨hw,rfl⟩ := managed_guard hy
    exact (quiet_restackWindow hw relative relation _).trans (quiet_updateFocus _)
  | motion dx dy => exact Option.some.inj hy ▸ quiet_performMotion x dx dy
  | requestFocus w =>
    obtain ⟨hw,rfl⟩ := managed_guard hy
    exact quiet_requestFocus hw
  | _ => trivial

/-- No step refers to a window that is not managed. -/
theorem managed_step (hx : Managed x) {e : Event ω} {y : State ω} (hy : step x e = some y) :
    Managed y := by
  cases e with
  | add w data =>
    unfold step at hy
    dsimp only at hy
    split_ifs at hy with h
    obtain rfl := Option.some.inj hy
    exact managed_addWindow hx h.1 h.2.2
  | destroy w =>
    obtain ⟨-,rfl⟩ := managed_guard hy
    exact managed_destroyWindow hx w
  | opacity w o =>
    obtain ⟨-,rfl⟩ := managed_guard hy
    exact managed_setOpacity hx w o
  | cursor enabled =>
    obtain rfl := Option.some.inj hy
    exact ⟨hx.nodup,hx.alive,hx.focused,hx.entered,hx.pointer,hx.keyboard,hx.unselkeys,hx.keys,
      hx.grabbed⟩
  | grabKeyboard w =>
    obtain ⟨hw,rfl⟩ := managed_guard hy
    unfold grabKeyboard
    split_ifs
    · exact hx
    · exact {hx with keyboard := fun v hv => Option.some.inj hv ▸ hw}
  | ungrabKeyboard w =>
    obtain ⟨-,rfl⟩ := managed_guard hy
    unfold ungrabKeyboard
    split_ifs
    · exact {hx with keyboard := fun v hv => (by cases hv)}
    · exact hx
  | grabPointer w =>
    obtain ⟨hw,rfl⟩ := managed_guard hy
    unfold grabPointer
    split_ifs
    · exact hx
    · exact {hx with pointer := fun v hv => Option.some.inj hv ▸ hw}
  | ungrabPointer w =>
    obtain ⟨-,rfl⟩ := managed_guard hy
    unfold ungrabPointer
    split_ifs
    · exact (quiet_updateFocus _).managed {hx with pointer := fun v hv => (by cases hv)}
    · exact hx
  | grabUnselectedKeys w =>
    obtain ⟨hw,rfl⟩ := managed_guard hy
    unfold grabUnselectedKeys
    split_ifs
    · exact hx
    · exact {hx with unselkeys := fun v hv => Option.some.inj hv ▸ hw}
  | ungrabUnselectedKeys w =>
    obtain ⟨-,rfl⟩ := managed_guard hy
    unfold ungrabUnselectedKeys
    split_ifs
    · exact {hx with unselkeys := fun v hv => (by cases hv)}
    · exact hx
  | grabKey w symbol modifiers =>
    obtain ⟨hw,rfl⟩ := managed_guard hy
    unfold grabKey
    split_ifs
    · exact hx
    · refine {hx with keys := fun i v hcode how => ?_, grabbed := fun g hg => ?_}
      · dsimp only at hcode how
        split_ifs at hcode how
        · exact absurd rfl hcode
        · exact hx.keys i v hcode how
      · rcases List.mem_append.mp hg with hg | hg
        · exact hx.grabbed g hg
        · obtain rfl := List.mem_singleton.mp hg
          exact hw
  | ungrabKey w symbol modifiers =>
    obtain ⟨-,rfl⟩ := managed_guard hy
    exact {hx with grabbed := fun g hg => hx.grabbed g (List.mem_of_mem_eraseP hg)}
  | move | resize | bounds | look | stacking | restack | motion | requestFocus =>
    exact (quiet_step hy).managed hx
  | modifiers m =>
    obtain rfl := Option.some.inj hy
    exact ⟨hx.nodup,hx.alive,hx.focused,hx.entered,hx.pointer,hx.keyboard,hx.unselkeys,hx.keys,
      hx.grabbed⟩
  | press k =>
    obtain rfl := Option.some.inj hy
    unfold handleKeyPress
    split
    · rename_i key _
      by_cases hkey : key = .d
      · subst hkey
        unfold handleWmKey
        dsimp only
        split
        · split_ifs
          · exact hx
          · exact managed_destroyWindow hx _
        · exact hx
      · exact (quiet_handleWmKey hx hkey).managed hx
    · exact (managed_press ((quiet_pressLevel x k.symbol).managed hx) k).1
  | release k =>
    obtain rfl := Option.some.inj hy
    unfold handleKeyRelease
    split_ifs
    · exact hx
    · exact (managed_release ((quiet_releaseLevel x k.symbol).managed hx) k).1

end Step

section Exact
variable {x : State ω} {w : ω}

/-- Every window that is not destroyed is paired, and the owners of keys are managed. -/
structure Consistent (x : State ω) : Prop where
  managed : Managed x
  paired : ∀ w, (x.window w).destroyed = false → Paired x w
  owned : Owned x

theorem Quiet.consistent {y : State ω} (h : Quiet x y) (hx : Consistent x) : Consistent y :=
  ⟨h.managed hx.managed,fun w hw => h.paired w (hx.paired w ((h.destroyed w).symm.trans hw)),
    h.owned hx.owned⟩

def HideKept (x : State ω) (w : ω) : Prop :=
  let after := windowAtPointer (setWindow x w {x.window w with opacity := 0})
  (x.enteredWindow = some w → x.pointerWindow = none) ∧
  (x.focusedWindow = some w → x.pointerWindow = none ∧ x.enteredWindow ≠ after ∧
    ∀ v, after = some v → (x.window v).noFocus = false)

def DestroyKept (x : State ω) (w : ω) : Prop :=
  ∀ i, (x.keys i).owner = some w → (x.keys i).code ≠ -1

def Kept (x : State ω) : Event ω → Prop
  | .opacity w o => o = 0 → (x.window w).opacity ≠ 0 → HideKept x w
  | .destroy w => DestroyKept x w
  | .press k => takenKey x k.symbol = some .d → ∀ w, x.enteredWindow = some w → DestroyKept x w
  | _ => True

omit [DecidableEq ω] in
theorem windowAtPointer_shown (h : windowAtPointer x = some w) : (x.window w).opacity ≠ 0 := by
  have hshown : (x.window w).shown = true := by
    unfold windowAtPointer at h
    split_ifs at h
    · simpa using List.find?_some h
    · have hat := List.find?_some h
      simp only [InputWindow.isAt,Bool.and_eq_true] at hat
      exact hat.1.1.1.1.1
  unfold InputWindow.shown at hshown
  simp only [Bool.and_eq_true,decide_eq_true_eq] at hshown
  exact hshown.1

theorem switchFocus_focused {next : Option ω} (hnext : ∀ v, next = some v → (x.window v).noFocus = false) :
    (switchFocus x next).focusedWindow = next := by
  unfold switchFocus
  split_ifs with hsame hno
  · exact hsame
  · cases next with
    | none => cases hno
    | some v =>
      rw [Option.any_some,hnext v rfl] at hno
      cases hno
  · rfl

theorem switchFocus_or (x : State ω) (next : Option ω) : (switchFocus x next).focusedWindow = next ∨
    (switchFocus x next).focusedWindow = x.focusedWindow := by
  unfold switchFocus
  split_ifs
  · exact .inr rfl
  · exact .inr rfl
  · exact .inl rfl

/-- The window that is hidden has neither the focus nor the pointer when it is withdrawn. -/
theorem HideKept.hide (h : HideKept x w) : (hide x w).focusedWindow ≠ some w ∧
    (hide x w).enteredWindow ≠ some w := by
  obtain ⟨hentered,hfocused⟩ := h
  unfold WindowFocus.hide
  have hshown : ∀ v, windowAtPointer (setWindow x w {x.window w with opacity := 0}) = some v → v ≠ w := by
    intro v hv he
    subst he
    refine windowAtPointer_shown hv ?_
    unfold setWindow
    dsimp only
    rw [update_self]
  have hcaps : ∀ v, ((setWindow x w {x.window w with opacity := 0}).window v).noFocus =
      (x.window v).noFocus := by
    intro v
    unfold setWindow
    dsimp only
    rw [update_apply]
    split_ifs with hv
    · rw [hv]
    · rfl
  have hsame : (setWindow x w {x.window w with opacity := 0}).focusedWindow = x.focusedWindow ∧
      (setWindow x w {x.window w with opacity := 0}).enteredWindow = x.enteredWindow ∧
      (setWindow x w {x.window w with opacity := 0}).pointerWindow = x.pointerWindow :=
    ⟨rfl,rfl,rfl⟩
  generalize setWindow x w {x.window w with opacity := 0} = y at *
  obtain ⟨hf,he,hp⟩ := hsame
  unfold updateFocus
  dsimp only
  rw [he,hp]
  by_cases hpointer : x.pointerWindow.isSome = true
  · rw [if_pos hpointer,hf,he]
    refine ⟨fun hw => ?_,fun hw => ?_⟩
    · rw [(hfocused hw).1] at hpointer
      cases hpointer
    · rw [hentered hw] at hpointer
      cases hpointer
  · rw [if_neg hpointer]
    by_cases hafter : x.enteredWindow = windowAtPointer y
    · rw [if_pos hafter,hf,he]
      exact ⟨fun hw => (hfocused hw).2.1 hafter,fun hw => hshown w (hafter ▸ hw) rfl⟩
    · rw [if_neg hafter]
      refine ⟨?_,fun hw => hshown w hw rfl⟩
      rw [postTo_eq,postTo_eq]
      dsimp only
      set z : State ω := {y with
        posted := y.posted++entryFor x.enteredWindow (fun w => WindowEvent.leave (pointIn y w))}
      rcases switchFocus_or z (windowAtPointer y) with hnext | hold
      · rw [hnext]
        exact fun hw => hshown w hw rfl
      · by_cases hw : x.focusedWindow = some w
        · rw [switchFocus_focused (x := z) fun v hv => (hcaps v).trans ((hfocused hw).2.2 v hv)]
          exact fun hw => hshown w hw rfl
        · rw [hold]
          exact fun h => hw (hf ▸ h)

theorem paired_setOpacity {v : ω} (hp : Paired x v) (w : ω) (o : Fin 256)
    (hv : v = w → o = 0 → (x.window w).opacity ≠ 0 → HideKept x w) :
    Paired (setOpacity x w o) v := by
  by_cases ho : o = 0
  · subst ho
    by_cases hw : (x.window w).opacity = 0
    · rw [setOpacity_hidden hw]
      exact hp
    · rw [setOpacity_hide hw]
      have hwithdrawn := withdrawn (hide x w) w
      exact (quiet_ensureFocus _).paired v (hwithdrawn.paired
        (fun he => (hv he rfl hw).hide) ((quiet_hide x w).paired v hp))
  · exact (quiet_setOpacity x w ho).paired v hp

theorem Withdrawn.owned {y : State ω} (h : Withdrawn x y w) (hx : Owned x) : Owned y := by
  intro i v hv
  rw [h.keys] at hv
  rw [h.windows]
  split_ifs at hv
  exact hx i v hv

theorem Withdrawn.disowned {y : State ω} (h : Withdrawn x y w) (hx : DestroyKept x w) :
    ∀ i, (y.keys i).owner ≠ some w := by
  intro i hw
  rw [h.keys] at hw
  split_ifs at hw with hused
  refine hused ?_
  unfold usedBy
  simp [hx i hw,hw]

theorem owned_setOpacity (hx : Owned x) (w : ω) (o : Fin 256) : Owned (setOpacity x w o) := by
  by_cases ho : o = 0
  · subst ho
    by_cases hw : (x.window w).opacity = 0
    · rw [setOpacity_hidden hw]
      exact hx
    · rw [setOpacity_hide hw]
      have hwithdrawn := withdrawn (hide x w) w
      exact (quiet_ensureFocus _).owned (hwithdrawn.owned ((quiet_hide x w).owned hx))
  · exact (quiet_setOpacity x w ho).owned hx

theorem destroyKept_setOpacity (h : DestroyKept x w) : DestroyKept (setOpacity x w 0) w := by
  by_cases hw : (x.window w).opacity = 0
  · rw [setOpacity_hidden hw]
    exact h
  · rw [setOpacity_hide hw]
    intro i hi
    rw [(quiet_ensureFocus _).keys] at hi
    have hhide : DestroyKept (hide x w) w := by
      intro i hi
      rw [(quiet_hide x w).keys] at hi ⊢
      exact h i hi
    exact absurd hi ((withdrawn (hide x w) w).disowned hhide i)

theorem consistent_destroyWindow (hx : Consistent x) (hkept : DestroyKept x w) :
    Consistent (destroyWindow x w) := by
  have howned := owned_setOpacity hx.owned w 0
  have hdestroy := destroyKept_setOpacity hkept
  have hpaired : ∀ v, v ≠ w → Paired x v → Paired (setOpacity x w 0) v := fun v hv hp =>
    paired_setOpacity hp w 0 fun he => absurd he hv
  have hwindow : ∀ v, ((setOpacity x w 0).window v).destroyed = (x.window v).destroyed := by
    intro v
    by_cases hw : (x.window w).opacity = 0
    · rw [setOpacity_hidden hw]
    · rw [setOpacity_hide hw,(quiet_ensureFocus _).destroyed,(withdrawn _ w).window,
        (quiet_hide x w).destroyed]
  refine ⟨managed_destroyWindow hx.managed w,fun v hv => ?_,fun i v hv => ?_⟩
  · unfold destroyWindow removeWindow setWindow at hv ⊢
    have hwithdrawn := withdrawn (setOpacity x w 0) w
    dsimp only at hv
    generalize withdrawWindow (setOpacity x w 0) w = y at *
    rw [update_apply] at hv
    split_ifs at hv with he
    rw [hwithdrawn.window,hwindow] at hv
    have hy := hwithdrawn.paired (fun h => absurd h he) (hpaired v he (hx.paired v hv))
    exact ⟨hy.focus,hy.enter⟩
  · unfold destroyWindow removeWindow setWindow at hv ⊢
    have hwithdrawn := withdrawn (setOpacity x w 0) w
    dsimp only at hv ⊢
    generalize withdrawWindow (setOpacity x w 0) w = y at *
    have hne : v ≠ w := fun he => hwithdrawn.disowned hdestroy i (he ▸ hv)
    exact (List.mem_erase_of_ne hne).mpr (hwithdrawn.owned howned i v hv)

theorem consistent_addWindow (hx : Consistent x) (hw : w ∉ x.windows)
    (halive : (x.window w).destroyed = false) {data : InputWindow}
    (hdata : data.destroyed = false) : Consistent (addWindow x w data) := by
  have hperm : (insertWindow (setWindow x w data) w).windows.Perm (w::x.windows) := by
    unfold insertWindow setWindow
    exact List.perm_insertIdx _ _ List.findIdx_le_length
  refine ⟨managed_addWindow hx.managed hw hdata,fun v hv => ?_,(quiet_updateFocus _).owned ?_⟩
  · unfold addWindow at hv ⊢
    rw [(quiet_updateFocus _).destroyed] at hv
    have hold : (x.window v).destroyed = false := by
      by_cases he : v = w
      · rw [he]
        exact halive
      · change (update x.window w data v).destroyed = false at hv
        rwa [update_of_ne he] at hv
    exact (quiet_updateFocus _).paired v ⟨(hx.paired v hold).focus,(hx.paired v hold).enter⟩
  · intro i v hv
    exact hperm.symm.subset (List.mem_cons_of_mem _ (hx.owned i v hv))

theorem Consistent.of_focus {y : State ω} (hx : Consistent x) (hy : Managed y)
    (hwindow : y.window = x.window) (hwindows : y.windows = x.windows)
    (hfocused : y.focusedWindow = x.focusedWindow) (hentered : y.enteredWindow = x.enteredWindow)
    (howner : ∀ i, (y.keys i).owner = (x.keys i).owner) (hposted : y.posted = x.posted) :
    Consistent y := by
  refine ⟨hy,fun v hv => ?_,fun i v hv => ?_⟩
  · have hp := hx.paired v (hwindow ▸ hv)
    exact ⟨hfocused ▸ hposted ▸ hp.focus,hentered ▸ hposted ▸ hp.enter⟩
  · rw [hwindows]
    exact hx.owned i v ((howner i).symm.trans hv)

theorem consistent_step (hx : Consistent x) {e : Event ω} (hkept : Kept x e) {y : State ω}
    (hy : step x e = some y) : Consistent y := by
  have hm := managed_step hx.managed hy
  cases e with
  | add w data =>
    unfold step at hy
    dsimp only at hy
    split_ifs at hy with h
    obtain rfl := Option.some.inj hy
    exact consistent_addWindow hx h.1 h.2.1 h.2.2
  | destroy w =>
    obtain ⟨-,rfl⟩ := managed_guard hy
    exact consistent_destroyWindow hx hkept
  | opacity w o =>
    obtain ⟨-,rfl⟩ := managed_guard hy
    have hdestroyed : ∀ v, ((setOpacity x w o).window v).destroyed = (x.window v).destroyed := by
      intro v
      by_cases ho : o = 0
      · subst ho
        by_cases hw : (x.window w).opacity = 0
        · rw [setOpacity_hidden hw]
        · rw [setOpacity_hide hw,(quiet_ensureFocus _).destroyed,(withdrawn _ w).window,
            (quiet_hide x w).destroyed]
      · exact (quiet_setOpacity x w ho).destroyed v
    exact ⟨hm,fun v hv => paired_setOpacity (hx.paired v ((hdestroyed v).symm.trans hv)) w o
      fun _ => hkept,owned_setOpacity hx.owned w o⟩
  | cursor enabled =>
    obtain rfl := Option.some.inj hy
    exact hx.of_focus hm rfl rfl rfl rfl (fun _ => rfl) rfl
  | grabKeyboard w =>
    obtain ⟨-,rfl⟩ := managed_guard hy
    unfold grabKeyboard at hm ⊢
    split_ifs at hm ⊢
    · exact hx
    · exact hx.of_focus hm rfl rfl rfl rfl (fun _ => rfl) rfl
  | ungrabKeyboard w =>
    obtain ⟨-,rfl⟩ := managed_guard hy
    unfold ungrabKeyboard at hm ⊢
    split_ifs at hm ⊢
    · exact hx.of_focus hm rfl rfl rfl rfl (fun _ => rfl) rfl
    · exact hx
  | grabPointer w =>
    obtain ⟨-,rfl⟩ := managed_guard hy
    unfold grabPointer at hm ⊢
    split_ifs at hm ⊢
    · exact hx
    · exact hx.of_focus hm rfl rfl rfl rfl (fun _ => rfl) rfl
  | ungrabPointer w =>
    obtain ⟨-,rfl⟩ := managed_guard hy
    unfold ungrabPointer
    split_ifs
    · refine (quiet_updateFocus _).consistent (hx.of_focus ?_ rfl rfl rfl rfl (fun _ => rfl) rfl)
      exact {hx.managed with pointer := fun v hv => (by cases hv)}
    · exact hx
  | grabUnselectedKeys w =>
    obtain ⟨-,rfl⟩ := managed_guard hy
    unfold grabUnselectedKeys at hm ⊢
    split_ifs at hm ⊢
    · exact hx
    · exact hx.of_focus hm rfl rfl rfl rfl (fun _ => rfl) rfl
  | ungrabUnselectedKeys w =>
    obtain ⟨-,rfl⟩ := managed_guard hy
    unfold ungrabUnselectedKeys at hm ⊢
    split_ifs at hm ⊢
    · exact hx.of_focus hm rfl rfl rfl rfl (fun _ => rfl) rfl
    · exact hx
  | grabKey w symbol modifiers =>
    obtain ⟨-,rfl⟩ := managed_guard hy
    unfold grabKey at hm ⊢
    split_ifs at hm ⊢
    · exact hx
    · refine hx.of_focus hm rfl rfl rfl rfl (fun i => ?_) rfl
      dsimp only
      split_ifs <;> rfl
  | ungrabKey w symbol modifiers =>
    obtain ⟨-,rfl⟩ := managed_guard hy
    exact hx.of_focus hm rfl rfl rfl rfl (fun _ => rfl) rfl
  | move | resize | bounds | look | stacking | restack | motion | requestFocus =>
    exact (quiet_step hy).consistent hx
  | modifiers m =>
    obtain rfl := Option.some.inj hy
    exact hx.of_focus hm rfl rfl rfl rfl (fun _ => rfl) rfl
  | press k =>
    obtain rfl := Option.some.inj hy
    unfold handleKeyPress at hm ⊢
    split at hm
    · rename_i key htaken
      by_cases hkey : key = .d
      · subst hkey
        unfold handleWmKey
        dsimp only
        split
        · rename_i w hw
          split_ifs
          · exact hx
          · exact consistent_destroyWindow hx (hkept htaken w hw)
        · exact hx
      · exact (quiet_handleWmKey hx.managed hkey).consistent hx
    · have hlevel := (quiet_pressLevel x k.symbol).consistent hx
      have honly := onlyKeys_press (pressLevel x k.symbol) k
      refine ⟨hm,fun v hv => honly.paired (hlevel.paired v ?_),
        (managed_press hlevel.managed k).2 hlevel.owned⟩
      rw [honly.frame] at hv
      exact hv
  | release k =>
    obtain rfl := Option.some.inj hy
    unfold handleKeyRelease at hm ⊢
    split_ifs at hm ⊢
    · exact hx
    · have hlevel := (quiet_releaseLevel x k.symbol).consistent hx
      have honly := onlyKeys_release (releaseLevel x k.symbol) k
      refine ⟨hm,fun v hv => honly.paired (hlevel.paired v ?_),
        (managed_release hlevel.managed k).2 hlevel.owned⟩
      rw [honly.frame] at hv
      exact hv

theorem init_consistent (h : init x) : Consistent x := by
  obtain ⟨hwindows,hposted,hgrabbed,⟨hpointer,hkeyboard,hfocused,hentered,hunselkeys⟩,hkeys⟩ := h
  refine ⟨⟨?_,?_,?_,?_,?_,?_,?_,?_,?_⟩,fun w _ => ⟨?_,?_⟩,fun i w hw => ?_⟩
  · rw [hwindows]
    exact List.nodup_nil
  · simp [hwindows]
  · simp [hfocused]
  · simp [hentered]
  · simp [hpointer]
  · simp [hkeyboard]
  · simp [hunselkeys]
  · intro i w hcode
    exact absurd (hkeys i).1 hcode
  · simp [hgrabbed]
  · rw [hfocused,hposted]
    exact holds_nil focus? w
  · rw [hentered,hposted]
    exact holds_nil enter? w
  · rw [(hkeys i).2] at hw
    cases hw

/-- In every state reached the manager refers only to its windows, and for each window that is
not destroyed focus and pointer events alternate, with one unmatched exactly where the window
is focused or entered. -/
theorem focus_events_paired (h : Reaches step Kept init x) :
    (∀ w, x.focusedWindow = some w ∨ x.enteredWindow = some w ∨ x.pointerWindow = some w ∨
      x.keyboardWindow = some w ∨ x.unselkeysWindow = some w ∨
      (∃ i, (x.keys i).owner = some w) ∨ (∃ g ∈ x.grabbedKeys, g.owner = w) → w ∈ x.windows) ∧
    ∀ w, (x.window w).destroyed = false → (Alternates (received focus? w x.posted) ∧
        (unmatched (received focus? w x.posted) = true ↔ x.focusedWindow = some w)) ∧
      (Alternates (received enter? w x.posted) ∧
        (unmatched (received enter? w x.posted) = true ↔ x.enteredWindow = some w)) := by
  have hx : Consistent x := h.invariant Consistent (fun _ => init_consistent)
    fun _ _ _ hc hk hs => consistent_step hc hk hs
  refine ⟨fun w hw => ?_,fun w hw => ?_⟩
  · rcases hw with hw | hw | hw | hw | hw | ⟨i,hi⟩ | ⟨g,hg,rfl⟩
    · exact hx.managed.focused w hw
    · exact hx.managed.entered w hw
    · exact hx.managed.pointer w hw
    · exact hx.managed.keyboard w hw
    · exact hx.managed.unselkeys w hw
    · exact hx.owned i w hi
    · exact hx.managed.grabbed g hg
  · obtain ⟨⟨hfocus,hfocused⟩,⟨henter,hentered⟩⟩ := hx.paired w hw
    refine ⟨⟨hfocus,?_⟩,⟨henter,?_⟩⟩
    · rw [hfocused,decide_eq_true_eq]
    · rw [hentered,decide_eq_true_eq]

end Exact

section Runs

def plain : InputWindow where
  toWindow := WindowConfig.newWindow false 0 0 ⟨10,10,ten_pos,ten_pos⟩ {}

def start : State (Fin 2) where
  window := fun _ => plain
  windows := []
  width := 100
  height := 100
  cursor := (0,0)
  cursorEnabled := false
  cursorSet := false
  translucentWindows := true
  modifiers := 0
  wmLevel := 0
  wmCycle := 0
  pointerWindow := none
  keyboardWindow := none
  focusedWindow := none
  enteredWindow := none
  unselkeysWindow := none
  grabbedKeys := []
  keys := fun _ => ⟨⟨0,0,-1⟩,none⟩
  posted := []

theorem init_start : init start :=
  ⟨rfl,rfl,rfl,⟨rfl,rfl,rfl,rfl,rfl⟩,fun _ => ⟨rfl,rfl⟩⟩

set_option maxRecDepth 4000 in
/-- Two windows are shown, and the upper one is hidden again. -/
theorem hidden_window_paired : ∃ x : State (Fin 2), Reaches step Kept init x ∧
    (x.window 1).destroyed = false ∧ x.focusedWindow = some 0 ∧
    received focus? 1 x.posted = [true,false] ∧
    (unmatched (received focus? 1 x.posted) = true ↔ x.focusedWindow = some 1) := by
  have h0 : Reaches step Kept init start := .init init_start
  have h1 := h0.step (Event.add 0 plain) trivial rfl
  have h2 := h1.step (Event.opacity 0 255) (fun h => absurd h (by decide)) rfl
  have h3 := h2.step (Event.add 1 plain) trivial rfl
  have h4 := h3.step (Event.opacity 1 255) (fun h => absurd h (by decide)) rfl
  have h5 := h4.step (Event.opacity 1 0) (fun _ _ => ⟨fun _ => rfl,fun _ => ⟨rfl,by decide,by decide⟩⟩)
    rfl
  exact ⟨_,h5,rfl,rfl,rfl,(((focus_events_paired h5).2 1 rfl).1).2⟩

/-- A window that grabs the pointer is hidden: it is neither left nor loses the focus, and
enters and gets the focus again when it is shown. -/
theorem hidden_window_unmatched : ∃ x, exec step start
    [.add 0 plain,.opacity 0 255,.grabPointer 0,.opacity 0 0] = some x ∧
    (x.window 0).destroyed = false ∧ x.focusedWindow = none ∧ x.enteredWindow = none ∧
    received focus? 0 x.posted = [true] ∧ received enter? 0 x.posted = [true] ∧
    ∃ y, step x (.opacity 0 255) = some y ∧ received focus? 0 y.posted = [true,true] :=
  ⟨_,rfl,rfl,rfl,rfl,rfl,rfl,_,rfl,rfl⟩

end Runs

end DirectFB.WindowFocus
