import DirectFB.FontCache

/-! Which rows of glyphs are thrown out, and which glyphs stay while the manager is locked. -/
namespace DirectFB.FontLru
open FontCache Transition

def stampOf (x : State) (r : ℕ) : Option ℕ := (x.rows.lookup r).map CacheRow.stamp

def rowOf (x : State) (g : ℕ) : Option ℕ := (x.glyphs g).bind CoreGlyphData.row

def Listed (x : State) : Prop :=
  ∀ r row, x.rows.lookup r = some row → r ∈ x.cacheRows row.cache

structure SameRows (x y : State) : Prop where
  stamp : ∀ r, stampOf y r = stampOf x r
  listed : Listed x → Listed y
  rowStamp : y.rowStamp = x.rowStamp

section Rows

variable {x y z : State} {g r : ℕ} {d : CoreGlyphData} {row : CacheRow} {t : CacheType}

theorem SameRows.refl (x : State) : SameRows x x := ⟨fun _ => rfl,id,rfl⟩

theorem SameRows.trans (h : SameRows x y) (h' : SameRows y z) : SameRows x z :=
  ⟨fun r => (h'.stamp r).trans (h.stamp r),h'.listed ∘ h.listed,h'.rowStamp.trans h.rowStamp⟩

theorem SameRows.of_eq (hrows : y.rows = x.rows) (hlists : y.cacheRows = x.cacheRows)
    (hstamp : y.rowStamp = x.rowStamp) : SameRows x y :=
  ⟨fun r => by rw [stampOf,stampOf,hrows],fun h r row hr => by
    rw [hlists]
    exact h r row (hrows ▸ hr),hstamp⟩

theorem putRow_same {row' : CacheRow} (hr : x.rows.lookup r = some row)
    (hstamp : row'.stamp = row.stamp) (hcache : row'.cache = row.cache) :
    SameRows x (x.putRow r row') := by
  have hlookup : ∀ r', r' ≠ r → (x.putRow r row').rows.lookup r' = x.rows.lookup r' :=
    fun r' hne => AList.lookup_insert_ne hne
  refine ⟨fun r' => ?_,fun h r' row₁ hr' => ?_,rfl⟩
  · by_cases hne : r' = r
    · subst hne
      have hself : (x.putRow r' row').rows.lookup r' = some row' := AList.lookup_insert _
      rw [stampOf,stampOf,hself,hr,Option.map_some,Option.map_some,hstamp]
    · rw [stampOf,stampOf,hlookup r' hne]
  · by_cases hne : r' = r
    · subst hne
      cases (AList.lookup_insert x.rows).symm.trans hr'
      rw [hcache]
      exact h r' row hr
    · exact h r' row₁ ((hlookup r' hne).symm.trans hr')

theorem kickOut_same (x : State) (g : ℕ) : SameRows x (x.kickOut g) := by
  unfold State.kickOut
  cases x.glyphs g with
  | none => exact .of_eq rfl rfl rfl
  | some d => exact .of_eq rfl rfl rfl

theorem kickOuts_same (l : List ℕ) (x : State) : SameRows x (l.foldl State.kickOut x) := by
  induction l generalizing x with
  | nil => exact .refl x
  | cons g l ih => exact (kickOut_same x g).trans (ih (x.kickOut g))

theorem link_same (x : State) (g : ℕ) (r? : Option ℕ) : SameRows x (x.link g r?) := by
  cases r? with
  | none => exact .refl x
  | some r =>
    unfold State.link
    dsimp only
    cases hr : x.rows.lookup r with
    | none => exact .of_eq rfl rfl rfl
    | some row => exact putRow_same hr rfl rfl

theorem out_same (x : State) (g : ℕ) (d : CoreGlyphData) (r? : Option ℕ) :
    SameRows x (x.out g d r?) := by
  unfold State.out
  split_ifs
  · cases x.glyphs g with
    | none => exact .of_eq rfl rfl rfl
    | some d' => exact .of_eq rfl rfl rfl
  · exact (link_same x g r?).trans (.of_eq rfl rfl rfl)

theorem free_same (x : State) (g : ℕ) (d : CoreGlyphData) : SameRows x (x.free g d) := by
  unfold State.free
  split_ifs
  · exact .of_eq rfl rfl rfl
  · exact .of_eq rfl rfl rfl

theorem getCache_same (x : State) (t : CacheType) (o : Outcome) :
    SameRows x (x.getCache t o).1 := by
  unfold State.getCache
  split_ifs
  · exact .refl x
  · exact .refl x
  · exact .of_eq rfl rfl rfl

/-- A row that is used has the last stamp. -/
theorem touch_stamp (hr : x.rows.lookup r = some row) {row' : CacheRow}
    (hcache : row'.cache = row.cache) (r' : ℕ) :
    stampOf (x.touch r row') r' = (if r' = r then some x.rowStamp else stampOf x r') ∧
      (Listed x → Listed (x.touch r row')) := by
  have hlookup : ∀ r', r' ≠ r → (x.touch r row').rows.lookup r' = x.rows.lookup r' :=
    fun r' hne => AList.lookup_insert_ne hne
  have hself : (x.touch r row').rows.lookup r = some {row' with stamp := x.rowStamp} :=
    AList.lookup_insert _
  refine ⟨?_,fun h r' row₁ hr' => ?_⟩
  · by_cases hne : r' = r
    · rw [hne,stampOf,hself,if_pos rfl]
      rfl
    · rw [stampOf,stampOf,hlookup r' hne,if_neg hne]
  · by_cases hne : r' = r
    · subst hne
      cases hself.symm.trans hr'
      change r' ∈ x.cacheRows row'.cache
      rw [hcache]
      exact h r' row hr
    · exact h r' row₁ ((hlookup r' hne).symm.trans hr')

theorem foldl_lru {l : List ℕ} (hsmall : ∀ r s, stampOf x r = some s → s < 2^32) :
    ∀ c, (∀ q, c = some q → stampOf x q.1 = some q.2) → ∀ q, l.foldl x.lru c = some q →
      stampOf x q.1 = some q.2 ∧ (∀ q', c = some q' → q.2 ≤ q'.2) ∧
        ∀ r ∈ l, ∀ s, stampOf x r = some s → q.2 ≤ s := by
  induction l with
  | nil => exact fun c hc q hq => ⟨hc q hq,fun q' hq' => by
      cases hq.symm.trans hq'
      exact le_rfl,by simp⟩
  | cons r l ih =>
    intro c hc q hq
    cases hr : x.rows.lookup r with
    | none =>
      have hskip : x.lru c r = c := by simp [State.lru,hr]
      rw [List.foldl_cons,hskip] at hq
      obtain ⟨hstamp,hle,hall⟩ := ih c hc q hq
      refine ⟨hstamp,hle,fun r' hr' s hs => ?_⟩
      obtain rfl | hr' := List.mem_cons.mp hr'
      · simp [stampOf,hr] at hs
      · exact hall r' hr' s hs
    | some row =>
      have hrow : stampOf x r = some row.stamp := by simp [stampOf,hr]
      have hsmall' : row.stamp < 4294967296 := hsmall r _ hrow
      have hnext : x.lru c r = some (r,row.stamp) ∧ (∀ q', c = some q' → row.stamp ≤ q'.2) ∨
          x.lru c r = c ∧ ∃ q', c = some q' ∧ q'.2 ≤ row.stamp := by
        cases c with
        | none => exact Or.inl ⟨by simp [State.lru,hr,hsmall'],by simp⟩
        | some q' =>
          by_cases hlt : row.stamp < q'.2
          · exact Or.inl ⟨by simp [State.lru,hr,hsmall',hlt],by simpa using hlt.le⟩
          · exact Or.inr ⟨by simp [State.lru,hr,hlt],q',rfl,not_lt.mp hlt⟩
      rw [List.foldl_cons] at hq
      obtain ⟨hpick,hless⟩ | ⟨hkeep,q',hq',hge⟩ := hnext
      · rw [hpick] at hq
        obtain ⟨hstamp,hle,hall⟩ := ih _ (by rintro q ⟨⟩; exact hrow) q hq
        have hrow' := hle _ rfl
        refine ⟨hstamp,fun q' hq' => hrow'.trans (hless q' hq'),fun r' hr' s hs => ?_⟩
        obtain rfl | hr' := List.mem_cons.mp hr'
        · cases hrow.symm.trans hs
          exact hrow'
        · exact hall r' hr' s hs
      · rw [hkeep] at hq
        obtain ⟨hstamp,hle,hall⟩ := ih c hc q hq
        refine ⟨hstamp,hle,fun r' hr' s hs => ?_⟩
        obtain rfl | hr' := List.mem_cons.mp hr'
        · cases hrow.symm.trans hs
          exact (hle q' hq').trans hge
        · exact hall r' hr' s hs

end Rows

section Removal

variable {cfg : Config} {skip : GlyphKey → Prop} {x y z : State} {g r : ℕ} {d : CoreGlyphData}
  {row : CacheRow}

theorem findLruRow_least {order : Order CacheType} (h : Inv cfg skip x) (hlisted : Listed x)
    (hsmall : ∀ r s, stampOf x r = some s → s < 2^32) (hfind : x.findLruRow order = some r) :
    ∃ s, stampOf x r = some s ∧ ∀ r' s', stampOf x r' = some s' → s ≤ s' := by
  obtain ⟨⟨r₁,s⟩,hq,rfl⟩ := Option.map_eq_some_iff.mp hfind
  obtain ⟨hstamp,-,hall⟩ := foldl_lru hsmall none (by simp) _ hq
  refine ⟨s,hstamp,fun r' s' hs' => hall r' ?_ s' hs'⟩
  obtain ⟨row,hrow,-⟩ := Option.map_eq_some_iff.mp hs'
  have hmem := hlisted r' row hrow
  exact List.mem_flatMap.mpr ⟨row.cache,(order.perm _).mem_iff.mpr (h.caches _ _ hmem).1,hmem⟩

def GlyphsKept (x y : State) (gone : Option ℕ) : Prop :=
  ∀ g d, x.glyphs g = some d → (d.row.isSome = true → d.row ≠ gone) →
    ∃ d', y.glyphs g = some d' ∧ d'.key = d.key ∧ d'.row = d.row

theorem GlyphsKept.of_eq {gone : Option ℕ} (h : y.glyphs = x.glyphs) : GlyphsKept x y gone :=
  fun _ d hg _ => ⟨d,h ▸ hg,rfl,rfl⟩

theorem GlyphsKept.trans {gone : Option ℕ} (h : GlyphsKept x y gone) (h' : GlyphsKept y z none) :
    GlyphsKept x z gone := fun g d hg hrow => by
  obtain ⟨d',hd',hkey,hrow'⟩ := h g d hg hrow
  obtain ⟨d₂,hd₂,hkey₂,hrow₂⟩ := h' g d' hd' fun hsome hnone => by simp [hnone] at hsome
  exact ⟨d₂,hd₂,hkey₂.trans hkey,hrow₂.trans hrow'⟩

theorem kickOuts_glyphs {l : List ℕ} (hg : g ∉ l) :
    (l.foldl State.kickOut x).glyphs g = x.glyphs g := by
  induction l generalizing x with
  | nil => rfl
  | cons g' l ih =>
    rw [List.mem_cons,not_or] at hg
    rw [List.foldl_cons,ih hg.2]
    unfold State.kickOut
    cases x.glyphs g' with
    | none => rfl
    | some d => exact Function.update_of_ne hg.1 _ _

theorem destroyRow_effect (h : Inv cfg skip x) (hr : x.rows.lookup r = some row) :
    (∀ r', stampOf (x.destroyRow r row) r' = if r' = r then none else stampOf x r') ∧
      (Listed x → Listed (x.destroyRow r row)) ∧ (x.destroyRow r row).rowStamp = x.rowStamp ∧
        GlyphsKept x (x.destroyRow r row) (some r) := by
  have hsame := kickOuts_same row.glyphs x
  refine ⟨fun r' => ?_,fun hlisted r' row' hr' => ?_,hsame.rowStamp,fun g d hg hne => ?_⟩
  · split_ifs with hne
    · subst hne
      have hnone : (x.destroyRow r' row).rows.lookup r' = none := AList.lookup_erase r' _
      simp [stampOf,hnone]
    · have hold : (x.destroyRow r row).rows.lookup r' =
          (row.glyphs.foldl State.kickOut x).rows.lookup r' := AList.lookup_erase_ne hne
      rw [← hsame.stamp r',stampOf,stampOf,hold]
  · have hne : r' ≠ r := by
      rintro rfl
      cases (AList.lookup_erase r' _).symm.trans hr'
    have hmem := hsame.listed hlisted r' row' ((AList.lookup_erase_ne hne).symm.trans hr')
    change r' ∈ Function.update (row.glyphs.foldl State.kickOut x).cacheRows row.cache _ row'.cache
    by_cases hcache : row'.cache = row.cache
    · rw [hcache,Function.update_self]
      exact (List.mem_erase_of_ne hne).mpr (hcache ▸ hmem)
    · rwa [Function.update_of_ne hcache]
  · refine ⟨d,(kickOuts_glyphs fun hmem => ?_).trans hg,rfl,rfl⟩
    obtain ⟨d',hd',hrow,-⟩ := (h.row r row hr).live g hmem
    cases hg.symm.trans hd'
    exact hne (by simp [hrow]) hrow

end Removal

structure Effect (x y : State) (gone top : Option ℕ) : Prop where
  stamp : ∀ r, top ≠ some r → stampOf y r = if gone = some r then none else stampOf x r
  listed : Listed x → Listed y
  rowStamp : x.rowStamp ≤ y.rowStamp
  glyphs : GlyphsKept x y gone

def Fresh (x y : State) (r : ℕ) : Prop :=
  ∃ s, stampOf y r = some s ∧ x.rowStamp ≤ s ∧ s < y.rowStamp

section Effects

variable {cfg : Config} {skip : GlyphKey → Prop} {x y z : State} {g r : ℕ} {d d' : CoreGlyphData}
  {row : CacheRow} {t : CacheType} {width : ℕ} {o : Outcome} {gone top : Option ℕ}

theorem SameRows.effect (h : SameRows x y) (hglyphs : GlyphsKept x y none) : Effect x y none top :=
  ⟨fun r _ => by rw [h.stamp r,if_neg (by simp)],h.listed,h.rowStamp.ge,hglyphs⟩

theorem Effect.trans (h : Effect x y gone top) (h' : Effect y z none top) : Effect x z gone top :=
  ⟨fun r hr => by rw [h'.stamp r hr,if_neg (by simp),h.stamp r hr],h'.listed ∘ h.listed,
    h.rowStamp.trans h'.rowStamp,h.glyphs.trans h'.glyphs⟩

theorem Effect.after (h' : Effect y z gone top) (h : SameRows x y) (hglyphs : y.glyphs = x.glyphs) :
    Effect x z gone top :=
  ⟨fun r hr => by rw [h'.stamp r hr,h.stamp r],h'.listed ∘ h.listed,h.rowStamp ▸ h'.rowStamp,
    fun g d hg => h'.glyphs g d (hglyphs ▸ hg)⟩

theorem GlyphsKept.update (h : y.glyphs = Function.update x.glyphs g (some d'))
    (hsame : ∀ d, x.glyphs g = some d → d'.key = d.key ∧ d'.row = d.row) :
    GlyphsKept x y none := fun g' d hg' _ => by
  rw [h]
  by_cases hne : g' = g
  · subst hne
    exact ⟨d',Function.update_self ..,hsame d hg'⟩
  · exact ⟨d,(Function.update_of_ne hne ..).trans hg',rfl,rfl⟩

theorem link_glyphs (x : State) (g : ℕ) (r? : Option ℕ) : (x.link g r?).glyphs = x.glyphs := by
  cases r? with
  | none => rfl
  | some r =>
    unfold State.link
    dsimp only
    cases x.rows.lookup r <;> rfl

theorem out_glyphs (r? : Option ℕ) (hlive : d.inserted = true → ∃ d', x.glyphs g = some d') :
    ∃ d', (x.out g d r?).glyphs = Function.update x.glyphs g (some d') ∧ d'.key = d.key ∧
      d'.row = d.row := by
  unfold State.out
  split_ifs with hinserted
  · obtain ⟨d',hg⟩ := hlive hinserted
    rw [hg]
    exact ⟨d,rfl,rfl,rfl⟩
  · refine ⟨d.insert,?_,rfl,rfl⟩
    change Function.update (x.link g r?).glyphs g _ = _
    rw [link_glyphs]

/-- A glyph gets its pixels in a row, and the row gets the next stamp. -/
theorem render_effect (cfg : Config) (o : Outcome) (hr : x.rows.lookup r = some row)
    (hwrap : x.rowStamp+1 < 2^64)
    (hlive : d.inserted = true → ∃ d', x.glyphs g = some d')
    (hsame : ∀ d', x.glyphs g = some d' → d.key = d'.key ∧ d'.row = some r) :
    Effect x (x.render cfg g d r o) none (some r) ∧ Fresh x (x.render cfg g d r o) r ∧
      ∃ d', (x.render cfg g d r o).glyphs g = some d' ∧ d'.key = d.key ∧ d'.row = some r := by
  have hput : ∀ row' d₁, row'.cache = row.cache → d₁.key = d.key → d₁.row = some r →
      d₁.inserted = d.inserted → Effect x ((x.touch r row').out g d₁ (some r)) none (some r) ∧
        Fresh x ((x.touch r row').out g d₁ (some r)) r ∧
          ∃ d', ((x.touch r row').out g d₁ (some r)).glyphs g = some d' ∧ d'.key = d.key ∧
            d'.row = some r := by
    intro row' d₁ hcache hkey hrow hinserted
    obtain ⟨hstamp,hlisted⟩ : (∀ r', stampOf (x.touch r row') r' = _) ∧ _ :=
      ⟨fun r' => (touch_stamp hr hcache r').1,(touch_stamp hr hcache r).2⟩
    have hnext : (x.touch r row').rowStamp = x.rowStamp+1 := Nat.mod_eq_of_lt hwrap
    have hsame' := out_same (x.touch r row') g d₁ (some r)
    obtain ⟨d₂,hglyphs,hkey₂,hrow₂⟩ := out_glyphs (x := x.touch r row') (some r)
      (d := d₁) (g := g) (fun h => hlive (hinserted.symm.trans h))
    refine ⟨⟨fun r' hne => ?_,hsame'.listed ∘ hlisted,?_,.update hglyphs fun d' hg => ?_⟩,
      ⟨x.rowStamp,?_,le_rfl,?_⟩,d₂,?_,hkey₂.trans hkey,hrow₂.trans hrow⟩
    · rw [hsame'.stamp,hstamp,if_neg fun h => hne (congrArg some h.symm),if_neg (by simp)]
    · rw [hsame'.rowStamp,hnext]
      exact Nat.le_succ _
    · obtain ⟨hkey',hrow'⟩ := hsame d' hg
      exact ⟨(hkey₂.trans hkey).trans hkey',(hrow₂.trans hrow).trans hrow'.symm⟩
    · rw [hsame'.stamp,hstamp,if_pos rfl]
    · rw [hsame'.rowStamp,hnext]
      exact Nat.lt_succ_self _
    · rw [hglyphs,Function.update_self]
  unfold State.render
  rw [hr]
  dsimp only
  split_ifs
  · exact hput _ _ rfl rfl rfl rfl
  · exact hput _ _ rfl rfl rfl rfl

/-- A glyph that is loaded again stays in its row, which gets the next stamp if the glyph gets
pixels. -/
theorem load_again_effect (h : Inv cfg skip x) (hg : x.glyphs g = some d)
    (hwrap : x.rowStamp+1 < 2^64)
    (hagain : o.glyph = .ok → 1 ≤ o.width → 1 ≤ o.height → ∃ r, d.row = some r ∧
      x.findRow cfg ((cfg.fonts d.key.font).cacheType o.width.toNat o.height.toNat)
        o.width.toNat = some r) :
    Effect x (x.load cfg g d o).1 none d.row ∧ (x.load cfg g d o).2 = .ok g ∧
      (∃ d', (x.load cfg g d o).1.glyphs g = some d' ∧ d'.key = d.key ∧ d'.row = d.row) ∧
        ((o.glyph ≠ .ok ∨ o.width < 1 ∨ o.height < 1) ∧ SameRows x (x.load cfg g d o).1 ∨
          ∀ r, d.row = some r → Fresh x (x.load cfg g d o).1 r) := by
  have hclear : ∀ retry, Effect x (x.out g (d.clear retry) none) none d.row ∧
      ∃ d', (x.out g (d.clear retry) none).glyphs g = some d' ∧ d'.key = d.key ∧
        d'.row = d.row := by
    intro retry
    obtain ⟨d₂,hglyphs,hkey,hrow⟩ := out_glyphs (x := x) (g := g) (d := d.clear retry) none
      fun _ => ⟨d,hg⟩
    refine ⟨(out_same x g _ none).effect (.update hglyphs fun d' hg' => ?_),d₂,?_,hkey,hrow⟩
    · cases hg.symm.trans hg'
      exact ⟨hkey,hrow⟩
    · rw [hglyphs,Function.update_self]
  unfold State.load
  split_ifs with hglyph hsize
  · exact ⟨(hclear _).1,rfl,(hclear _).2,Or.inl ⟨Or.inl hglyph,out_same ..⟩⟩
  · exact ⟨(hclear _).1,rfl,(hclear _).2,Or.inl ⟨Or.inr hsize,out_same ..⟩⟩
  obtain ⟨r,hd,hfind⟩ := hagain (not_not.mp hglyph) (by omega) (by omega)
  dsimp only
  generalize (cfg.fonts d.key.font).cacheType o.width.toNat o.height.toNat = t at hfind ⊢
  obtain ⟨hmem,row,hr,hfit⟩ := findRow_fits hfind
  have hcache : x.getCache t o = (x,.ok) := if_pos (h.caches t r hmem).1
  have hrow : x.getRow cfg t o.width.toNat o = (x,.ok r) := by
    unfold State.getRow
    rw [hfind]
  rw [hcache,if_neg (not_not_intro rfl),hrow,hd]
  obtain ⟨heffect,hfresh,d',hd',hkey,hrow'⟩ := render_effect cfg o hr hwrap
    (fun _ => ⟨d,hg⟩) fun d' hg' => by
      cases hg.symm.trans hg'
      exact ⟨rfl,hd⟩
  exact ⟨heffect,rfl,⟨d',hd',hkey,hrow'⟩,Or.inr fun r' hr' => Option.some.inj hr' ▸ hfresh⟩

theorem createRow_effect (x : State) (t : CacheType) :
    Effect x (x.createRow cfg t) none (some x.nextRow) := by
  have hlookup : ∀ r', r' ≠ x.nextRow → (x.createRow cfg t).rows.lookup r' = x.rows.lookup r' :=
    fun r' hne => AList.lookup_insert_ne hne
  have hself : (x.createRow cfg t).rows.lookup x.nextRow = some ⟨t,0,rowWidth cfg t,0,[]⟩ :=
    AList.lookup_insert _
  refine ⟨fun r' hne => ?_,fun h r' row' hr' => ?_,le_rfl,.of_eq rfl⟩
  · rw [if_neg (by simp),stampOf,stampOf,hlookup r' fun h => hne (congrArg some h.symm)]
  · change r' ∈ Function.update x.cacheRows t (x.nextRow :: x.cacheRows t) row'.cache
    by_cases hne : r' = x.nextRow
    · subst hne
      cases hself.symm.trans hr'
      rw [Function.update_self]
      exact List.mem_cons_self
    · have hmem := h r' row' ((hlookup r' hne).symm.trans hr')
      by_cases hcache : row'.cache = t
      · rw [hcache,Function.update_self]
        exact List.mem_cons_of_mem _ (hcache ▸ hmem)
      · rwa [Function.update_of_ne hcache]

def Least (x : State) (r : ℕ) : Prop :=
  (∀ r s, stampOf x r = some s → s < 2^32) →
    ∃ s, stampOf x r = some s ∧ ∀ r' s', stampOf x r' = some s' → s ≤ s'

theorem getRow_rowStamp (cfg : Config) (x : State) (t : CacheType) (width : ℕ) (o : Outcome) :
    (x.getRow cfg t width o).1.rowStamp = x.rowStamp := by
  have hremove : (x.removeLruRow o.caches).1.rowStamp = x.rowStamp := by
    unfold State.removeLruRow
    cases x.findLruRow o.caches with
    | none => rfl
    | some r =>
      dsimp only
      cases x.rows.lookup r with
      | none => rfl
      | some row => exact (kickOuts_same row.glyphs x).rowStamp
  unfold State.getRow
  cases x.findRow cfg t width with
  | some r => rfl
  | none =>
    dsimp only
    split_ifs
    · exact hremove
    · exact hremove
    · exact hremove
    · rfl
    · rfl
    · rfl

theorem getRow_effect (h : Inv cfg skip x) (hlisted : Listed x) (t : CacheType) (width : ℕ)
    (o : Outcome) :
    ∃ gone, Effect x (x.getRow cfg t width o).1 gone (x.getRow cfg t width o).2.toOption ∧
      ∀ r, gone = some r → x.findRow cfg t width = none ∧ x.numRows = cfg.maxRows ∧ Least x r := by
  unfold State.getRow
  cases hfind : x.findRow cfg t width with
  | some r => exact ⟨none,(SameRows.refl x).effect (.of_eq rfl),by simp⟩
  | none =>
    have hmade : ∀ (y : State × DirectResult) (gone : Option ℕ) (z : State × Except DirectResult ℕ),
        Effect x y.1 gone none → (if y.2 ≠ .ok then (y.1,.error y.2)
          else if o.row ≠ .ok then (y.1,.error o.row)
          else (y.1.createRow cfg t,.ok y.1.nextRow)) = z → Effect x z.1 gone z.2.toOption := by
      rintro y gone z hy rfl
      split_ifs
      · exact hy
      · exact hy
      · exact Effect.trans ⟨fun r _ => hy.stamp r (by simp),hy.listed,hy.rowStamp,hy.glyphs⟩
          (createRow_effect y.1 t)
    dsimp only
    by_cases hmax : x.numRows = cfg.maxRows
    · rw [if_pos hmax]
      cases hlru : x.findLruRow o.caches with
      | none =>
        have hnone : x.removeLruRow o.caches = (x,.itemNotFound) := by
          unfold State.removeLruRow
          rw [hlru]
        rw [hnone]
        exact ⟨none,hmade _ none _ ((SameRows.refl x).effect (.of_eq rfl)) rfl,by simp⟩
      | some r =>
        obtain ⟨row,hr⟩ := findLruRow_live hlru
        have hremove : x.removeLruRow o.caches = (x.destroyRow r row,.ok) := by
          unfold State.removeLruRow
          rw [hlru]
          dsimp only
          rw [hr]
        rw [hremove]
        obtain ⟨hstamp,hlisted',hnext,hglyphs⟩ := destroyRow_effect h hr
        refine ⟨some r,hmade _ _ _ ⟨fun r' _ => ?_,hlisted',hnext.ge,hglyphs⟩ rfl,fun r' hr' => ?_⟩
        · simp only [hstamp r',Option.some.injEq,eq_comm]
        · obtain rfl := Option.some.inj hr'
          exact ⟨rfl,hmax,fun hsmall => findLruRow_least h hlisted hsmall hlru⟩
    · rw [if_neg hmax]
      exact ⟨none,hmade _ none _ ((SameRows.refl x).effect (.of_eq rfl)) rfl,by simp⟩

theorem getCache_eq (x : State) (t : CacheType) (o : Outcome) :
    (∃ caches, (x.getCache t o).1 = {x with caches}) ∧
      ((x.getCache t o).2 = .ok → t ∈ x.caches ∨ o.cache = .ok) := by
  unfold State.getCache
  split_ifs with hmem hret
  · exact ⟨⟨x.caches,rfl⟩,fun _ => .inl hmem⟩
  · exact ⟨⟨x.caches,rfl⟩,.inr⟩
  · exact ⟨⟨_,rfl⟩,fun _ => .inr (not_not.mp hret)⟩

structure Evicts (cfg : Config) (x : State) (k : GlyphKey) (o : Outcome) : Prop where
  font : (cfg.fonts k.font).getGlyphData = true
  hash : x.hash.lookup k = none
  glyph : o.glyph = .ok
  width : 1 ≤ o.width
  height : 1 ≤ o.height
  cache : (cfg.fonts k.font).cacheType o.width.toNat o.height.toNat ∈ x.caches ∨ o.cache = .ok
  row : x.findRow cfg ((cfg.fonts k.font).cacheType o.width.toNat o.height.toNat)
    o.width.toNat = none
  full : x.numRows = cfg.maxRows

/-- A glyph that was just allocated is loaded, and its row gets a stamp, if it is not freed. -/
theorem load_new_effect (h : Inv cfg skip x) (hlisted : Listed x) (hfresh : x.glyphs g = none)
    (hwrap : x.rowStamp+1 < 2^64) {k : GlyphKey} (hkey : x.hash.lookup k = none)
    (hfont : (cfg.fonts k.font).getGlyphData = true) :
    ∃ gone top, Effect x (x.load cfg g (newGlyph k) o).1 gone top ∧
      (∀ r, gone = some r → Evicts cfg x k o ∧ Least x r) ∧
      (∀ r, top = some r → Fresh x (x.load cfg g (newGlyph k) o).1 r) ∧
      (∀ e, (x.load cfg g (newGlyph k) o).2 = .error e → top = none) ∧
      ∀ g', (x.load cfg g (newGlyph k) o).2 = .ok g' →
        ∃ d, (x.load cfg g (newGlyph k) o).1.glyphs g' = some d ∧ d.key = k ∧ d.row = top := by
  have hclear : ∀ retry, Effect x (x.out g ((newGlyph k).clear retry) none) none none ∧
      ∃ d, (x.out g ((newGlyph k).clear retry) none).glyphs g = some d ∧ d.key = k ∧
        d.row = none := by
    intro retry
    obtain ⟨d₂,hglyphs,hkey₂,hrow⟩ := out_glyphs (x := x) (g := g)
      (d := (newGlyph k).clear retry) none fun h => by cases h
    refine ⟨(out_same x g _ none).effect (.update hglyphs fun d' hg' => ?_),d₂,?_,hkey₂,hrow⟩
    · cases hfresh.symm.trans hg'
    · rw [hglyphs,Function.update_self]
  have hfree : ∀ y : State, y.glyphs g = none → Effect y (y.free g (newGlyph k)) none none := by
    intro y hy
    refine (free_same y g (newGlyph k)).effect (.of_eq ?_)
    unfold State.free
    rw [if_neg fun hand => by cases hand.1]
    exact (congrArg (Function.update y.glyphs g) hy.symm).trans (Function.update_eq_self g _)
  unfold State.load
  split_ifs with hglyph hsize
  · obtain ⟨heffect,d,hd⟩ := hclear (o.glyph = .bufferEmpty)
    exact ⟨none,none,heffect,by simp,by simp,by simp,fun g' hg' => by
      cases hg'
      exact ⟨d,hd⟩⟩
  · obtain ⟨heffect,d,hd⟩ := hclear false
    exact ⟨none,none,heffect,by simp,by simp,by simp,fun g' hg' => by
      cases hg'
      exact ⟨d,hd⟩⟩
  dsimp only
  rw [show (newGlyph k).key = k from rfl]
  generalize ht : (cfg.fonts k.font).cacheType o.width.toNat o.height.toNat = t
  obtain ⟨hcache,hfewer,hmem⟩ := h.getCache t o
  obtain ⟨⟨caches,heq⟩,hok⟩ := getCache_eq x t o
  have hsame := getCache_same x t o
  generalize x.getCache t o = y at hcache hfewer hmem heq hok hsame ⊢
  have hfirst : Effect x y.1 none none := hsame.effect (.of_eq (by rw [heq]))
  split_ifs with hret
  · exact ⟨none,none,hfirst.trans (hfree y.1 (hfewer.glyphs g hfresh)),by simp,by simp,by simp,
      by simp⟩
  obtain ⟨gone,hrow,hgone⟩ := getRow_effect hcache (hsame.listed hlisted) t o.width.toNat o
  have hwidth : o.width.toNat ≤ rowWidth cfg t :=
    (ht ▸ width_le_height _ _ o.height.toNat).trans (height_le_rowWidth cfg t)
  have hfewer' := hcache.getRow (o := o) (hmem (not_not.mp hret)) hwidth
  have hevicts : ∀ r, gone = some r → Evicts cfg x k o ∧ Least x r := by
    intro r hr
    obtain ⟨hfind,hfull,hleast⟩ := hgone r hr
    have hstamps : stampOf y.1 = stampOf x := funext hsame.stamp
    have hsize' : 1 ≤ o.width ∧ 1 ≤ o.height := by omega
    unfold Least at hleast
    rw [hstamps] at hleast
    rw [heq] at hfind hfull
    exact ⟨⟨hfont,hkey,not_not.mp hglyph,hsize'.1,hsize'.2,ht ▸ hok (not_not.mp hret),ht ▸ hfind,
      hfull⟩,hleast⟩
  have hnext : (y.1.getRow cfg t o.width.toNat o).1.rowStamp = x.rowStamp :=
    (getRow_rowStamp ..).trans hsame.rowStamp
  generalize y.1.getRow cfg t o.width.toNat o = z at hrow hfewer' hnext ⊢
  obtain ⟨-,hless,hfit⟩ := hfewer'
  have hnone := hless.glyphs g (hfewer.glyphs g hfresh)
  have hrow' := hrow.after hsame (by rw [heq])
  cases hz : z.2 with
  | error e =>
    rw [hz] at hrow'
    exact ⟨gone,none,hrow'.trans (hfree z.1 hnone),hevicts,by simp,by simp,by simp⟩
  | ok r =>
    rw [hz] at hrow'
    obtain ⟨row,hr,-⟩ := hfit r hz
    obtain ⟨heffect,⟨s,hs,hge,hlt⟩,d,hd,hdkey,hdrow⟩ := render_effect cfg o
      (d := newGlyph k) hr (hnext ▸ hwrap) (fun h => by cases h) fun d hd => by
        cases hnone.symm.trans hd
    refine ⟨gone,some r,hrow'.trans heffect,hevicts,fun r' hr' => ?_,by simp,fun g' hg' => ?_⟩
    · obtain rfl := Option.some.inj hr'
      exact ⟨s,hs,hnext ▸ hge,hlt⟩
    · cases hg'
      exact ⟨d,hd,hdkey,hdrow⟩

theorem touchRow_effect (h : Inv cfg skip x) (hg : x.glyphs g = some d)
    (hwrap : x.rowStamp+1 < 2^64) :
    Effect x (x.touchRow d.row) none d.row ∧ (∀ r, d.row = some r → Fresh x (x.touchRow d.row) r) ∧
        (x.touchRow d.row).rowStamp ≤ x.rowStamp+1 := by
  cases hd : d.row with
  | none => exact ⟨(SameRows.refl x).effect (.of_eq rfl),by simp,Nat.le_succ _⟩
  | some r =>
    obtain ⟨row,hr,-⟩ := h.linked g d r hg hd
    have htouch : x.touchRow (some r) = x.touch r row := by
      unfold State.touchRow
      dsimp only
      rw [hr]
    have hnext : (x.touch r row).rowStamp = x.rowStamp+1 := Nat.mod_eq_of_lt hwrap
    rw [htouch]
    refine ⟨⟨fun r' hne => ?_,(touch_stamp hr rfl r).2,by omega,.of_eq rfl⟩,fun r' hr' => ?_,
      hnext.le⟩
    · rw [(touch_stamp hr rfl r').1,if_neg fun h => hne (congrArg some h.symm),if_neg (by simp)]
    · obtain rfl := Option.some.inj hr'
      exact ⟨x.rowStamp,by rw [(touch_stamp hr rfl r).1,if_pos rfl],le_rfl,by omega⟩

end Effects

/-- The stamps of all rows are less than the next, and are in the lists of their caches. -/
structure Stamped (cfg : Config) (x : State) : Prop where
  whole : Whole cfg x
  listed : Listed x
  below : ∀ r s, stampOf x r = some s → s < x.rowStamp

def Latest (x : State) (r : ℕ) : Prop :=
  ∃ s, stampOf x r = some s ∧ ∀ r' s', r' ≠ r → stampOf x r' = some s' → s' < s

def Skips (x : State) (k : GlyphKey) (o : Outcome) (r : ℕ) : Prop :=
  k.index < 128 ∧ ∃ g d, x.quick k = some g ∧ x.glyphs g = some d ∧ d.row = some r ∧
    (d.retry = false ∨ o.glyph ≠ .ok ∨ o.width < 1 ∨ o.height < 1)

/-- A lookup keeps a glyph that is tried again in its row, has stamps left, takes glyphs from the
quick array only from the row with the latest stamp, and throws out rows only while the stamps have
32 bits. -/
structure Meets (cfg : Config) (x : State) (k : GlyphKey) (o : Outcome) : Prop where
  kept : Kept cfg x (.getGlyphData k o)
  stamps : x.rowStamp+2 < 2^64
  latest : ∀ r, Skips x k o r → Latest x r
  small : Evicts cfg x k o → ∀ r s, stampOf x r = some s → s < 2^32

/-- What a lookup does: where a row goes it had the least stamp, and the row of the glyph that is
returned has the latest stamp. -/
structure Looked (cfg : Config) (x : State) (k : GlyphKey) (y : State × Except DirectResult ℕ)
    (gone top : Option ℕ) : Prop where
  stamped : Stamped cfg y.1
  effect : Effect x y.1 gone top
  least : ∀ r, gone = some r → ∃ s, stampOf x r = some s ∧ ∀ r' s', stampOf x r' = some s' → s ≤ s'
  latest : ∀ r, top = some r → Latest y.1 r
  error : ∀ e, y.2 = .error e → top = none
  ok : ∀ g, y.2 = .ok g → ∃ d, y.1.glyphs g = some d ∧ d.key = k ∧ d.row = top
  full : gone.isSome = true → x.numRows = cfg.maxRows

section Lookup

variable {cfg : Config} {x y : State} {k : GlyphKey} {o : Outcome} {gone top : Option ℕ}

theorem Effect.below (h : Effect x y gone top) (hx : Stamped cfg x)
    (hfresh : ∀ r, top = some r → Fresh x y r ∨ stampOf y r = stampOf x r) (r s : ℕ)
    (hs : stampOf y r = some s) : s < y.rowStamp := by
  by_cases htop : top = some r
  · obtain ⟨s',hs',-,hlt⟩ | hsame := hfresh r htop
    · cases hs.symm.trans hs'
      exact hlt
    · exact (hx.below r s (hsame.symm.trans hs)).trans_le h.rowStamp
  · rw [h.stamp r htop] at hs
    split_ifs at hs
    exact (hx.below r s hs).trans_le h.rowStamp

theorem Effect.latest (h : Effect x y gone top) (hx : Stamped cfg x) {r : ℕ} (htop : top = some r)
    (hfresh : Fresh x y r) : Latest y r := by
  obtain ⟨s,hs,hge,-⟩ := hfresh
  refine ⟨s,hs,fun r' s' hne hs' => ?_⟩
  rw [h.stamp r' (by rw [htop]; simpa using hne.symm)] at hs'
  split_ifs at hs'
  exact (hx.below r' s' hs').trans_le hge

theorem Effect.looked {y : State × Except DirectResult ℕ} (h : Effect x y.1 gone top)
    (hx : Stamped cfg x) (hmeets : Meets cfg x k o) (hwhole : Whole cfg y.1)
    (hgone : ∀ r, gone = some r → Evicts cfg x k o ∧ Least x r)
    (htop : ∀ r, top = some r → Fresh x y.1 r ∨ Skips x k o r ∧ SameRows x y.1)
    (herror : ∀ e, y.2 = .error e → top = none)
    (hok : ∀ g, y.2 = .ok g → ∃ d, y.1.glyphs g = some d ∧ d.key = k ∧ d.row = top) :
    Looked cfg x k y gone top := by
  refine ⟨⟨hwhole,h.listed hx.listed,h.below hx fun r hr => ?_⟩,h,fun r hr => ?_,fun r hr => ?_,
    herror,hok,fun hsome => ?_⟩
  · exact (htop r hr).imp_right fun h => h.2.stamp r
  · obtain ⟨hevicts,hleast⟩ := hgone r hr
    exact hleast (hmeets.small hevicts)
  · obtain hfresh | ⟨hskips,hsame⟩ := htop r hr
    · exact h.latest hx hr hfresh
    · obtain ⟨s,hs,hlate⟩ := hmeets.latest r hskips
      refine ⟨s,(hsame.stamp r).trans hs,fun r' s' hne hs' => hlate r' s' hne ?_⟩
      exact (hsame.stamp r').symm.trans hs'
  · obtain ⟨r,hr⟩ := Option.isSome_iff_exists.mp hsome
    exact (hgone r hr).1.full

theorem getGlyphData_looked (hx : Stamped cfg x) (hmeets : Meets cfg x k o) :
    ∃ gone top, Looked cfg x k (x.getGlyphData cfg k o) gone top := by
  have hwhole := hx.whole.getGlyphData hmeets.kept
  have hwrap : x.rowStamp+1 < 2^64 := (Nat.lt_succ_self _).trans hmeets.stamps
  unfold State.getGlyphData at hwhole ⊢
  cases hquick : if k.index < 128 then x.quick k else none with
  | some g =>
    have hsmall : k.index < 128 ∧ x.quick k = some g := by
      split_ifs at hquick with hlt
      exact ⟨hlt,hquick⟩
    have hlookup := hx.whole.quick k g not_false hsmall.2
    obtain ⟨d,hg,rfl⟩ := hx.whole.hash k g hlookup
    simp only [hquick,hg] at hwhole ⊢
    by_cases hretry : d.retry = true
    · rw [if_pos hretry] at hwhole ⊢
      obtain ⟨heffect,hret,hd,hrow⟩ := load_again_effect hx.whole hg hwrap
        (hmeets.kept g d hlookup hg hretry)
      refine ⟨none,d.row,heffect.looked hx hmeets hwhole (by simp) (fun r hr => ?_)
        (by simp [hret]) fun g' hg' => ?_⟩
      · exact (hrow.symm.imp (fun h => h r hr) fun h =>
          ⟨⟨hsmall.1,g,d,hsmall.2,hg,hr,.inr h.1⟩,h.2⟩)
      · cases hret.symm.trans hg'
        exact hd
    · rw [if_neg hretry] at hwhole ⊢
      have hsame : Effect x x none d.row := (SameRows.refl x).effect (.of_eq rfl)
      refine ⟨none,d.row,hsame.looked hx hmeets hwhole (by simp) (fun r hr => ?_) (by simp)
        fun g' hg' => ?_⟩
      · exact Or.inr ⟨⟨hsmall.1,g,d,hsmall.2,hg,hr,.inl (Bool.not_eq_true _ ▸ hretry)⟩,.refl x⟩
      · cases hg'
        exact ⟨d,hg,rfl,rfl⟩
  | none =>
    cases hlookup : x.hash.lookup k with
    | some g =>
      obtain ⟨d,hg,rfl⟩ := hx.whole.hash k g hlookup
      obtain ⟨htouch,hglyphs,hfind⟩ := Inv.touchRow hx.whole hg
      obtain ⟨heffect,hfresh,hnext⟩ := touchRow_effect hx.whole hg hwrap
      have hg' := (congrFun hglyphs g).trans hg
      simp only [hquick,hlookup,hg] at hwhole ⊢
      by_cases hretry : d.retry = true
      · rw [if_pos hretry] at hwhole ⊢
        obtain ⟨heffect',hret,hd,hrow⟩ := load_again_effect htouch hg'
          (by have := hmeets.stamps; omega) fun hok hwidth hheight => by
            rw [hfind]
            exact hmeets.kept g d hlookup hg hretry hok hwidth hheight
        refine ⟨none,d.row,(heffect.trans heffect').looked hx hmeets hwhole (by simp)
          (fun r hr => .inl ?_) (by simp [hret]) fun g₂ hg₂ => ?_⟩
        · obtain ⟨-,hsame⟩ | hagain := hrow
          · obtain ⟨s,hs,hge,hlt⟩ := hfresh r hr
            exact ⟨s,(hsame.stamp r).trans hs,hge,hsame.rowStamp ▸ hlt⟩
          · obtain ⟨s,hs,hge,hlt⟩ := hagain r hr
            exact ⟨s,hs,heffect.rowStamp.trans hge,hlt⟩
        · cases hret.symm.trans hg₂
          exact hd
      · rw [if_neg hretry] at hwhole ⊢
        refine ⟨none,d.row,heffect.looked hx hmeets hwhole (by simp)
          (fun r hr => .inl (hfresh r hr)) (by simp) fun g₂ hg₂ => ?_⟩
        cases hg₂
        exact ⟨d,hg',rfl,rfl⟩
    | none =>
      simp only [hquick,hlookup] at hwhole ⊢
      by_cases hfont : (cfg.fonts k.font).getGlyphData = false
      · rw [if_pos hfont] at hwhole ⊢
        exact ⟨none,none,((SameRows.refl x).effect (.of_eq rfl)).looked hx hmeets hwhole (by simp)
          (by simp) (by simp) (by simp)⟩
      · rw [if_neg hfont] at hwhole ⊢
        have hnext : Inv cfg (fun _ => False) {x with nextGlyph := x.nextGlyph+1} :=
          {hx.whole with freshGlyph := fun g hg => hx.whole.freshGlyph g (Nat.le_of_succ_le hg)}
        obtain ⟨gone,top,heffect,hgone,htop,herror,hok⟩ := load_new_effect (o := o) hnext hx.listed
          (hx.whole.freshGlyph _ le_rfl) hwrap hlookup (Bool.not_eq_false _ ▸ hfont)
        have hsame : SameRows x {x with nextGlyph := x.nextGlyph+1} := .of_eq rfl rfl rfl
        refine ⟨gone,top,(heffect.after hsame rfl).looked hx hmeets hwhole (fun r hr => ?_)
          (fun r hr => .inl (htop r hr)) herror hok⟩
        obtain ⟨⟨hfont,hhash,hglyph,hwidth,hheight,hcache,hrow,hfull⟩,hleast⟩ := hgone r hr
        exact ⟨⟨hfont,hhash,hglyph,hwidth,hheight,hcache,hrow,hfull⟩,hleast⟩

end Lookup

/-- A manager that is watched: how many lookups there were, at which of them a glyph of a row was
last returned, after how many of them the manager was locked, and what was returned at which. -/
structure Watch where
  state : State
  now : ℕ
  used : ℕ → ℕ
  locks : List ℕ
  returned : List (ℕ × GlyphKey × ℕ)

def lookedRow (y : State × Except DirectResult ℕ) : Option ℕ := y.2.toOption.bind (rowOf y.1)

/-- `dfb_font_get_glyph_data` -/
def Watch.lookup (cfg : Config) (w : Watch) (k : GlyphKey) (o : Outcome) : Watch :=
  let y := w.state.getGlyphData cfg k o
  {w with
    state := y.1
    now := w.now+1
    used := fun r => if lookedRow y = some r then w.now+1 else w.used r
    returned := (y.2.toOption.map fun g => (w.now+1,k,g)).toList ++ w.returned}

inductive Event
  | lock
  | unlock
  | lookup (k : GlyphKey) (o : Outcome)

/-- `dfb_font_manager_lock` and `dfb_font_manager_unlock` change nothing of the caches. -/
def step (cfg : Config) (w : Watch) : Event → Option Watch
  | .lock => some {w with locks := w.now :: w.locks}
  | .unlock =>
    match w.locks with
    | [] => none
    | _::locks => some {w with locks}
  | .lookup k o => some (w.lookup cfg k o)

def start : Watch := ⟨init,0,fun _ => 0,[],[]⟩

def Allowed (cfg : Config) (w : Watch) : Event → Prop
  | .lock => True
  | .unlock => True
  | .lookup k o => Meets cfg w.state k o

def Few (cfg : Config) (w : Watch) (t : ℕ) : Prop :=
  ∃ rows : Finset ℕ, rows.card < cfg.maxRows ∧ ∀ r, t < w.used r → r ∈ rows

/-- The rows have stamps in the order in which they were used, and while few rows are used the
glyphs that were returned are live, in rows that were used since. -/
structure Sound (cfg : Config) (w : Watch) : Prop where
  stamped : Stamped cfg w.state
  used : ∀ r, w.used r ≤ w.now
  order : ∀ r r' s s', stampOf w.state r = some s → stampOf w.state r' = some s' → s ≤ s' →
    w.used r ≤ w.used r'
  valid : ∀ t, Few cfg w t → ∀ n k g, (n,k,g) ∈ w.returned → t < n → n ≤ w.now ∧
    ∃ d, w.state.glyphs g = some d ∧ d.key = k ∧ ∀ r, d.row = some r → n ≤ w.used r

section Runs

variable {cfg : Config} {w : Watch} {k : GlyphKey} {o : Outcome} {gone top : Option ℕ}

theorem Looked.lookedRow (h : Looked cfg w.state k (w.state.getGlyphData cfg k o) gone top) :
    lookedRow (w.state.getGlyphData cfg k o) = top := by
  unfold FontLru.lookedRow
  cases hret : (w.state.getGlyphData cfg k o).2 with
  | error e => exact (h.error e hret).symm
  | ok g =>
    obtain ⟨d,hd,-,hrow⟩ := h.ok g hret
    change rowOf _ g = top
    rw [rowOf,hd,← hrow]
    rfl

theorem mem_rows_iff {x : State} {r : ℕ} : r ∈ x.rows ↔ ∃ s, stampOf x r = some s := by
  rw [← AList.lookup_isSome,stampOf]
  cases x.rows.lookup r <;> simp

theorem Sound.gone_first (h : Sound cfg w)
    (hlook : Looked cfg w.state k (w.state.getGlyphData cfg k o) gone top) {r : ℕ}
    (hgone : gone = some r) (r' : ℕ) (hr' : r' ∈ w.state.rows) : w.used r ≤ w.used r' := by
  obtain ⟨s,hs,hleast⟩ := hlook.least r hgone
  obtain ⟨s',hs'⟩ := mem_rows_iff.mp hr'
  exact h.order r r' s s' hs hs' (hleast r' s' hs')

theorem Sound.gone_unused (h : Sound cfg w)
    (hlook : Looked cfg w.state k (w.state.getGlyphData cfg k o) gone top) {r t : ℕ}
    (hfew : Few cfg w t) (hgone : gone = some r) : w.used r ≤ t := by
  by_contra hused
  obtain ⟨rows,hcard,hrows⟩ := hfew
  have hsub : w.state.rows.keys.toFinset ⊆ rows := fun r' hr' => by
    have hmem := AList.mem_keys.mpr (List.mem_toFinset.mp hr')
    exact hrows r' ((not_le.mp hused).trans_le (h.gone_first hlook hgone r' hmem))
  have hlen := Finset.card_le_card hsub
  rw [List.toFinset_card_of_nodup (AList.keys_nodup _),← h.stamped.whole.numRows,
    hlook.full (by simp [hgone])] at hlen
  exact absurd hcard (not_lt.mpr hlen)

theorem lookup_used_le (cfg : Config) (h : ∀ r, w.used r ≤ w.now) (k : GlyphKey) (o : Outcome)
    (r : ℕ) :
    (w.lookup cfg k o).used r ≤ (w.lookup cfg k o).now := by
  unfold Watch.lookup
  dsimp only
  split_ifs
  · exact le_rfl
  · exact (h r).trans (Nat.le_succ _)

theorem mem_of_lookup_used {rows : Finset ℕ} {t r₀ : ℕ}
    (hrow : lookedRow (w.state.getGlyphData cfg k o) = some r₀)
    (hbefore : ∀ r, t < w.used r → r ∈ rows) (r : ℕ) (h : t < (w.lookup cfg k o).used r) :
    r ∈ insert r₀ rows := by
  unfold Watch.lookup at h
  dsimp only at h
  rw [hrow] at h
  split_ifs at h with heq
  · exact Option.some.inj heq ▸ Finset.mem_insert_self ..
  · exact Finset.mem_insert_of_mem (hbefore r h)

theorem Sound.lookup (h : Sound cfg w) (hmeets : Meets cfg w.state k o) :
    Sound cfg (w.lookup cfg k o) := by
  obtain ⟨gone,top,hlook⟩ := getGlyphData_looked h.stamped hmeets
  have htop := hlook.lookedRow
  have hused : ∀ r, (w.lookup cfg k o).used r = if top = some r then w.now+1 else w.used r := by
    intro r
    rw [← htop]
    rfl
  have hmono : ∀ r, w.used r ≤ (w.lookup cfg k o).used r := by
    intro r
    rw [hused]
    split_ifs
    · exact (h.used r).trans (Nat.le_succ _)
    · exact le_rfl
  have hle : ∀ r, (w.lookup cfg k o).used r ≤ w.now+1 := lookup_used_le cfg h.used k o
  refine ⟨hlook.stamped,hle,fun r r' s s' hs hs' hless => ?_,fun t hfew n k' g hmem hn => ?_⟩
  · by_cases hr' : top = some r'
    · rw [hused r',if_pos hr']
      exact hle r
    have hr : top ≠ some r := fun hr => by
      obtain ⟨s₁,hs₁,hlate⟩ := hlook.latest r hr
      cases hs.symm.trans hs₁
      have hne : r' ≠ r := fun heq => hr' (heq ▸ hr)
      exact absurd (hlate r' s' hne hs') (not_lt.mpr hless)
    have hold : ∀ r s, top ≠ some r → stampOf (w.lookup cfg k o).state r = some s →
        stampOf w.state r = some s := by
      intro r s hne hs
      have hstamp := (hlook.effect.stamp r hne).symm.trans hs
      split_ifs at hstamp
      exact hstamp
    rw [hused,hused,if_neg hr,if_neg hr']
    exact h.order r r' s s' (hold r s hr hs) (hold r' s' hr' hs') hless
  · have hfew' : Few cfg w t := by
      obtain ⟨rows,hcard,hrows⟩ := hfew
      exact ⟨rows,hcard,fun r hr => hrows r (hr.trans_le (hmono r))⟩
    obtain hnew | hbefore := List.mem_append.mp hmem
    · cases hret : (w.state.getGlyphData cfg k o).2 with
      | error e => simp [hret,Except.toOption] at hnew
      | ok g' =>
        have heq : (n,k',g) = (w.now+1,k,g') := by
          simpa [hret,Except.toOption] using hnew
        cases heq
        obtain ⟨d,hd,hkey,hrow⟩ := hlook.ok g hret
        refine ⟨le_rfl,d,hd,hkey,fun r hr => ?_⟩
        rw [hused,if_pos (hrow.symm.trans hr)]
    · obtain ⟨hnow,d,hd,hkey,hrow⟩ := h.valid t hfew' n k' g hbefore hn
      obtain ⟨d',hd',hkey',hrow'⟩ := hlook.effect.glyphs g d hd fun hsome hgone => by
        obtain ⟨r,hr⟩ := Option.isSome_iff_exists.mp hsome
        have hsince := hrow r hr
        have hunused := h.gone_unused hlook hfew' (hgone.symm.trans hr)
        omega
      exact ⟨hnow.trans (Nat.le_succ _),d',hd',hkey'.trans hkey,fun r hr =>
        (hrow r (hrow'.symm.trans hr)).trans (hmono r)⟩

theorem start_sound (cfg : Config) : Sound cfg start :=
  ⟨⟨init_whole cfg,(fun _ _ h => by cases h),fun _ _ h => by cases h⟩,fun _ => le_rfl,
    (fun _ _ _ _ h => by cases h),fun _ _ _ _ _ h => by cases h⟩

theorem sound (h : Reaches (step cfg) (Allowed cfg) (· = start) w) : Sound cfg w := by
  refine h.invariant (Sound cfg) (fun w hw => by cases hw; exact start_sound cfg)
    fun w e w' hw hok hs => ?_
  cases e with
  | lock =>
    obtain rfl := Option.some.inj hs
    exact ⟨hw.stamped,hw.used,hw.order,hw.valid⟩
  | unlock =>
    unfold step at hs
    cases hlocks : w.locks with
    | nil =>
      simp [hlocks] at hs
    | cons t locks =>
      simp only [hlocks,Option.some.injEq] at hs
      subst hs
      exact ⟨hw.stamped,hw.used,hw.order,hw.valid⟩
  | lookup k o =>
    obtain rfl := Option.some.inj hs
    exact hw.lookup hok

/-- In all runs in which the row of a glyph from the quick array has the latest stamp already, a row
that is thrown out was used before all others; and while the glyphs returned since the manager was
locked lie in fewer rows than there may be, they all are live. -/
theorem evicted_least_used (h : Reaches (step cfg) (Allowed cfg) (· = start) w) :
    (∀ k o, Meets cfg w.state k o → ∀ r ∈ w.state.rows, r ∉ (w.lookup cfg k o).state.rows →
      ∀ r' ∈ w.state.rows, w.used r ≤ w.used r') ∧
    ∀ t ∈ w.locks, Few cfg w t → ∀ n k g, (n,k,g) ∈ w.returned → t < n →
      ∃ d, w.state.glyphs g = some d ∧ d.key = k := by
  have hw := sound h
  refine ⟨fun k o hmeets r hr hnot => ?_,fun t _ hfew n k g hmem hn => ?_⟩
  · obtain ⟨gone,top,hlook⟩ := getGlyphData_looked hw.stamped hmeets
    obtain ⟨s,hs⟩ := mem_rows_iff.mp hr
    have hother : top ≠ some r := fun htop => by
      obtain ⟨s',hs',-⟩ := hlook.latest r htop
      exact hnot (mem_rows_iff.mpr ⟨s',hs'⟩)
    have hstamp := hlook.effect.stamp r hother
    split_ifs at hstamp with hgone
    · exact hw.gone_first hlook hgone
    · exact absurd (mem_rows_iff.mpr ⟨s,hstamp.trans hs⟩) hnot
  · obtain ⟨-,d,hd,hkey,-⟩ := hw.valid t hfew n k g hmem hn
    exact ⟨d,hd,hkey⟩

end Runs

def narrow (maxRows : ℕ) : Config := ⟨maxRows,64,fun _ => ⟨8,4,4,0,0,true⟩⟩

def sought (index : ℕ) : Event := .lookup ⟨0,⟨0,Nat.two_pos⟩,index⟩ {width := 40, height := 8}

theorem Stamped.meets {cfg : Config} {x : State} {k : GlyphKey} (o : Outcome) (h : Stamped cfg x)
    (hlarge : ¬k.index < 128) (hstamp : x.rowStamp ≤ 2^32)
    (hretry : ∀ g d, x.hash.lookup k = some g → x.glyphs g = some d → d.retry = false) :
    Meets cfg x k o :=
  ⟨fun g d hk hg hd => (by cases (hretry g d hk hg).symm.trans hd),by omega,
    fun _ hskips => absurd hskips.1 hlarge,fun _ r s hs => (h.below r s hs).trans_le hstamp⟩

/-- A glyph is sought again in the hash, and the other row is thrown out for a third glyph. -/
theorem other_thrown_out : ∃ w, Reaches (step (narrow 2)) (Allowed (narrow 2)) (· = start) w ∧
    w.locks = [2] ∧ w.returned.head? = some (3,⟨0,0,200⟩,0) ∧ (∃ d, w.state.glyphs 0 = some d) ∧
    1 ∉ (w.lookup (narrow 2) ⟨0,0,202⟩ {width := 40, height := 8}).state.rows ∧
    w.used 1 = 2 ∧ w.used 1 ≤ w.used 0 := by
  have hfirst : Reaches (step (narrow 2)) (Allowed (narrow 2)) (· = start) _ :=
    .step (sought 200) (.init rfl) ((start_sound _).stamped.meets _ (by decide) (by decide)
      fun _ _ hk => by cases hk) rfl
  have hsecond : Reaches (step (narrow 2)) (Allowed (narrow 2)) (· = start) _ :=
    .step (sought 201) hfirst ((sound hfirst).stamped.meets _ (by decide) (by decide)
      fun _ _ hk => by cases hk) rfl
  have hagain : Reaches (step (narrow 2)) (Allowed (narrow 2)) (· = start) _ :=
    .step (sought 200) (.step .lock hsecond trivial rfl) ((sound hsecond).stamped.meets _
      (by decide) (by decide) fun g d hk hg => by
        obtain rfl := Option.some.inj hk
        obtain rfl := Option.some.inj hg
        rfl) rfl
  obtain ⟨hleast,hvalid⟩ := evicted_least_used hagain
  have hgone := hleast ⟨0,0,202⟩ {width := 40, height := 8} ((sound hagain).stamped.meets _
    (by decide) (by decide) fun _ _ hk => by cases hk) 1 (by decide) (by decide) 0 (by decide)
  have hused := (sound hsecond).used
  obtain ⟨d,hd,-⟩ := hvalid 2 (by decide) ⟨insert 0 ∅,by decide,mem_of_lookup_used rfl
    fun r hr => absurd (hused r) (not_le.mpr hr)⟩ 3 ⟨0,0,200⟩ 0 (by decide) (by decide)
  exact ⟨_,hagain,rfl,rfl,⟨d,hd⟩,by decide,rfl,hgone⟩

/-- The first of three glyphs is sought again in the quick array, and its row is thrown out for a
fourth, though it was used last, and only these two rows were since the manager was locked. -/
theorem quick_thrown_out : ∃ w w', Reaches (step (narrow 3)) (fun _ _ => True) (· = start) w ∧
    step (narrow 3) w (sought 202) = some w' ∧ 0 ∈ w.state.rows ∧ 0 ∉ w'.state.rows ∧
    1 ∈ w.state.rows ∧ w.used 1 < w.used 0 ∧ w'.locks = [3] ∧ Few (narrow 3) w' 3 ∧
    (4,⟨0,0,65⟩,0) ∈ w'.returned ∧ w'.state.glyphs 0 = none := by
  have hw : exec (step (narrow 3)) start [sought 65,sought 200,sought 201,.lock,sought 65] =
      some _ := rfl
  have hused := lookup_used_le (narrow 3) (lookup_used_le (narrow 3) (lookup_used_le (narrow 3)
    (start_sound (narrow 3)).used ⟨0,0,65⟩ {width := 40, height := 8}) ⟨0,0,200⟩
    {width := 40, height := 8}) ⟨0,0,201⟩ {width := 40, height := 8}
  exact ⟨_,_,Reaches.exec (.init rfl) (fun _ _ => trivial) hw,rfl,by decide,by decide,by decide,
    by decide,rfl,⟨insert 3 (insert 0 ∅),by decide,mem_of_lookup_used rfl (mem_of_lookup_used rfl
      fun r hr => absurd (hused r) (not_le.mpr hr))⟩,by decide,rfl⟩

end DirectFB.FontLru
