import Mathlib.Data.List.AList
import DirectFB.Reaches
import DirectFB.Types

/-! The cache of glyphs that the fonts of a manager share: a glyph is in the hash of its font, in a
quick array, and in the list of a row, and rows are thrown out for others. -/
namespace DirectFB.FontCache
open Function (update update_eq_self update_of_ne update_self)
open Transition

/-- `DFBFontCacheType` -/
structure CacheType where
  height : ℕ
  pixelFormat : ℕ
  surfaceCaps : ℕ
  deriving DecidableEq

/-- What a `CoreFont` says of its glyphs: with the format its bytes for a pixel and its alignment,
and whether there is a `GetGlyphData`. -/
structure CoreFont where
  height : ℕ
  pixelFormat : ℕ
  bytesPerPixel : ℕ
  alignment : ℕ
  surfaceCaps : ℕ
  getGlyphData : Bool

structure Config where
  maxRows : ℕ
  maxRowWidth : ℕ
  fonts : ℕ → CoreFont

/-- A glyph is sought with its font, one of `DFB_FONT_MAX_LAYERS` and an index. -/
structure GlyphKey where
  font : ℕ
  layer : Fin 2
  index : ℕ
  deriving DecidableEq

/-- `CoreGlyphData` -/
structure CoreGlyphData where
  key : GlyphKey
  row : Option ℕ
  start : ℕ
  width : ℕ
  height : ℕ
  inserted : Bool
  retry : Bool

/-- `DFBFontCacheRow`, with the width of its surface. -/
structure CacheRow where
  cache : CacheType
  stamp : ℕ
  width : ℕ
  nextX : ℕ
  glyphs : List ℕ

/-- `DFBFontManager` with its caches and their rows, freshest first, the glyphs and the rows that
are live by number, and `glyph_hash` and `glyph_data` of all fonts and layers. A `fault` is an
access to a glyph or row that is not live, or to a list that the glyph is not in. -/
structure State where
  glyphs : ℕ → Option CoreGlyphData
  rows : AList fun _ : ℕ => CacheRow
  caches : List CacheType
  cacheRows : CacheType → List ℕ
  hash : AList fun _ : GlyphKey => ℕ
  quick : GlyphKey → Option ℕ
  numRows : ℕ
  rowStamp : ℕ
  nextGlyph : ℕ
  nextRow : ℕ
  fault : Bool

structure Order (α : Type) where
  order : List α → List α
  perm : ∀ l, (order l).Perm l

/-- What happens in a call: what `GetGlyphData` answers and the size of the glyph, whether a cache
and a row are created, the order of the caches, and what `RenderGlyph` answers. -/
structure Outcome where
  glyph : DirectResult := .ok
  width : ℤ := 0
  height : ℤ := 0
  cache : DirectResult := .ok
  row : DirectResult := .ok
  render : DirectResult := .ok
  caches : Order CacheType := ⟨id,fun l => .refl l⟩

/-- `row_width` of a cache. -/
def rowWidth (cfg : Config) (t : CacheType) : ℕ :=
  let w := 2048*t.height%2^32/64
  let w := if cfg.maxRowWidth < w then cfg.maxRowWidth else w
  let w := if w < t.height then t.height else w
  (w+7)/8*8

def CoreFont.cacheType (font : CoreFont) (width height : ℕ) : CacheType where
  height := max (max font.height (max height width)) 8
  pixelFormat := font.pixelFormat
  surfaceCaps := font.surfaceCaps

/-- How far a glyph moves the place for the next: `(width + align) & ~align`. -/
def CoreFont.advance (font : CoreFont) (width : ℕ) : ℕ :=
  let bytes := if font.bytesPerPixel = 0 then 1 else font.bytesPerPixel
  let align := 8/bytes*(font.alignment+1)-1
  (width+align)-((width+align) &&& align)

def CoreGlyphData.clear (d : CoreGlyphData) (retry : Bool) : CoreGlyphData :=
  {d with start := 0, width := 0, height := 0, retry}

def CoreGlyphData.place (d : CoreGlyphData) (r start width height : ℕ) : CoreGlyphData :=
  {d with row := some r, start, width, height, retry := false}

def CoreGlyphData.insert (d : CoreGlyphData) : CoreGlyphData := {d with inserted := true}

def newGlyph (key : GlyphKey) : CoreGlyphData := ⟨key,none,0,0,0,false,false⟩

namespace State

def fail (x : State) : State := {x with fault := true}

def putRow (x : State) (r : ℕ) (row : CacheRow) : State := {x with rows := x.rows.insert r row}

def putGlyph (x : State) (g : ℕ) (d : CoreGlyphData) : State :=
  {x with glyphs := update x.glyphs g (some d)}

/-- `D_FREE` of a glyph. -/
def dropGlyph (x : State) (g : ℕ) : State := {x with glyphs := update x.glyphs g none}

def dropHash (x : State) (k : GlyphKey) : State := {x with hash := x.hash.erase k}

def dropQuick (x : State) (k : GlyphKey) : State :=
  {x with quick := if k.index < 128 then update x.quick k none else x.quick}

def kickOut (x : State) (g : ℕ) : State :=
  match x.glyphs g with
  | none => x.fail
  | some d => ((x.dropHash d.key).dropQuick d.key).dropGlyph g

def removeRow (x : State) (r : ℕ) (t : CacheType) : State :=
  {x with
    rows := x.rows.erase r
    cacheRows := update x.cacheRows t ((x.cacheRows t).erase r)
    numRows := x.numRows-1}

/-- `dfb_font_cache_row_destroy`, with the row taken from its cache and the rows counted. -/
def destroyRow (x : State) (r : ℕ) (row : CacheRow) : State :=
  (row.glyphs.foldl kickOut x).removeRow r row.cache

def lru (x : State) (c : Option (ℕ × ℕ)) (r : ℕ) : Option (ℕ × ℕ) :=
  match x.rows.lookup r with
  | none => c
  | some row =>
    match c with
    | none => some (r,row.stamp%2^32)
    | some (_,stamp) => if row.stamp < stamp then some (r,row.stamp%2^32) else c

/-- `find_lru_row`, in all caches. -/
def findLruRow (x : State) (o : Order CacheType) : Option ℕ :=
  ((((o.order x.caches).flatMap x.cacheRows).foldl x.lru none).map Prod.fst)

/-- `dfb_font_manager_remove_lru_row` -/
def removeLruRow (x : State) (o : Order CacheType) : State × DirectResult :=
  match x.findLruRow o with
  | none => (x,.itemNotFound)
  | some r =>
    match x.rows.lookup r with
    | none => (x.fail,.ok)
    | some row => (x.destroyRow r row,.ok)

def room (cfg : Config) (x : State) (t : CacheType) (width r : ℕ) : Option ℕ :=
  match x.rows.lookup r with
  | none => none
  | some row => if row.nextX+width ≤ rowWidth cfg t then some row.nextX else none

def best (cfg : Config) (x : State) (t : CacheType) (width : ℕ) (c : Option (ℕ × ℕ)) (r : ℕ) :
    Option (ℕ × ℕ) :=
  match x.room cfg t width r with
  | none => c
  | some n =>
    match c with
    | none => some (r,n)
    | some (_,m) => if m < n then some (r,n) else c

def findRow (cfg : Config) (x : State) (t : CacheType) (width : ℕ) : Option ℕ :=
  match (x.cacheRows t).head?.filter (fun r => (x.room cfg t width r).isSome) with
  | some r => some r
  | none => ((x.cacheRows t).foldl (x.best cfg t width) none).map Prod.fst

def createRow (cfg : Config) (x : State) (t : CacheType) : State :=
  {x with
    rows := x.rows.insert x.nextRow ⟨t,0,rowWidth cfg t,0,[]⟩
    cacheRows := update x.cacheRows t (x.nextRow :: x.cacheRows t)
    numRows := x.numRows+1
    nextRow := x.nextRow+1}

/-- `dfb_font_cache_get_row` -/
def getRow (cfg : Config) (x : State) (t : CacheType) (width : ℕ) (o : Outcome) :
    State × Except DirectResult ℕ :=
  match x.findRow cfg t width with
  | some r => (x,.ok r)
  | none =>
    let y : State × DirectResult :=
      if x.numRows = cfg.maxRows then x.removeLruRow o.caches else (x,.ok)
    if y.2 ≠ .ok then (y.1,.error y.2)
    else if o.row ≠ .ok then (y.1,.error o.row)
    else (y.1.createRow cfg t,.ok y.1.nextRow)

/-- `dfb_font_manager_get_cache` -/
def getCache (x : State) (t : CacheType) (o : Outcome) : State × DirectResult :=
  if t ∈ x.caches then (x,.ok)
  else if o.cache ≠ .ok then (x,o.cache)
  else ({x with caches := x.caches ++ [t]},.ok)

def touch (x : State) (r : ℕ) (row : CacheRow) : State :=
  {x with
    rows := x.rows.insert r {row with stamp := x.rowStamp}
    rowStamp := (x.rowStamp+1)%2^64}

def link (x : State) (g : ℕ) : Option ℕ → State
  | none => x
  | some r =>
    match x.rows.lookup r with
    | none => x.fail
    | some row => x.putRow r {row with glyphs := row.glyphs ++ [g]}

def enter (x : State) (g : ℕ) (d : CoreGlyphData) : State :=
  {x with
    glyphs := update x.glyphs g (some d.insert)
    hash := x.hash.insert d.key g
    quick := if d.key.index < 128 then update x.quick d.key (some g) else x.quick}

/-- What is done with the data of a glyph at `out`, where it was not live any more if another row
had to be thrown out for it. -/
def out (x : State) (g : ℕ) (d : CoreGlyphData) (row : Option ℕ) : State :=
  if d.inserted then
    match x.glyphs g with
    | none => x.fail
    | some _ => x.putGlyph g d
  else (x.link g row).enter g d

/-- The glyph is added to a row and rendered. -/
def render (cfg : Config) (x : State) (g : ℕ) (d : CoreGlyphData) (r : ℕ) (o : Outcome) : State :=
  match x.rows.lookup r with
  | none => x.fail
  | some row =>
    let advance := (cfg.fonts d.key.font).advance o.width.toNat
    let y := x.touch r {row with nextX := row.nextX+advance}
    let d' := d.place r row.nextX o.width.toNat o.height.toNat
    if o.render ≠ .ok then y.out g (d'.clear (o.render = .bufferEmpty)) (some r)
    else y.out g d' (some r)

/-- What is done at `error`: the glyph is freed, also if it was inserted before. -/
def free (x : State) (g : ℕ) (d : CoreGlyphData) : State :=
  if d.inserted = true ∧ (x.glyphs g).isNone = true then x.fail else x.dropGlyph g

/-- `dfb_font_get_glyph_data`, from `retry` on, for a glyph that has been allocated. -/
def load (cfg : Config) (x : State) (g : ℕ) (d : CoreGlyphData) (o : Outcome) :
    State × Except DirectResult ℕ :=
  if o.glyph ≠ .ok then (x.out g (d.clear (o.glyph = .bufferEmpty)) none,.ok g)
  else if o.width < 1 ∨ o.height < 1 then (x.out g (d.clear false) none,.ok g)
  else
    let t := (cfg.fonts d.key.font).cacheType o.width.toNat o.height.toNat
    let y := x.getCache t o
    if y.2 ≠ .ok then (y.1.free g d,.error y.2)
    else
      let z := y.1.getRow cfg t o.width.toNat o
      match z.2 with
      | .error ret => (z.1.free g d,.error ret)
      | .ok r => (z.1.render cfg g d r o,.ok g)

def touchRow (x : State) : Option ℕ → State
  | none => x
  | some r =>
    match x.rows.lookup r with
    | none => x.fail
    | some row => x.touch r row

/-- `dfb_font_get_glyph_data` -/
def getGlyphData (cfg : Config) (x : State) (k : GlyphKey) (o : Outcome) :
    State × Except DirectResult ℕ :=
  match if k.index < 128 then x.quick k else none with
  | some g =>
    match x.glyphs g with
    | none => (x.fail,.ok g)
    | some d => if d.retry then x.load cfg g d o else (x,.ok g)
  | none =>
    match x.hash.lookup k with
    | some g =>
      match x.glyphs g with
      | none => (x.fail,.ok g)
      | some d =>
        let y := x.touchRow d.row
        if d.retry then y.load cfg g d o else (y,.ok g)
    | none =>
      if (cfg.fonts k.font).getGlyphData = false then (x,.error .unsupported)
      else load cfg {x with nextGlyph := x.nextGlyph+1} x.nextGlyph (newGlyph k) o

def unlink (x : State) (g : ℕ) : Option ℕ → State
  | none => x
  | some r =>
    match x.rows.lookup r with
    | none => x.fail
    | some row =>
      if g ∈ row.glyphs then
        let row' := {row with glyphs := row.glyphs.erase g}
        if row'.glyphs = [] then (x.putRow r row').destroyRow r row' else x.putRow r row'
      else x.fail

/-- `free_glyphs` -/
def freeGlyphs (x : State) (k : GlyphKey) : State :=
  match x.hash.lookup k with
  | none => x
  | some g =>
    match x.glyphs g with
    | none => (x.dropHash k).fail
    | some d => ((x.dropHash k).unlink g d.row).dropGlyph g

def layerKeys (x : State) (font : ℕ) (layer : Fin 2) : List GlyphKey :=
  x.hash.keys.filter fun k => k.font = font ∧ k.layer = layer

def disposeLayer (x : State) (font : ℕ) (layer : Fin 2) (o : Order GlyphKey) : State :=
  let y := (o.order (x.layerKeys font layer)).foldl freeGlyphs x
  {y with quick := fun k => if k.font = font ∧ k.layer = layer then none else y.quick k}

/-- `dfb_font_dispose` -/
def dispose (x : State) (font : ℕ) (o : Order GlyphKey) : State :=
  (x.disposeLayer font 0 o).disposeLayer font 1 o

end State

inductive Call
  | getGlyphData (k : GlyphKey) (o : Outcome)
  | dispose (font : ℕ) (o : Order GlyphKey)

def step (cfg : Config) (x : State) : Call → Option State
  | .getGlyphData k o => some (x.getGlyphData cfg k o).1
  | .dispose font o => some (x.dispose font o)

def init : State := ⟨fun _ => none,∅,[],fun _ => [],∅,fun _ => none,0,0,0,0,false⟩

def Apart (d d' : CoreGlyphData) : Prop :=
  d.start+d.width ≤ d'.start ∨ d'.start+d'.width ≤ d.start

/-- The glyphs of a row are those in its list, in its surface and before the next place, and apart
from each other. -/
structure RowOk (cfg : Config) (glyphs : ℕ → Option CoreGlyphData) (r : ℕ) (row : CacheRow) :
    Prop where
  width : row.width = rowWidth cfg row.cache
  nodup : row.glyphs.Nodup
  live : ∀ g ∈ row.glyphs, ∃ d, glyphs g = some d ∧ d.row = some r ∧
    d.start+d.width ≤ row.width ∧ d.start+d.width ≤ row.nextX
  apart : ∀ g ∈ row.glyphs, ∀ g' ∈ row.glyphs, g ≠ g' → ∀ d d', glyphs g = some d →
    glyphs g' = some d' → Apart d d'

/-- The hash, the quick array (but for some keys), the rows and the caches belong together. -/
structure Inv (cfg : Config) (skip : GlyphKey → Prop) (x : State) : Prop where
  fault : x.fault = false
  hash : ∀ k g, x.hash.lookup k = some g → ∃ d, x.glyphs g = some d ∧ d.key = k
  glyph : ∀ g d, x.glyphs g = some d → d.inserted = true ∧ x.hash.lookup d.key = some g
  linked : ∀ g d r, x.glyphs g = some d → d.row = some r →
    ∃ row, x.rows.lookup r = some row ∧ g ∈ row.glyphs
  quick : ∀ k g, ¬ skip k → x.quick k = some g → x.hash.lookup k = some g
  small : ∀ k g, x.quick k = some g → k.index < 128
  row : ∀ r row, x.rows.lookup r = some row → RowOk cfg x.glyphs r row
  caches : ∀ t r, r ∈ x.cacheRows t → t ∈ x.caches ∧
    ∃ row, x.rows.lookup r = some row ∧ row.cache = t
  nodup : ∀ t, (x.cacheRows t).Nodup
  numRows : x.numRows = x.rows.keys.length
  maxRows : x.numRows ≤ cfg.maxRows
  freshGlyph : ∀ g, x.nextGlyph ≤ g → x.glyphs g = none
  freshRow : ∀ r, x.nextRow ≤ r → x.rows.lookup r = none

section Rows
variable {cfg : Config} {skip : GlyphKey → Prop} {x : State} {r : ℕ} {row : CacheRow}

theorem mem_keys_of_lookup (h : x.rows.lookup r = some row) : r ∈ x.rows.keys := by
  rw [← AList.mem_keys,← AList.lookup_isSome,h]
  rfl

theorem length_insert (h : x.rows.lookup r = some row) (row' : CacheRow) :
    (x.rows.insert r row').keys.length = x.rows.keys.length := by
  have hmem := mem_keys_of_lookup h
  rw [AList.keys_insert,List.length_cons,List.length_erase_of_mem hmem]
  exact Nat.sub_add_cancel (List.length_pos_of_mem hmem)

/-- A row that only gets another stamp or a later place for the next glyph. -/
theorem Inv.putRow (h : Inv cfg skip x) (hr : x.rows.lookup r = some row) (row' : CacheRow)
    (hcache : row'.cache = row.cache) (hwidth : row'.width = row.width)
    (hglyphs : row'.glyphs = row.glyphs) (hnext : row.nextX ≤ row'.nextX) (stamp : ℕ) :
    Inv cfg skip {x with rows := x.rows.insert r row', rowStamp := stamp} := by
  have hlookup : ∀ r', r' ≠ r → (x.rows.insert r row').lookup r' = x.rows.lookup r' :=
    fun r' hne => AList.lookup_insert_ne hne
  refine {h with linked := ?_, row := ?_, caches := ?_, numRows := ?_, freshRow := ?_}
  · intro g d r' hg hd
    obtain ⟨row₁,hrow₁,hmem⟩ := h.linked g d r' hg hd
    by_cases hne : r' = r
    · subst hne
      cases hr.symm.trans hrow₁
      exact ⟨row',AList.lookup_insert _,hglyphs ▸ hmem⟩
    · exact ⟨row₁,(hlookup r' hne).trans hrow₁,hmem⟩
  · intro r' row₁ hrow₁
    by_cases hne : r' = r
    · subst hne
      cases (AList.lookup_insert x.rows).symm.trans hrow₁
      obtain ⟨hw,hnodup,hall,hapart⟩ := h.row r' row hr
      refine ⟨by rw [hwidth,hcache,hw],hglyphs ▸ hnodup,fun g hg => ?_,hglyphs ▸ hapart⟩
      obtain ⟨d,hd,hdrow,hin,hbefore⟩ := hall g (hglyphs ▸ hg)
      exact ⟨d,hd,hdrow,hwidth ▸ hin,hbefore.trans hnext⟩
    · exact h.row r' row₁ ((hlookup r' hne).symm.trans hrow₁)
  · intro t r' hr'
    obtain ⟨ht,row₁,hrow₁,hc⟩ := h.caches t r' hr'
    refine ⟨ht,?_⟩
    by_cases hne : r' = r
    · subst hne
      cases hr.symm.trans hrow₁
      exact ⟨row',AList.lookup_insert _,hcache.trans hc⟩
    · exact ⟨row₁,(hlookup r' hne).trans hrow₁,hc⟩
  · exact h.numRows.trans (length_insert hr row').symm
  · intro r' hfresh
    have hnone := h.freshRow r' hfresh
    by_cases hne : r' = r
    · subst hne
      cases hr.symm.trans hnone
    · exact (hlookup r' hne).trans hnone

/-- A row without glyphs is taken away. -/
theorem Inv.removeRow (h : Inv cfg skip x) (hr : x.rows.lookup r = some row)
    (hempty : row.glyphs = []) : Inv cfg skip (x.removeRow r row.cache) := by
  have hlookup : ∀ r', r' ≠ r → (x.rows.erase r).lookup r' = x.rows.lookup r' :=
    fun r' hne => AList.lookup_erase_ne hne
  have hlen : (x.rows.erase r).keys.length = x.rows.keys.length-1 := by
    rw [AList.keys_erase,List.length_erase_of_mem (mem_keys_of_lookup hr)]
  refine {h with
    linked := ?_, row := ?_, caches := ?_, nodup := ?_, numRows := ?_, maxRows := ?_,
    freshRow := ?_}
  · intro g d r' hg hd
    obtain ⟨row₁,hrow₁,hmem⟩ := h.linked g d r' hg hd
    by_cases hne : r' = r
    · subst hne
      cases hr.symm.trans hrow₁
      rw [hempty] at hmem
      cases hmem
    · exact ⟨row₁,(hlookup r' hne).trans hrow₁,hmem⟩
  · intro r' row₁ hrow₁
    by_cases hne : r' = r
    · subst hne
      cases (AList.lookup_erase r' x.rows).symm.trans hrow₁
    · exact h.row r' row₁ ((hlookup r' hne).symm.trans hrow₁)
  · intro t r' hr'
    have hold : r' ∈ x.cacheRows t ∧ r' ≠ r := by
      change r' ∈ update x.cacheRows row.cache ((x.cacheRows row.cache).erase r) t at hr'
      by_cases ht : t = row.cache
      · subst ht
        rw [update_self,(h.nodup _).mem_erase_iff] at hr'
        exact ⟨hr'.2,hr'.1⟩
      · rw [update_of_ne ht] at hr'
        refine ⟨hr',fun heq => ht ?_⟩
        obtain ⟨-,row₁,hrow₁,hc⟩ := h.caches t r' hr'
        rw [heq,hr] at hrow₁
        rw [← hc,← Option.some.inj hrow₁]
    obtain ⟨ht,row₁,hrow₁,hc⟩ := h.caches t r' hold.1
    exact ⟨ht,row₁,(hlookup r' hold.2).trans hrow₁,hc⟩
  · intro t
    change (update x.cacheRows row.cache ((x.cacheRows row.cache).erase r) t).Nodup
    by_cases ht : t = row.cache
    · subst ht
      rw [update_self]
      exact (h.nodup _).erase r
    · rw [update_of_ne ht]
      exact h.nodup t
  · exact (congrArg (· - 1) h.numRows).trans hlen.symm
  · exact (Nat.sub_le _ _).trans h.maxRows
  · intro r' hfresh
    by_cases hne : r' = r
    · subst hne
      exact AList.lookup_erase r' x.rows
    · exact (hlookup r' hne).trans (h.freshRow r' hfresh)

/-- A row without glyphs is added. -/
theorem Inv.createRow (h : Inv cfg skip x) {t : CacheType} (ht : t ∈ x.caches)
    (hmax : x.numRows < cfg.maxRows) : Inv cfg skip (x.createRow cfg t) := by
  have hnone := h.freshRow x.nextRow le_rfl
  have hlookup : ∀ r', r' ≠ x.nextRow →
      (x.rows.insert x.nextRow ⟨t,0,rowWidth cfg t,0,[]⟩).lookup r' = x.rows.lookup r' :=
    fun r' hne => AList.lookup_insert_ne hne
  have hother : ∀ {r' row'}, x.rows.lookup r' = some row' → r' ≠ x.nextRow := by
    rintro r' row' hr' rfl
    cases hnone.symm.trans hr'
  have hlen : (x.rows.insert x.nextRow ⟨t,0,rowWidth cfg t,0,[]⟩).keys.length =
      x.rows.keys.length+1 := by
    have hnot : x.nextRow ∉ x.rows.keys := by
      rw [← AList.mem_keys]
      exact AList.lookup_eq_none.mp hnone
    rw [AList.keys_insert,List.erase_of_not_mem hnot,List.length_cons]
  refine {h with
    linked := ?_, row := ?_, caches := ?_, nodup := ?_, numRows := ?_, maxRows := hmax,
    freshRow := ?_}
  · intro g d r' hg hd
    obtain ⟨row₁,hrow₁,hmem⟩ := h.linked g d r' hg hd
    exact ⟨row₁,(hlookup r' (hother hrow₁)).trans hrow₁,hmem⟩
  · intro r' row₁ hrow₁
    by_cases hne : r' = x.nextRow
    · subst hne
      cases (AList.lookup_insert x.rows).symm.trans hrow₁
      exact ⟨rfl,List.nodup_nil,(fun g hg => by cases hg),(fun g hg => by cases hg)⟩
    · exact h.row r' row₁ ((hlookup r' hne).symm.trans hrow₁)
  · intro t' r' hr'
    change r' ∈ update x.cacheRows t (x.nextRow :: x.cacheRows t) t' at hr'
    have hold : r' ∈ x.cacheRows t' → t' ∈ x.caches ∧ ∃ row,
        (x.rows.insert x.nextRow ⟨t,0,rowWidth cfg t,0,[]⟩).lookup r' = some row ∧
          row.cache = t' := by
      intro hmem
      obtain ⟨ht',row₁,hrow₁,hc⟩ := h.caches t' r' hmem
      exact ⟨ht',row₁,(hlookup r' (hother hrow₁)).trans hrow₁,hc⟩
    by_cases heq : t' = t
    · subst heq
      rw [update_self,List.mem_cons] at hr'
      obtain rfl | hr' := hr'
      · exact ⟨ht,_,AList.lookup_insert _,rfl⟩
      · exact hold hr'
    · rw [update_of_ne heq] at hr'
      exact hold hr'
  · intro t'
    change (update x.cacheRows t (x.nextRow :: x.cacheRows t) t').Nodup
    by_cases heq : t' = t
    · subst heq
      rw [update_self]
      refine List.nodup_cons.mpr ⟨fun hmem => ?_,h.nodup t'⟩
      obtain ⟨-,row₁,hrow₁,-⟩ := h.caches t' _ hmem
      exact hother hrow₁ rfl
    · rw [update_of_ne heq]
      exact h.nodup t'
  · exact (congrArg (· + 1) h.numRows).trans hlen.symm
  · intro r' hfresh
    have hle : x.nextRow+1 ≤ r' := hfresh
    exact (hlookup r' (by omega)).trans (h.freshRow r' (by omega))

end Rows

def CacheRow.without (row : CacheRow) (g : ℕ) : CacheRow :=
  {row with glyphs := row.glyphs.erase g}

def Fits (x : State) (g : ℕ) (row : CacheRow) (d : CoreGlyphData) : Prop :=
  d.start+d.width ≤ row.width ∧ d.start+d.width ≤ row.nextX ∧
    ∀ g' ∈ row.glyphs, g' ≠ g → ∀ d', x.glyphs g' = some d' → Apart d d'

section Glyphs
variable {cfg : Config} {skip : GlyphKey → Prop} {x : State} {g r : ℕ} {d : CoreGlyphData}
  {row : CacheRow}

/-- A glyph is freed, and taken from the hash, the quick array and the lists of the rows. -/
theorem Inv.release (h : Inv cfg skip x) (hg : x.glyphs g = some d)
    (quick : GlyphKey → Option ℕ) {rows : AList fun _ : ℕ => CacheRow}
    (hrows : ∀ r, rows.lookup r = (x.rows.lookup r).map (·.without g))
    (hlen : rows.keys.length = x.rows.keys.length)
    (hsub : ∀ k g', quick k = some g' → x.quick k = some g')
    (hkey : skip d.key ∨ quick d.key = none) :
    Inv cfg skip {x with
      glyphs := update x.glyphs g none, hash := x.hash.erase d.key, rows, quick} := by
  have hself : update x.glyphs g none g = none := update_self ..
  have hother : ∀ g', g' ≠ g → update x.glyphs g none g' = x.glyphs g' :=
    fun g' hne => update_of_ne hne ..
  have hhash : ∀ k, k ≠ d.key → (x.hash.erase d.key).lookup k = x.hash.lookup k :=
    fun k hne => AList.lookup_erase_ne hne
  have howner : x.hash.lookup d.key = some g := (h.glyph g d hg).2
  have hlive : ∀ {g' d'}, update x.glyphs g none g' = some d' → g' ≠ g ∧ x.glyphs g' = some d' := by
    intro g' d' hg'
    by_cases hne : g' = g
    · subst hne
      cases hself.symm.trans hg'
    · exact ⟨hne,(hother g' hne).symm.trans hg'⟩
  have hrow : ∀ {r row}, x.rows.lookup r = some row → rows.lookup r = some (row.without g) :=
    fun {r row} hr => (hrows r).trans (congrArg (Option.map (·.without g)) hr)
  refine {h with
    hash := ?_, glyph := ?_, linked := ?_, quick := ?_, row := ?_, caches := ?_, numRows := ?_,
    small := fun k g' hk => h.small k g' (hsub k g' hk), freshGlyph := ?_, freshRow := ?_}
  · intro k g' hk
    by_cases hne : k = d.key
    · subst hne
      cases (AList.lookup_erase d.key x.hash).symm.trans hk
    · obtain ⟨d',hg',hkey⟩ := h.hash k g' ((hhash k hne).symm.trans hk)
      refine ⟨d',(hother g' ?_).trans hg',hkey⟩
      rintro rfl
      rw [hg] at hg'
      exact hne (by rw [← hkey,← Option.some.inj hg'])
  · intro g' d' hg'
    obtain ⟨hne,hold⟩ := hlive hg'
    obtain ⟨hinserted,hlookup⟩ := h.glyph g' d' hold
    refine ⟨hinserted,(hhash d'.key fun heq => hne ?_).trans hlookup⟩
    rw [heq,howner] at hlookup
    exact (Option.some.inj hlookup).symm
  · intro g' d' r hg' hd'
    obtain ⟨hne,hold⟩ := hlive hg'
    obtain ⟨row,hr,hmem⟩ := h.linked g' d' r hold hd'
    exact ⟨_,hrow hr,(List.mem_erase_of_ne hne).mpr hmem⟩
  · intro k g' hk hq
    refine (hhash k ?_).trans (h.quick k g' hk (hsub k g' hq))
    rintro rfl
    cases (hkey.resolve_left hk).symm.trans hq
  · intro r row' hr'
    have hr' : rows.lookup r = some row' := hr'
    rw [hrows r,Option.map_eq_some_iff] at hr'
    obtain ⟨row,hr,rfl⟩ := hr'
    obtain ⟨hwidth,hnodup,hall,hapart⟩ := h.row r row hr
    have hmem : ∀ {g'}, g' ∈ row.glyphs.erase g → g' ≠ g ∧ g' ∈ row.glyphs :=
      fun hg' => hnodup.mem_erase_iff.mp hg'
    refine ⟨hwidth,hnodup.erase g,fun g' hg' => ?_,fun g₁ h₁ g₂ h₂ hne d₁ d₂ hd₁ hd₂ => ?_⟩
    · obtain ⟨d',hd',hfit⟩ := hall g' (hmem hg').2
      exact ⟨d',(hother g' (hmem hg').1).trans hd',hfit⟩
    · exact hapart g₁ (hmem h₁).2 g₂ (hmem h₂).2 hne d₁ d₂ (hlive hd₁).2 (hlive hd₂).2
  · intro t r hr
    obtain ⟨ht,row,hold,hc⟩ := h.caches t r hr
    exact ⟨ht,_,hrow hold,hc⟩
  · exact h.numRows.trans hlen.symm
  · intro g' hfresh
    by_cases hne : g' = g
    · subst hne
      exact hself
    · exact (hother g' hne).trans (h.freshGlyph g' hfresh)
  · intro r hfresh
    exact (hrows r).trans (congrArg (Option.map (·.without g)) (h.freshRow r hfresh))

theorem Inv.without_eq (h : Inv cfg skip x) (hg : x.glyphs g = some d) (hr : x.rows.lookup r = some row)
    (hne : d.row ≠ some r) : row.without g = row := by
  have hnot : g ∉ row.glyphs := fun hmem => by
    obtain ⟨d',hd',hrow,-⟩ := (h.row r row hr).live g hmem
    rw [hg] at hd'
    exact hne (by rw [Option.some.inj hd',hrow])
  unfold CacheRow.without
  rw [List.erase_of_not_mem hnot]

/-- Freeing a glyph that is in a row. -/
theorem Inv.release_linked (h : Inv cfg skip x) (hg : x.glyphs g = some d) (hd : d.row = some r)
    (hr : x.rows.lookup r = some row) (quick : GlyphKey → Option ℕ)
    (hsub : ∀ k g', quick k = some g' → x.quick k = some g')
    (hkey : skip d.key ∨ quick d.key = none) :
    Inv cfg skip {x with
      glyphs := update x.glyphs g none, hash := x.hash.erase d.key,
      rows := x.rows.insert r (row.without g), quick} := by
  refine h.release hg quick (fun r' => ?_) (length_insert hr _) hsub hkey
  by_cases hne : r' = r
  · subst hne
    rw [AList.lookup_insert,hr]
    rfl
  · rw [AList.lookup_insert_ne hne]
    cases hr' : x.rows.lookup r' with
    | none => rfl
    | some row' =>
      have hsame := h.without_eq hg hr' (fun heq => hne (Option.some.inj (heq.symm.trans hd)))
      exact congrArg some hsame.symm

theorem Inv.release_unlinked (h : Inv cfg skip x) (hg : x.glyphs g = some d) (hd : d.row = none)
    (quick : GlyphKey → Option ℕ)
    (hsub : ∀ k g', quick k = some g' → x.quick k = some g')
    (hkey : skip d.key ∨ quick d.key = none) :
    Inv cfg skip {x with
      glyphs := update x.glyphs g none, hash := x.hash.erase d.key, quick} := by
  refine h.release hg quick (fun r' => ?_) rfl hsub hkey
  cases hr' : x.rows.lookup r' with
  | none => rfl
  | some row' =>
    have hsame := h.without_eq hg hr' (fun heq => by cases hd.symm.trans heq)
    exact congrArg some hsame.symm

def withList (x : State) (r : ℕ) (row : CacheRow) (l : List ℕ) : State :=
  {x with rows := x.rows.insert r {row with glyphs := l}}

theorem Inv.withList_self (h : Inv cfg skip x) (hr : x.rows.lookup r = some row) :
    Inv cfg skip (withList x r row row.glyphs) :=
  h.putRow hr _ rfl rfl rfl le_rfl x.rowStamp

theorem dropQuick_sub (x : State) (k : GlyphKey) {k' : GlyphKey}
    (h : (x.dropQuick k).quick k' = some g) : x.quick k' = some g := by
  change (if k.index < 128 then update x.quick k none else x.quick) k' = some g at h
  split_ifs at h
  · by_cases hne : k' = k
    · subst hne
      rw [update_self] at h
      cases h
    · rwa [update_of_ne hne] at h
  · exact h

theorem Inv.dropQuick_self (h : Inv cfg skip x) (k : GlyphKey) : (x.dropQuick k).quick k = none := by
  change (if k.index < 128 then update x.quick k none else x.quick) k = none
  split_ifs with hsmall
  · exact update_self ..
  · cases hk : x.quick k with
    | none => rfl
    | some g => exact absurd (h.small k g hk) hsmall

/-- A glyph is kicked out with the head of its row's list. -/
theorem Inv.kickOut {l : List ℕ} (h : Inv cfg skip (withList x r row (g :: l))) :
    Inv cfg skip (withList (x.kickOut g) r row l) := by
  have hr : (withList x r row (g :: l)).rows.lookup r = some {row with glyphs := g :: l} :=
    AList.lookup_insert _
  obtain ⟨d,hg,hd,-⟩ := (h.row r _ hr).live g List.mem_cons_self
  have hg : x.glyphs g = some d := hg
  have hrelease := h.release_linked hg hd hr (x.dropQuick d.key).quick
    (fun k g' => dropQuick_sub x d.key) (.inr (h.dropQuick_self d.key))
  have hrows : (withList x r row (g :: l)).rows.insert r
      (CacheRow.without {row with glyphs := g :: l} g) = x.rows.insert r {row with glyphs := l} := by
    refine (AList.insert_insert x.rows).trans ?_
    unfold CacheRow.without
    rw [List.erase_cons_head]
  rw [hrows] at hrelease
  unfold State.kickOut
  rw [hg]
  exact hrelease

theorem Inv.kickOuts {l : List ℕ} (h : Inv cfg skip (withList x r row l)) :
    Inv cfg skip (withList (l.foldl State.kickOut x) r row []) := by
  induction l generalizing x with
  | nil => exact h
  | cons g l ih => exact ih h.kickOut

theorem Inv.destroyRow (h : Inv cfg skip x) (hr : x.rows.lookup r = some row) :
    Inv cfg skip (x.destroyRow r row) := by
  have hempty := (h.withList_self hr).kickOuts.removeRow (AList.lookup_insert _) rfl
  have hrows : ∀ (s : AList fun _ : ℕ => CacheRow) (v : CacheRow),
      (s.insert r v).erase r = s.erase r := fun s v => AList.ext (List.kerase_cons_eq rfl)
  unfold State.destroyRow
  unfold State.removeRow withList at hempty
  rw [hrows] at hempty
  exact hempty

/-- The data of a glyph is other, in the same row. -/
theorem Inv.putGlyph (h : Inv cfg skip x) (hg : x.glyphs g = some d) {d' : CoreGlyphData}
    (hkey : d'.key = d.key) (hinserted : d'.inserted = true) (hrow : d'.row = d.row)
    (hfit : ∀ r row, d.row = some r → x.rows.lookup r = some row → Fits x g row d') :
    Inv cfg skip (x.putGlyph g d') := by
  have hself : update x.glyphs g (some d') g = some d' := update_self ..
  have hother : ∀ g', g' ≠ g → update x.glyphs g (some d') g' = x.glyphs g' :=
    fun g' hne => update_of_ne hne ..
  refine {h with
    hash := ?_, glyph := ?_, linked := ?_, row := ?_, freshGlyph := ?_}
  · intro k g' hk
    obtain ⟨d₁,hd₁,hkey₁⟩ := h.hash k g' hk
    by_cases hne : g' = g
    · subst hne
      cases hg.symm.trans hd₁
      exact ⟨d',hself,hkey.trans hkey₁⟩
    · exact ⟨d₁,(hother g' hne).trans hd₁,hkey₁⟩
  · intro g' d₁ hd₁
    by_cases hne : g' = g
    · subst hne
      cases hself.symm.trans hd₁
      exact ⟨hinserted,hkey ▸ (h.glyph g' d hg).2⟩
    · exact h.glyph g' d₁ ((hother g' hne).symm.trans hd₁)
  · intro g' d₁ r hd₁ hr
    by_cases hne : g' = g
    · subst hne
      cases hself.symm.trans hd₁
      exact h.linked g' d r hg (hrow.symm.trans hr)
    · exact h.linked g' d₁ r ((hother g' hne).symm.trans hd₁) hr
  · intro r row hr
    obtain ⟨hwidth,hnodup,hall,hapart⟩ := h.row r row hr
    have hin : g ∈ row.glyphs → d.row = some r := by
      intro hmem
      obtain ⟨d₁,hd₁,hrow₁,-⟩ := hall g hmem
      cases hg.symm.trans hd₁
      exact hrow₁
    refine ⟨hwidth,hnodup,fun g' hg' => ?_,fun g₁ h₁ g₂ h₂ hne d₁ d₂ hd₁ hd₂ => ?_⟩
    · by_cases hne : g' = g
      · subst hne
        obtain ⟨hwithin,hbefore,-⟩ := hfit r row (hin hg') hr
        exact ⟨d',hself,hrow.trans (hin hg'),hwithin,hbefore⟩
      · obtain ⟨d₁,hd₁,hfit₁⟩ := hall g' hg'
        exact ⟨d₁,(hother g' hne).trans hd₁,hfit₁⟩
    · by_cases heq₁ : g₁ = g
      · subst heq₁
        cases hself.symm.trans hd₁
        exact (hfit r row (hin h₁) hr).2.2 g₂ h₂ hne.symm d₂ ((hother g₂ hne.symm).symm.trans hd₂)
      · by_cases heq₂ : g₂ = g
        · subst heq₂
          cases hself.symm.trans hd₂
          exact ((hfit r row (hin h₂) hr).2.2 g₁ h₁ hne d₁ ((hother g₁ hne).symm.trans hd₁)).symm
        · exact hapart g₁ h₁ g₂ h₂ hne d₁ d₂ ((hother g₁ heq₁).symm.trans hd₁)
            ((hother g₂ heq₂).symm.trans hd₂)
  · intro g' hfresh
    have hne : g' ≠ g := by
      rintro rfl
      cases hg.symm.trans (h.freshGlyph g' hfresh)
    exact (hother g' hne).trans (h.freshGlyph g' hfresh)

def CacheRow.linking (row : CacheRow) (g : ℕ) (own : Prop) [Decidable own] : CacheRow :=
  if own then {row with glyphs := row.glyphs ++ [g]} else row

theorem CacheRow.linking_of_not (row : CacheRow) (g : ℕ) {own : Prop} [Decidable own] (h : ¬ own) :
    row.linking g own = row := if_neg h

theorem CacheRow.mem_linking {row : CacheRow} {g g' : ℕ} {own : Prop} [Decidable own] :
    g' ∈ (row.linking g own).glyphs ↔ g' ∈ row.glyphs ∨ own ∧ g' = g := by
  unfold CacheRow.linking
  split_ifs with h
  · rw [List.mem_append,List.mem_singleton,and_iff_right h]
  · exact ⟨.inl,fun hor => hor.resolve_right fun hand => h hand.1⟩

/-- A new glyph is entered, and linked to its row if it has one. -/
theorem Inv.enter (h : Inv cfg skip x) (hfresh : x.glyphs g = none) (hg : g < x.nextGlyph)
    (hkey : x.hash.lookup d.key = none) {rows : AList fun _ : ℕ => CacheRow}
    (hrows : ∀ r, rows.lookup r = (x.rows.lookup r).map (·.linking g (d.row = some r)))
    (hlen : rows.keys.length = x.rows.keys.length)
    (hfit : ∀ r, d.row = some r → ∃ row, x.rows.lookup r = some row ∧ Fits x g row d) :
    Inv cfg skip (State.enter {x with rows} g d) := by
  have hself : update x.glyphs g (some d.insert) g = some d.insert :=
    update_self ..
  have hother : ∀ g', g' ≠ g → update x.glyphs g (some d.insert) g' = x.glyphs g' :=
    fun g' hne => update_of_ne hne ..
  have hold : ∀ {g' d₁}, x.glyphs g' = some d₁ → g' ≠ g := by
    rintro g' d₁ hg' rfl
    cases hfresh.symm.trans hg'
  have hhash : ∀ {k g'}, x.hash.lookup k = some g' →
      (x.hash.insert d.key g).lookup k = some g' := by
    intro k g' hk
    refine (AList.lookup_insert_ne ?_).trans hk
    rintro rfl
    cases hkey.symm.trans hk
  have hrow : ∀ {r row}, x.rows.lookup r = some row →
      rows.lookup r = some (row.linking g (d.row = some r)) :=
    fun {r row} hr => (hrows r).trans (congrArg (Option.map _) hr)
  refine {h with
    hash := ?_, glyph := ?_, linked := ?_, quick := ?_, small := ?_, row := ?_, caches := ?_,
    numRows := h.numRows.trans hlen.symm, freshGlyph := ?_, freshRow := ?_}
  · intro k g' hk
    by_cases hne : k = d.key
    · subst hne
      cases (AList.lookup_insert x.hash).symm.trans hk
      exact ⟨d.insert,hself,rfl⟩
    · obtain ⟨d₁,hd₁,hkey₁⟩ := h.hash k g' ((AList.lookup_insert_ne hne).symm.trans hk)
      exact ⟨d₁,(hother g' (hold hd₁)).trans hd₁,hkey₁⟩
  · intro g' d₁ hd₁
    by_cases hne : g' = g
    · subst hne
      cases hself.symm.trans hd₁
      exact ⟨rfl,AList.lookup_insert x.hash⟩
    · obtain ⟨hinserted,hlookup⟩ := h.glyph g' d₁ ((hother g' hne).symm.trans hd₁)
      exact ⟨hinserted,hhash hlookup⟩
  · intro g' d₁ r hd₁ hr
    by_cases hne : g' = g
    · subst hne
      cases hself.symm.trans hd₁
      obtain ⟨row,hrow₁,-⟩ := hfit r hr
      exact ⟨_,hrow hrow₁,CacheRow.mem_linking.mpr (.inr ⟨hr,rfl⟩)⟩
    · obtain ⟨row,hrow₁,hmem⟩ := h.linked g' d₁ r ((hother g' hne).symm.trans hd₁) hr
      exact ⟨_,hrow hrow₁,CacheRow.mem_linking.mpr (.inl hmem)⟩
  · intro k g' hk hq
    change (if d.key.index < 128 then update x.quick d.key (some g) else x.quick) k = some g' at hq
    split_ifs at hq with hsmall
    · by_cases hne : k = d.key
      · subst hne
        rw [update_self] at hq
        cases hq
        exact AList.lookup_insert x.hash
      · rw [update_of_ne hne] at hq
        exact hhash (h.quick k g' hk hq)
    · exact hhash (h.quick k g' hk hq)
  · intro k g' hq
    change (if d.key.index < 128 then update x.quick d.key (some g) else x.quick) k = some g' at hq
    split_ifs at hq with hsmall
    · by_cases hne : k = d.key
      · rwa [hne]
      · rw [update_of_ne hne] at hq
        exact h.small k g' hq
    · exact h.small k g' hq
  · intro r row' hr'
    have hr' : rows.lookup r = some row' := hr'
    rw [hrows r,Option.map_eq_some_iff] at hr'
    obtain ⟨row,hr,rfl⟩ := hr'
    obtain ⟨hwidth,hnodup,hall,hapart⟩ := h.row r row hr
    have hlive : ∀ g' ∈ row.glyphs, ∃ d₁,
        update x.glyphs g (some d.insert) g' = some d₁ ∧ d₁.row = some r ∧
          d₁.start+d₁.width ≤ row.width ∧ d₁.start+d₁.width ≤ row.nextX := by
      intro g' hg'
      obtain ⟨d₁,hd₁,hfit₁⟩ := hall g' hg'
      exact ⟨d₁,(hother g' (hold hd₁)).trans hd₁,hfit₁⟩
    have hapart' : ∀ g₁ ∈ row.glyphs, ∀ g₂ ∈ row.glyphs, g₁ ≠ g₂ → ∀ d₁ d₂,
        update x.glyphs g (some d.insert) g₁ = some d₁ →
        update x.glyphs g (some d.insert) g₂ = some d₂ → Apart d₁ d₂ := by
      intro g₁ h₁ g₂ h₂ hne d₁ d₂ hd₁ hd₂
      obtain ⟨e₁,he₁,-⟩ := hall g₁ h₁
      obtain ⟨e₂,he₂,-⟩ := hall g₂ h₂
      exact hapart g₁ h₁ g₂ h₂ hne d₁ d₂ ((hother g₁ (hold he₁)).symm.trans hd₁)
        ((hother g₂ (hold he₂)).symm.trans hd₂)
    by_cases hown : d.row = some r
    · obtain ⟨row₁,hrow₁,hwithin,hbefore,hfar⟩ := hfit r hown
      cases hr.symm.trans hrow₁
      have hnot : g ∉ row.glyphs := fun hmem => by
        obtain ⟨d₁,hd₁,-⟩ := hall g hmem
        exact hold hd₁ rfl
      unfold CacheRow.linking
      rw [if_pos hown]
      refine ⟨hwidth,hnodup.append (List.nodup_singleton g)
        (fun a ha hag => hnot (List.mem_singleton.mp hag ▸ ha)),fun g' hg' => ?_,?_⟩
      · obtain hg' | hg' := List.mem_append.mp hg'
        · exact hlive g' hg'
        · obtain rfl := List.mem_singleton.mp hg'
          exact ⟨d.insert,hself,hown,hwithin,hbefore⟩
      · intro g₁ h₁ g₂ h₂ hne d₁ d₂ hd₁ hd₂
        obtain k₁ | k₁ := List.mem_append.mp h₁ <;> obtain k₂ | k₂ := List.mem_append.mp h₂
        · exact hapart' g₁ k₁ g₂ k₂ hne d₁ d₂ hd₁ hd₂
        · obtain rfl := List.mem_singleton.mp k₂
          cases hself.symm.trans hd₂
          exact (hfar g₁ k₁ hne d₁ ((hother g₁ hne).symm.trans hd₁)).symm
        · obtain rfl := List.mem_singleton.mp k₁
          cases hself.symm.trans hd₁
          exact hfar g₂ k₂ hne.symm d₂ ((hother g₂ hne.symm).symm.trans hd₂)
        · exact absurd ((List.mem_singleton.mp k₁).trans (List.mem_singleton.mp k₂).symm) hne
    · rw [CacheRow.linking_of_not _ _ hown]
      exact ⟨hwidth,hnodup,hlive,hapart'⟩
  · intro t r hr
    obtain ⟨ht,row,hrow₁,hc⟩ := h.caches t r hr
    refine ⟨ht,_,hrow hrow₁,?_⟩
    unfold CacheRow.linking
    split_ifs <;> exact hc
  · intro g' hfresh'
    have hle : x.nextGlyph ≤ g' := hfresh'
    exact (hother g' (by omega)).trans (h.freshGlyph g' hle)
  · intro r hfresh'
    exact (hrows r).trans (congrArg (Option.map _) (h.freshRow r hfresh'))

theorem Inv.enter_unlinked (h : Inv cfg skip x) (hfresh : x.glyphs g = none)
    (hg : g < x.nextGlyph) (hkey : x.hash.lookup d.key = none) (hd : d.row = none) :
    Inv cfg skip (x.enter g d) := by
  refine h.enter hfresh hg hkey (fun r => ?_) rfl fun r hr => by cases hd.symm.trans hr
  cases x.rows.lookup r with
  | none => rfl
  | some row =>
    have hnot : ¬ d.row = some r := fun hr => by cases hd.symm.trans hr
    exact congrArg some (CacheRow.linking_of_not row g hnot).symm

theorem Inv.enter_linked (h : Inv cfg skip x) (hfresh : x.glyphs g = none)
    (hg : g < x.nextGlyph) (hkey : x.hash.lookup d.key = none) (hd : d.row = some r)
    (hr : x.rows.lookup r = some row)
    (hfit : Fits x g row d) :
    Inv cfg skip ((x.link g (some r)).enter g d) := by
  have hlink : x.link g (some r) = x.putRow r {row with glyphs := row.glyphs ++ [g]} := by
    unfold State.link
    dsimp only
    rw [hr]
  rw [hlink]
  refine h.enter hfresh hg hkey (fun r' => ?_) (length_insert hr _) fun r' hr' => ?_
  · by_cases hne : r' = r
    · subst hne
      rw [AList.lookup_insert,hr]
      unfold CacheRow.linking
      rw [Option.map_some,if_pos hd]
    · rw [AList.lookup_insert_ne hne]
      cases x.rows.lookup r' with
      | none => rfl
      | some row' =>
        have hnot : ¬ d.row = some r' := fun h' => hne (Option.some.inj (h'.symm.trans hd))
        exact congrArg some (CacheRow.linking_of_not row' g hnot).symm
  · obtain rfl : r = r' := Option.some.inj (hd.symm.trans hr')
    exact ⟨row,hr,hfit⟩

end Glyphs

theorem foldl_pick {f : Option (ℕ × ℕ) → ℕ → Option (ℕ × ℕ)} {p : ℕ → Prop} (l : List ℕ)
    (hf : ∀ c, ∀ r ∈ l, f c r = c ∨ p r ∧ ∃ n, f c r = some (r,n)) :
    ∀ c, (∀ q, c = some q → p q.1) → ∀ q, l.foldl f c = some q → p q.1 := by
  induction l with
  | nil => exact fun c hc q hq => hc q hq
  | cons r l ih =>
    intro c hc
    refine ih (fun c r' hr' => hf c r' (List.mem_cons_of_mem _ hr')) (f c r) fun q hq => ?_
    obtain hsame | ⟨hp,n,hpick⟩ := hf c r List.mem_cons_self
    · exact hc q (hsame.symm.trans hq)
    · rw [hpick] at hq
      rwa [← Option.some.inj hq]

section Operations
variable {cfg : Config} {skip : GlyphKey → Prop} {x : State} {g r : ℕ} {d : CoreGlyphData}
  {row : CacheRow} {t : CacheType} {width : ℕ} {o : Outcome}

theorem findLruRow_live {order : Order CacheType} (h : x.findLruRow order = some r) :
    ∃ row, x.rows.lookup r = some row := by
  obtain ⟨q,hq,rfl⟩ := Option.map_eq_some_iff.mp h
  refine foldl_pick (p := fun r => ∃ row, x.rows.lookup r = some row) _ (fun c r _ => ?_) none
    (fun q hq => by cases hq) q hq
  unfold State.lru
  cases hr : x.rows.lookup r with
  | none => exact .inl rfl
  | some row =>
    cases c with
    | none => exact .inr ⟨⟨row,rfl⟩,_,rfl⟩
    | some c =>
      dsimp only
      split_ifs
      · exact .inr ⟨⟨row,rfl⟩,_,rfl⟩
      · exact .inl rfl

theorem room_some {n : ℕ} (h : x.room cfg t width r = some n) :
    ∃ row, x.rows.lookup r = some row ∧ row.nextX+width ≤ rowWidth cfg t := by
  unfold State.room at h
  cases hr : x.rows.lookup r with
  | none =>
    rw [hr] at h
    cases h
  | some row =>
    rw [hr] at h
    dsimp only at h
    split_ifs at h with hfit
    exact ⟨row,rfl,hfit⟩

/-- A row that is found is one of the cache, and has room. -/
theorem findRow_fits (h : x.findRow cfg t width = some r) :
    r ∈ x.cacheRows t ∧ ∃ row, x.rows.lookup r = some row ∧ row.nextX+width ≤ rowWidth cfg t := by
  unfold State.findRow at h
  split at h
  · rename_i r' hhead
    cases h
    obtain ⟨hmem,hroom⟩ := Option.filter_eq_some_iff.mp hhead
    obtain ⟨n,hn⟩ := Option.isSome_iff_exists.mp hroom
    exact ⟨List.mem_of_mem_head? hmem,room_some hn⟩
  · obtain ⟨q,hq,rfl⟩ := Option.map_eq_some_iff.mp h
    refine foldl_pick (p := fun r => r ∈ x.cacheRows t ∧ ∃ row, x.rows.lookup r = some row ∧
      row.nextX+width ≤ rowWidth cfg t) _ (fun c r hr => ?_) none (fun q hq => by cases hq) q hq
    unfold State.best
    cases hroom : x.room cfg t width r with
    | none => exact .inl rfl
    | some n =>
      have hfits := room_some hroom
      cases c with
      | none => exact .inr ⟨⟨hr,hfits⟩,_,rfl⟩
      | some c =>
        dsimp only
        split_ifs
        · exact .inr ⟨⟨hr,hfits⟩,_,rfl⟩
        · exact .inl rfl

theorem height_le_rowWidth (cfg : Config) (t : CacheType) : t.height ≤ rowWidth cfg t := by
  unfold rowWidth
  dsimp only
  split_ifs <;> omega

theorem le_advance (font : CoreFont) (width : ℕ) : width ≤ font.advance width := by
  unfold CoreFont.advance
  dsimp only
  generalize 8/(if font.bytesPerPixel = 0 then 1 else font.bytesPerPixel)*(font.alignment+1)-1 = a
  have hle : (width+a) &&& a ≤ a := Nat.and_le_right
  omega

structure Fewer (x y : State) : Prop where
  nextGlyph : y.nextGlyph = x.nextGlyph
  glyphs : ∀ g, x.glyphs g = none → y.glyphs g = none
  hash : ∀ k, x.hash.lookup k = none → y.hash.lookup k = none

theorem Fewer.refl (x : State) : Fewer x x := ⟨rfl,fun _ h => h,fun _ h => h⟩

theorem Fewer.trans {x y z : State} (h : Fewer x y) (h' : Fewer y z) : Fewer x z :=
  ⟨h'.nextGlyph.trans h.nextGlyph,fun g hg => h'.glyphs g (h.glyphs g hg),
    fun k hk => h'.hash k (h.hash k hk)⟩

theorem lookup_erase_none {s : AList fun _ : GlyphKey => ℕ} {k : GlyphKey}
    (h : s.lookup k = none) (k' : GlyphKey) : (s.erase k').lookup k = none := by
  by_cases hne : k = k'
  · subst hne
    exact AList.lookup_erase k s
  · exact (AList.lookup_erase_ne hne).trans h

theorem kickOut_fewer (x : State) (g : ℕ) : Fewer x (x.kickOut g) := by
  unfold State.kickOut
  cases x.glyphs g with
  | none => exact ⟨rfl,fun _ h => h,fun _ h => h⟩
  | some d =>
    refine ⟨rfl,fun g' hg' => ?_,fun k hk => lookup_erase_none hk d.key⟩
    change update x.glyphs g none g' = none
    by_cases hne : g' = g
    · subst hne
      exact update_self ..
    · exact (update_of_ne hne ..).trans hg'

theorem destroyRow_fewer (x : State) (r : ℕ) (row : CacheRow) : Fewer x (x.destroyRow r row) := by
  have hfold : ∀ l : List ℕ, ∀ x : State, Fewer x (l.foldl State.kickOut x) := by
    intro l
    induction l with
    | nil => exact Fewer.refl
    | cons g l ih => exact fun x => (kickOut_fewer x g).trans (ih (x.kickOut g))
  obtain ⟨hnext,hglyphs,hhash⟩ := hfold row.glyphs x
  exact ⟨hnext,hglyphs,hhash⟩

/-- A row is thrown out, and there is one less. -/
theorem Inv.removeLruRow (h : Inv cfg skip x) (order : Order CacheType) :
    Inv cfg skip (x.removeLruRow order).1 ∧ Fewer x (x.removeLruRow order).1 ∧
      (x.removeLruRow order).1.caches = x.caches ∧
      ((x.removeLruRow order).2 = .ok → (x.removeLruRow order).1.numRows < x.numRows) := by
  unfold State.removeLruRow
  cases hfind : x.findLruRow order with
  | none => exact ⟨h,.refl x,rfl,fun hret => by cases hret⟩
  | some r =>
    obtain ⟨row,hr⟩ := findLruRow_live hfind
    dsimp only
    rw [hr]
    have hfold : ∀ l : List ℕ, ∀ x : State, (l.foldl State.kickOut x).caches = x.caches ∧
        (l.foldl State.kickOut x).numRows = x.numRows := by
      intro l
      induction l with
      | nil => exact fun x => ⟨rfl,rfl⟩
      | cons g l ih =>
        intro x
        have hone : (x.kickOut g).caches = x.caches ∧ (x.kickOut g).numRows = x.numRows := by
          unfold State.kickOut
          cases x.glyphs g <;> exact ⟨rfl,rfl⟩
        exact ⟨(ih _).1.trans hone.1,(ih _).2.trans hone.2⟩
    obtain ⟨hcaches,hcount⟩ := hfold row.glyphs x
    refine ⟨h.destroyRow hr,destroyRow_fewer x r row,hcaches,fun _ => ?_⟩
    change (row.glyphs.foldl State.kickOut x).numRows-1 < x.numRows
    have hpos := List.length_pos_of_mem (mem_keys_of_lookup hr)
    rw [hcount,h.numRows]
    exact Nat.sub_lt hpos Nat.one_pos

/-- The row that a new glyph gets has room for it. -/
theorem Inv.getRow (h : Inv cfg skip x) (ht : t ∈ x.caches) (hwidth : width ≤ rowWidth cfg t) :
    Inv cfg skip (x.getRow cfg t width o).1 ∧ Fewer x (x.getRow cfg t width o).1 ∧
      ∀ r, (x.getRow cfg t width o).2 = .ok r →
        ∃ row, (x.getRow cfg t width o).1.rows.lookup r = some row ∧
          row.nextX+width ≤ row.width := by
  unfold State.getRow
  cases hfind : x.findRow cfg t width with
  | some r =>
    obtain ⟨hmem,row,hr,hfit⟩ := findRow_fits hfind
    obtain ⟨-,row',hr',hc⟩ := h.caches t r hmem
    cases hr.symm.trans hr'
    refine ⟨h,.refl x,fun r' hr' => ?_⟩
    cases hr'
    refine ⟨row,hr,?_⟩
    rwa [(h.row r row hr).width,hc]
  | none =>
    dsimp only
    have hremove := h.removeLruRow o.caches
    have hy : ∃ y : State × DirectResult,
        (if x.numRows = cfg.maxRows then x.removeLruRow o.caches else (x,.ok)) = y ∧
        Inv cfg skip y.1 ∧ Fewer x y.1 ∧ y.1.caches = x.caches ∧
        (y.2 = .ok → y.1.numRows < cfg.maxRows) := by
      by_cases hmax : x.numRows = cfg.maxRows
      · rw [if_pos hmax]
        exact ⟨_,rfl,hremove.1,hremove.2.1,hremove.2.2.1,fun hret => hmax ▸ hremove.2.2.2 hret⟩
      · rw [if_neg hmax]
        exact ⟨_,rfl,h,.refl x,rfl,fun _ => lt_of_le_of_ne h.maxRows hmax⟩
    obtain ⟨y,hy,hinv,hfewer,hcaches,hless⟩ := hy
    rw [hy]
    split_ifs with hret hrow
    · exact ⟨hinv,hfewer,fun r hr => by cases hr⟩
    · exact ⟨hinv,hfewer,fun r hr => by cases hr⟩
    · refine ⟨hinv.createRow (hcaches ▸ ht) (hless (not_not.mp hret)),
        ⟨hfewer.nextGlyph,hfewer.glyphs,hfewer.hash⟩,fun r hr => ?_⟩
      cases hr
      exact ⟨_,AList.lookup_insert _,(Nat.zero_add width).trans_le hwidth⟩

theorem Inv.getCache (h : Inv cfg skip x) (t : CacheType) (o : Outcome) :
    Inv cfg skip (x.getCache t o).1 ∧ Fewer x (x.getCache t o).1 ∧
      ((x.getCache t o).2 = .ok → t ∈ (x.getCache t o).1.caches) := by
  unfold State.getCache
  split_ifs with hmem hret
  · exact ⟨h,.refl x,fun _ => hmem⟩
  · exact ⟨h,.refl x,fun hok => absurd hok hret⟩
  · refine ⟨{h with caches := fun t' r hr => ?_},⟨rfl,fun _ h => h,fun _ h => h⟩,
      fun _ => List.mem_append_right _ List.mem_cons_self⟩
    obtain ⟨ht',hrow⟩ := h.caches t' r hr
    exact ⟨List.mem_append_left _ ht',hrow⟩

theorem clear_fits (d : CoreGlyphData) (retry : Bool) : Fits x g row (d.clear retry) :=
  ⟨Nat.zero_le _,Nat.zero_le _,fun _ _ _ _ _ => .inl (Nat.zero_le _)⟩

theorem Inv.touch (h : Inv cfg skip x) (hr : x.rows.lookup r = some row) (advance : ℕ) :
    Inv cfg skip (x.touch r {row with nextX := row.nextX+advance}) :=
  h.putRow hr {row with nextX := row.nextX+advance, stamp := x.rowStamp} rfl rfl rfl
    (Nat.le_add_right _ _) _

theorem Inv.place_fits (h : Inv cfg skip x) (hr : x.rows.lookup r = some row)
    (hroom : row.nextX+width ≤ row.width) {advance : ℕ} (hadvance : width ≤ advance)
    (height : ℕ) (stamp : ℕ) :
    Fits x g {row with nextX := row.nextX+advance, stamp} (d.place r row.nextX width height) := by
  refine ⟨hroom,Nat.add_le_add_left hadvance _,fun g' hg' _ d' hd' => .inr ?_⟩
  obtain ⟨d₁,hd₁,-,-,hbefore⟩ := (h.row r row hr).live g' hg'
  rw [hd'] at hd₁
  rw [Option.some.inj hd₁]
  exact hbefore

theorem Inv.render_new (h : Inv cfg skip x) (hfresh : x.glyphs g = none) (hg : g < x.nextGlyph)
    {k : GlyphKey} (hkey : x.hash.lookup k = none) (hr : x.rows.lookup r = some row)
    (hroom : row.nextX+o.width.toNat ≤ row.width) :
    Inv cfg skip (x.render cfg g (newGlyph k) r o) := by
  have hadvance := le_advance (cfg.fonts (newGlyph k).key.font) o.width.toNat
  unfold State.render
  rw [hr]
  dsimp only
  generalize (cfg.fonts (newGlyph k).key.font).advance o.width.toNat = advance at hadvance ⊢
  have htouch := h.touch hr advance
  have hlookup : (x.touch r {row with nextX := row.nextX+advance}).rows.lookup r =
      some {row with nextX := row.nextX+advance, stamp := x.rowStamp} := AList.lookup_insert _
  split_ifs
  · exact htouch.enter_linked hfresh hg hkey rfl hlookup (clear_fits _ _)
  · exact htouch.enter_linked hfresh hg hkey rfl hlookup (h.place_fits hr hroom hadvance _ _)

theorem Inv.render_again (h : Inv cfg skip x) (hg : x.glyphs g = some d) (hd : d.row = some r)
    (hr : x.rows.lookup r = some row) (hroom : row.nextX+o.width.toNat ≤ row.width) :
    Inv cfg skip (x.render cfg g d r o) := by
  have hinserted := (h.glyph g d hg).1
  have hadvance := le_advance (cfg.fonts d.key.font) o.width.toNat
  unfold State.render
  rw [hr]
  dsimp only
  generalize (cfg.fonts d.key.font).advance o.width.toNat = advance at hadvance ⊢
  have htouch := h.touch hr advance
  have hlookup : (x.touch r {row with nextX := row.nextX+advance}).rows.lookup r =
      some {row with nextX := row.nextX+advance, stamp := x.rowStamp} := AList.lookup_insert _
  have hglyph : (x.touch r {row with nextX := row.nextX+advance}).glyphs g = some d := hg
  have hput : ∀ d' : CoreGlyphData, d'.key = d.key → d'.inserted = true → d'.row = some r →
      Fits x g {row with nextX := row.nextX+advance, stamp := x.rowStamp} d' →
      Inv cfg skip ((x.touch r {row with nextX := row.nextX+advance}).out g d' (some r)) := by
    intro d' hkey hinserted' hrow hfits
    unfold State.out
    rw [if_pos hinserted',hglyph]
    refine htouch.putGlyph hglyph hkey hinserted' (hrow.trans hd.symm) fun r' row' hr' hrow' => ?_
    obtain rfl : r = r' := Option.some.inj (hd.symm.trans hr')
    cases hlookup.symm.trans hrow'
    exact hfits
  split_ifs
  · exact hput _ rfl hinserted rfl (clear_fits _ _)
  · exact hput _ rfl hinserted rfl (h.place_fits hr hroom hadvance _ _)

theorem width_le_height (font : CoreFont) (width height : ℕ) :
    width ≤ (font.cacheType width height).height :=
  (le_max_right height width).trans ((le_max_right _ _).trans (le_max_left _ _))

theorem Inv.load_new (h : Inv cfg skip x) (hfresh : x.glyphs g = none) (hg : g < x.nextGlyph)
    {k : GlyphKey} (hkey : x.hash.lookup k = none) :
    Inv cfg skip (x.load cfg g (newGlyph k) o).1 := by
  have hfree : ∀ y : State, Inv cfg skip y → Fewer x y → Inv cfg skip (y.free g (newGlyph k)) := by
    intro y hy hfewer
    unfold State.free
    rw [if_neg (fun hand => by cases hand.1)]
    unfold State.dropGlyph
    rw [← hfewer.glyphs g hfresh,update_eq_self]
    exact hy
  unfold State.load
  split_ifs with hglyph hsize
  · exact h.enter_unlinked hfresh hg hkey rfl
  · exact h.enter_unlinked hfresh hg hkey rfl
  dsimp only
  obtain ⟨hcache,hfewer,hmem⟩ := h.getCache
    ((cfg.fonts (newGlyph k).key.font).cacheType o.width.toNat o.height.toNat) o
  generalize hy : x.getCache ((cfg.fonts (newGlyph k).key.font).cacheType o.width.toNat
    o.height.toNat) o = y at hcache hfewer hmem
  split_ifs with hret
  · exact hfree y.1 hcache hfewer
  obtain ⟨hrow,hfewer',hfit⟩ := hcache.getRow (o := o) (hmem (not_not.mp hret))
    ((width_le_height _ _ o.height.toNat).trans (height_le_rowWidth cfg _))
  generalize y.1.getRow cfg ((cfg.fonts (newGlyph k).key.font).cacheType o.width.toNat
    o.height.toNat) o.width.toNat o = z at hrow hfewer' hfit
  have hall := hfewer.trans hfewer'
  cases hz : z.2 with
  | error ret => exact hfree z.1 hrow hall
  | ok r =>
    obtain ⟨row,hr,hroom⟩ := hfit r hz
    exact hrow.render_new (hall.glyphs g hfresh) (by rwa [hall.nextGlyph]) (hall.hash k hkey) hr
      hroom

/-- A glyph that is loaded again gets its pixels, if any, in the row that it is in. -/
theorem Inv.load_again (h : Inv cfg skip x) (hg : x.glyphs g = some d)
    (hagain : o.glyph = .ok → 1 ≤ o.width → 1 ≤ o.height → ∃ r, d.row = some r ∧
      x.findRow cfg ((cfg.fonts d.key.font).cacheType o.width.toNat o.height.toNat)
        o.width.toNat = some r) :
    Inv cfg skip (x.load cfg g d o).1 := by
  have hinserted := (h.glyph g d hg).1
  have hclear : ∀ retry, Inv cfg skip (x.out g (d.clear retry) none) := by
    intro retry
    unfold State.out
    rw [if_pos (show (d.clear retry).inserted = true from hinserted),hg]
    exact h.putGlyph hg rfl hinserted rfl fun r row _ _ => clear_fits _ _
  unfold State.load
  split_ifs with hglyph hsize
  · exact hclear _
  · exact hclear _
  obtain ⟨r,hd,hfind⟩ := hagain (not_not.mp hglyph) (by omega) (by omega)
  dsimp only
  generalize (cfg.fonts d.key.font).cacheType o.width.toNat o.height.toNat = t at hfind ⊢
  obtain ⟨hmem,row,hr,hfit⟩ := findRow_fits hfind
  obtain ⟨ht,row',hr',hc⟩ := h.caches t r hmem
  cases hr.symm.trans hr'
  have hcache : x.getCache t o = (x,.ok) := if_pos ht
  have hrow : x.getRow cfg t o.width.toNat o = (x,.ok r) := by
    unfold State.getRow
    rw [hfind]
  rw [hcache,if_neg (not_not_intro rfl),hrow]
  refine h.render_again hg hd hr ?_
  rwa [(h.row r row hr).width,hc]

theorem room_touch (hr : x.rows.lookup r = some row) (t : CacheType) (width r' : ℕ) :
    (x.touch r row).room cfg t width r' = x.room cfg t width r' := by
  change (match (x.rows.insert r {row with stamp := x.rowStamp}).lookup r' with
    | none => none
    | some row => if row.nextX+width ≤ rowWidth cfg t then some row.nextX else none) = _
  unfold State.room
  by_cases hne : r' = r
  · subst hne
    rw [AList.lookup_insert,hr]
  · rw [AList.lookup_insert_ne hne]

theorem findRow_touch (hr : x.rows.lookup r = some row) (t : CacheType) (width : ℕ) :
    (x.touch r row).findRow cfg t width = x.findRow cfg t width := by
  have hbest : (x.touch r row).best cfg t width = x.best cfg t width := by
    funext c r'
    unfold State.best
    rw [room_touch hr]
  unfold State.findRow
  rw [hbest]
  change (match (x.cacheRows t).head?.filter fun r' => ((x.touch r row).room cfg t width r').isSome
    with | some r => some r | none => ((x.cacheRows t).foldl (x.best cfg t width) none).map _) = _
  simp only [room_touch hr]

theorem Inv.touchRow (h : Inv cfg skip x) (hg : x.glyphs g = some d) :
    Inv cfg skip (x.touchRow d.row) ∧ (x.touchRow d.row).glyphs = x.glyphs ∧
      ∀ t width, (x.touchRow d.row).findRow cfg t width = x.findRow cfg t width := by
  cases hd : d.row with
  | none => exact ⟨h,rfl,fun _ _ => rfl⟩
  | some r =>
    obtain ⟨row,hr,-⟩ := h.linked g d r hg hd
    have htouch : x.touchRow (some r) = x.touch r row := by
      unfold State.touchRow
      dsimp only
      rw [hr]
    rw [htouch]
    exact ⟨h.putRow hr {row with stamp := x.rowStamp} rfl rfl rfl le_rfl _,rfl,findRow_touch hr⟩

end Operations

def Kept (cfg : Config) (x : State) : Call → Prop
  | .getGlyphData k o => ∀ g d, x.hash.lookup k = some g → x.glyphs g = some d → d.retry = true →
    o.glyph = .ok → 1 ≤ o.width → 1 ≤ o.height → ∃ r, d.row = some r ∧
      x.findRow cfg ((cfg.fonts k.font).cacheType o.width.toNat o.height.toNat) o.width.toNat =
        some r
  | .dispose _ _ => True

def Whole (cfg : Config) (x : State) : Prop := Inv cfg (fun _ => False) x

section Calls
variable {cfg : Config} {x : State}

theorem Whole.getGlyphData (h : Whole cfg x) {k : GlyphKey} {o : Outcome}
    (hkept : Kept cfg x (.getGlyphData k o)) : Whole cfg (x.getGlyphData cfg k o).1 := by
  unfold State.getGlyphData
  cases hquick : if k.index < 128 then x.quick k else none with
  | some g =>
    have hq : x.quick k = some g := by
      split_ifs at hquick
      exact hquick
    have hlookup := h.quick k g not_false hq
    obtain ⟨d,hg,rfl⟩ := h.hash k g hlookup
    dsimp only
    rw [hg]
    dsimp only
    split_ifs with hretry
    · exact h.load_again hg (hkept g d hlookup hg hretry)
    · exact h
  | none =>
    cases hlookup : x.hash.lookup k with
    | some g =>
      obtain ⟨d,hg,rfl⟩ := h.hash k g hlookup
      obtain ⟨htouch,hglyphs,hfind⟩ := h.touchRow hg
      dsimp only
      rw [hg]
      dsimp only
      split_ifs with hretry
      · refine htouch.load_again ((congrFun hglyphs g).trans hg) fun hok hwidth hheight => ?_
        rw [hfind]
        exact hkept g d hlookup hg hretry hok hwidth hheight
      · exact htouch
    | none =>
      dsimp only
      split_ifs
      · exact h
      · have hnext : Inv cfg (fun _ => False) {x with nextGlyph := x.nextGlyph+1} :=
          {h with freshGlyph := fun g hg => h.freshGlyph g (Nat.le_of_succ_le hg)}
        exact hnext.load_new (h.freshGlyph _ le_rfl) (Nat.lt_succ_self _) hlookup

theorem destroyRow_empty (x : State) (r : ℕ) {row : CacheRow} (h : row.glyphs = []) :
    x.destroyRow r row = x.removeRow r row.cache := by
  unfold State.destroyRow
  rw [h]
  rfl

/-- A glyph is freed, of which the key is left out of the quick array for now. -/
theorem Inv.freeGlyphs {skip : GlyphKey → Prop} (h : Inv cfg skip x) {k : GlyphKey} (hk : skip k) :
    Inv cfg skip (x.freeGlyphs k) := by
  unfold State.freeGlyphs
  cases hlookup : x.hash.lookup k with
  | none => exact h
  | some g =>
    obtain ⟨d,hg,rfl⟩ := h.hash k g hlookup
    dsimp only
    rw [hg]
    dsimp only
    cases hd : d.row with
    | none => exact h.release_unlinked hg hd x.quick (fun _ _ hq => hq) (.inl hk)
    | some r =>
      obtain ⟨row,hr,hmem⟩ := h.linked g d r hg hd
      have hrelease := h.release_linked hg hd hr x.quick (fun _ _ hq => hq) (.inl hk)
      have hrow : (x.dropHash d.key).rows.lookup r = some row := hr
      unfold State.unlink
      dsimp only
      rw [hrow]
      dsimp only
      rw [if_pos hmem]
      split_ifs with hempty
      · rw [destroyRow_empty _ r hempty]
        exact hrelease.removeRow (AList.lookup_insert _) hempty
      · exact hrelease

theorem Whole.disposeLayer (h : Whole cfg x) (font : ℕ) (layer : Fin 2) (o : Order GlyphKey) :
    Whole cfg (x.disposeLayer font layer o) := by
  have hfold : ∀ l : List GlyphKey, (∀ k ∈ l, k.font = font ∧ k.layer = layer) → ∀ x : State,
      Inv cfg (fun k => k.font = font ∧ k.layer = layer) x →
      Inv cfg (fun k => k.font = font ∧ k.layer = layer) (l.foldl State.freeGlyphs x) := by
    intro l
    induction l with
    | nil => exact fun _ _ h => h
    | cons k l ih =>
      intro hl x hx
      exact ih (fun k' hk' => hl k' (List.mem_cons_of_mem _ hk')) _
        (hx.freeGlyphs (hl k List.mem_cons_self))
  have hkeys : ∀ k ∈ o.order (x.layerKeys font layer), k.font = font ∧ k.layer = layer := by
    intro k hk
    have hmem := (o.perm _).mem_iff.mp hk
    exact of_decide_eq_true (List.mem_filter.mp hmem).2
  have hfreed := hfold _ hkeys x {h with quick := fun k g _ hq => h.quick k g not_false hq}
  unfold State.disposeLayer
  refine {hfreed with
    quick := fun k g _ hq => ?_, small := fun k g hq => ?_}
  · dsimp only at hq
    split_ifs at hq with hk
    exact hfreed.quick k g hk hq
  · dsimp only at hq
    split_ifs at hq with hk
    exact hfreed.small k g hq

end Calls

/-- The glyphs in the hash are live and are in their row once and in no other; the quick array has
what is in the hash; the rows that are live are counted, and are no more than the maximum; the
glyphs of a row are inside its surface and apart; nothing was accessed that was not live. -/
structure Integrity (cfg : Config) (x : State) : Prop where
  glyph : ∀ k g, x.hash.lookup k = some g → ∃ d, x.glyphs g = some d ∧
    (∀ r, d.row = some r → ∃ row, x.rows.lookup r = some row ∧ row.glyphs.count g = 1) ∧
    ∀ r row, x.rows.lookup r = some row → d.row ≠ some r → g ∉ row.glyphs
  quick : ∀ k, k.index < 128 → x.quick k = none ∨ x.quick k = x.hash.lookup k
  rows : x.numRows = x.rows.keys.length ∧ x.numRows ≤ cfg.maxRows
  inside : ∀ g d r row, x.glyphs g = some d → d.row = some r → x.rows.lookup r = some row →
    d.start+d.width ≤ row.width
  apart : ∀ g g' d d', g ≠ g' → x.glyphs g = some d → x.glyphs g' = some d' → d.row.isSome = true →
    d'.row = d.row → Apart d d'
  fault : x.fault = false

theorem Whole.integrity {cfg : Config} {x : State} (h : Whole cfg x) : Integrity cfg x := by
  refine ⟨fun k g hk => ?_,fun k _ => ?_,⟨h.numRows,h.maxRows⟩,fun g d r row hg hd hr => ?_,
    fun g g' d d' hne hg hg' hsome hsame => ?_,h.fault⟩
  · obtain ⟨d,hg,-⟩ := h.hash k g hk
    refine ⟨d,hg,fun r hd => ?_,fun r row hr hne hmem => ?_⟩
    · obtain ⟨row,hr,hmem⟩ := h.linked g d r hg hd
      exact ⟨row,hr,List.count_eq_one_of_mem (h.row r row hr).nodup hmem⟩
    · obtain ⟨d',hd',hrow,-⟩ := (h.row r row hr).live g hmem
      cases hg.symm.trans hd'
      exact hne hrow
  · cases hq : x.quick k with
    | none => exact .inl rfl
    | some g => exact .inr (h.quick k g not_false hq).symm
  · obtain ⟨row',hr',hmem⟩ := h.linked g d r hg hd
    cases hr.symm.trans hr'
    obtain ⟨d',hd',-,hin,-⟩ := (h.row r row hr).live g hmem
    cases hg.symm.trans hd'
    exact hin
  · obtain ⟨r,hd⟩ := Option.isSome_iff_exists.mp hsome
    obtain ⟨row,hr,hmem⟩ := h.linked g d r hg hd
    obtain ⟨row',hr',hmem'⟩ := h.linked g' d' r hg' (hsame.trans hd)
    cases hr.symm.trans hr'
    exact (h.row r row hr).apart g hmem g' hmem' hne d d' hg hg'

theorem init_whole (cfg : Config) : Whole cfg init :=
  ⟨rfl,(fun _ _ h => by cases h),(fun _ _ h => by cases h),(fun _ _ _ h => by cases h),
    (fun _ _ _ h => by cases h),(fun _ _ h => by cases h),(fun _ _ h => by cases h),
    (fun _ _ h => by cases h),fun _ => List.nodup_nil,rfl,Nat.zero_le _,fun _ _ => rfl,
    fun _ _ => rfl⟩

/-- In all runs in which a glyph that is tried again stays in its row the cache has integrity. -/
theorem cache_integrity {cfg : Config} {x : State}
    (h : Reaches (step cfg) (Kept cfg) (· = init) x) : Integrity cfg x := by
  refine Whole.integrity (h.invariant (Whole cfg) (fun x hx => ?_) fun x e y hx hkept hs => ?_)
  · subst hx
    exact init_whole cfg
  · cases e with
    | getGlyphData k o =>
      obtain rfl := Option.some.inj hs
      exact hx.getGlyphData hkept
    | dispose font o =>
      obtain rfl := Option.some.inj hs
      exact (hx.disposeLayer font 0 o).disposeLayer font 1 o

def smallConfig : Config := ⟨1,64,fun _ => ⟨8,4,4,0,0,true⟩⟩

/-- A glyph is not rendered at first, is tried again and placed behind its old pixels; another is
placed behind it, and both are there until their font is disposed. -/
theorem rendered_again : ∃ x y, Reaches (step smallConfig) (Kept smallConfig) (· = init) x ∧
    Integrity smallConfig x ∧
    (x.rows.lookup 0).map (fun row => (row.nextX,row.glyphs)) = some (16,[0,1]) ∧
    (x.glyphs 0).map (fun d => (d.start,d.width)) = some (4,3) ∧
    (x.glyphs 1).map (fun d => (d.start,d.width)) = some (8,8) ∧
    Reaches (step smallConfig) (Kept smallConfig) (· = init) y ∧ Integrity smallConfig y ∧
    y.numRows = 0 := by
  have hfirst : Reaches (step smallConfig) (Kept smallConfig) (· = init) _ :=
    .step (.getGlyphData ⟨0,0,65⟩ {width := 3, height := 4, render := .bufferEmpty}) (.init rfl)
      (fun g d hk => by cases hk) rfl
  have hagain : Reaches (step smallConfig) (Kept smallConfig) (· = init) _ :=
    .step (.getGlyphData ⟨0,0,65⟩ {width := 3, height := 4}) hfirst (fun g d hk hg _ _ _ _ => by
        obtain rfl := Option.some.inj hk
        obtain rfl := Option.some.inj hg
        exact ⟨0,rfl,rfl⟩) rfl
  have hother : Reaches (step smallConfig) (Kept smallConfig) (· = init) _ :=
    .step (.getGlyphData ⟨0,1,200⟩ {width := 8, height := 4}) hagain (fun g d hk => by cases hk) rfl
  have hdisposed : Reaches (step smallConfig) (Kept smallConfig) (· = init) _ :=
    .step (.dispose 0 ⟨id,fun l => .refl l⟩) hother trivial rfl
  exact ⟨_,_,hother,cache_integrity hother,rfl,rfl,rfl,hdisposed,cache_integrity hdisposed,rfl⟩

/-- A glyph that is tried again without a row gets one and is not linked to it. Where no row is
created for it, it is freed and stays in the hash. Where the row that it is in is thrown out, it is
freed and then written to. -/
theorem retry_breaks : ∃ x y z, Reaches (step smallConfig) (fun _ _ => True) (· = init) x ∧
    ¬ Integrity smallConfig x ∧
    Reaches (step smallConfig) (fun _ _ => True) (· = init) y ∧ ¬ Integrity smallConfig y ∧
    Reaches (step smallConfig) (fun _ _ => True) (· = init) z ∧ ¬ Integrity smallConfig z := by
  have hempty : Reaches (step smallConfig) (fun _ _ => True) (· = init) _ :=
    .step (.getGlyphData ⟨0,0,65⟩ {glyph := .bufferEmpty}) (.init rfl) trivial rfl
  have hagain : Reaches (step smallConfig) (fun _ _ => True) (· = init) _ :=
    .step (.getGlyphData ⟨0,0,65⟩ {width := 3, height := 4}) hempty trivial rfl
  have hfailed : Reaches (step smallConfig) (fun _ _ => True) (· = init) _ :=
    .step (.getGlyphData ⟨0,0,65⟩ {width := 3, height := 4, row := .noVideoMemory}) hempty trivial
      rfl
  have hrender : Reaches (step smallConfig) (fun _ _ => True) (· = init) _ :=
    .step (.getGlyphData ⟨0,0,65⟩ {width := 3, height := 4, render := .bufferEmpty}) (.init rfl)
      trivial rfl
  have hthrown : Reaches (step smallConfig) (fun _ _ => True) (· = init) _ :=
    .step (.getGlyphData ⟨0,0,65⟩ {width := 3, height := 40}) hrender trivial rfl
  refine ⟨_,_,_,hagain,fun h => ?_,hfailed,fun h => ?_,hthrown,fun h => ?_⟩
  · obtain ⟨d,hd,hrow,-⟩ := h.glyph ⟨0,0,65⟩ 0 rfl
    obtain rfl := Option.some.inj hd
    obtain ⟨row,hr,hcount⟩ := hrow 0 rfl
    obtain rfl := Option.some.inj hr
    cases hcount
  · obtain ⟨d,hd,-⟩ := h.glyph ⟨0,0,65⟩ 0 rfl
    cases hd
  · cases h.fault

end DirectFB.FontCache
