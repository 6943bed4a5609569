import DirectFB.FontDecode

/-! Where a text is broken into lines that are narrower than a maximum. -/
namespace DirectFB.FontBreak
open FontDecode

/-- What a font answers for characters, glyphs (by advance) and pairs of them (by kerning), and what
is made of the square root of the advances in both directions. -/
structure Font where
  getCharacterIndex : Option (ℕ → Option ℕ)
  glyph : ℕ → Option (ℤ × ℤ)
  getKerning : Option (ℕ → ℕ → Option (ℤ × ℤ))
  root : ℤ → ℤ
  root256 : ℤ → ℤ

/-- `dfb_font_decode_character` for `DTEID_UTF8`. -/
def Font.decodeCharacter (font : Font) (character : ℕ) : Option ℕ :=
  match font.getCharacterIndex with
  | none => some character
  | some answer => answer character

def Font.kerning (font : Font) (prev current : ℕ) : Option (ℤ × ℤ) :=
  if prev = 0 then none else font.getKerning.bind fun answer => answer prev current

/-- One glyph more in `IDirectFBFont_GetStringWidth`, after the sizes and the glyph before. -/
def measure (font : Font) (x : ℤ × ℤ × ℕ) (current : ℕ) : ℤ × ℤ × ℕ :=
  match font.glyph current with
  | none => (x.1,x.2.1,current)
  | some advance =>
    let kern := (font.kerning x.2.2 current).getD (0,0)
    (x.1+advance.1+kern.1*256,x.2.1+advance.2+kern.2*256,current)

/-- `IDirectFBFont_GetStringWidth` -/
def getStringWidth (font : Font) (text : ℕ → UInt8) (bytes : ℕ) : Option ℤ :=
  (decodeText text bytes (font.getCharacterIndex.map fun answer _ => answer)).map fun r =>
    let size := r.indices.foldl (measure font) (0,0,0)
    if size.2.1 = 0 then size.1/256
    else if size.1 = 0 then size.2.1/256
    else font.root256 (size.1*(size.1/256)+size.2.1*(size.2.1/256))

/-- The variables of `IDirectFBFont_GetStringBreak`, with pointers into the text as offsets. -/
structure Breaking where
  string : ℕ := 0
  last : ℕ := 0
  length : ℕ := 0
  xsize : ℤ := 0
  ysize : ℤ := 0
  width : ℤ := 0
  current : ℕ := 0
  prev : ℕ := 0
  retWidth : ℤ := 0
  retStrLength : ℕ := 0
  retNextLine : Option ℕ := none

/-- One pass of the loop. What is added to `width` before is overwritten. -/
def pass (font : Font) (text : ℕ → UInt8) (x : Breaking) : Breaking :=
  let current := (utf8GetChar text x.string).1
  let string := x.string+utf8Skip (text x.string).toNat
  let y := {x with
    string, current
    last := x.string
    length := x.length+1
    retWidth := x.width/256
    retStrLength := if current = 0x20 ∨ current = 0x0a then x.length else x.retStrLength
    retNextLine := if current = 0x20 ∨ current = 0x0a then some string else x.retNextLine}
  match font.decodeCharacter current with
  | none => y
  | some index =>
    match font.glyph index with
    | none => y
    | some advance =>
      let kern := (font.kerning x.prev index).getD (0,0)
      let xsize := x.xsize+advance.1+kern.1*256
      let ysize := x.ysize+advance.2+kern.2*256
      {y with
        xsize, ysize
        width :=
          if ysize = 0 then xsize
          else if xsize = 0 then ysize
          else font.root (xsize*(xsize/256)+ysize*(ysize/256))
        prev := index}

def GoesOn (bytes : ℕ) (maxWidth : ℤ) (x : Breaking) : Prop :=
  x.width/256 < maxWidth ∧ x.string < bytes ∧ x.current ≠ 0x0a

instance (bytes : ℕ) (maxWidth : ℤ) (x : Breaking) : Decidable (GoesOn bytes maxWidth x) :=
  inferInstanceAs (Decidable (_ ∧ _ ∧ _))

def passes (font : Font) (text : ℕ → UInt8) (bytes : ℕ) (maxWidth : ℤ) :
    ℕ → Breaking → Option Breaking
  | 0, _ => none
  | fuel+1, x =>
    let y := pass font text x
    if GoesOn bytes maxWidth y then passes font text bytes maxWidth fuel y else some y

structure Line where
  width : ℤ
  strLength : ℕ
  nextLine : Option ℕ

/-- `IDirectFBFont_GetStringBreak` -/
def getStringBreak (font : Font) (text : ℕ → UInt8) (bytes : ℕ) (maxWidth : ℤ) : Option Line :=
  if bytes = 0 then some ⟨0,0,none⟩
  else
    (passes font text bytes maxWidth bytes {}).map fun x =>
      if x.width/256 < maxWidth ∧ bytes ≤ x.string then ⟨x.width/256,x.length,none⟩
      else
        match x.retNextLine with
        | some next => ⟨x.retWidth,x.retStrLength,some next⟩
        | none =>
          if x.length = 1 then ⟨x.width/256,x.length,some x.string⟩
          else ⟨x.retWidth,x.length-1,some x.last⟩

def offset (chars : List Char) (k : ℕ) : ℕ := ((chars.take k).flatMap String.utf8EncodeChar).length

def Font.index (font : Font) (c : Char) : ℕ := (font.decodeCharacter c.toNat).getD 0

def sizes (font : Font) (chars : List Char) (k : ℕ) : ℤ × ℤ × ℕ :=
  ((chars.take k).map font.index).foldl (measure font) (0,0,0)

def reached (font : Font) (chars : List Char) (k : ℕ) : ℤ := (sizes font chars k).1/256

def Blank (chars : List Char) (k : ℕ) : Prop := chars[k]? = some ' ' ∨ chars[k]? = some '\n'

structure Plain (font : Font) (chars : List Char) : Prop where
  glyph : ∀ i a, font.glyph i = some a → a.2 = 0
  kerning : ∀ i j k, font.kerning i j = some k → k.2 = 0
  found : ∀ c ∈ chars, ∃ i a, font.decodeCharacter c.toNat = some i ∧ font.glyph i = some a

section Passes

variable {font : Font} {text : ℕ → UInt8} {bytes k : ℕ} {maxWidth : ℤ} {chars : List Char}
  {c : Char} {x : Breaking}

theorem offset_succ (hc : chars[k]? = some c) :
    offset chars (k+1) = offset chars k+(String.utf8EncodeChar c).length := by
  obtain ⟨hk,rfl⟩ := List.getElem?_eq_some_iff.mp hc
  rw [offset,List.take_succ_eq_append_getElem hk,List.flatMap_append,List.length_append,
    List.flatMap_singleton]
  rfl

theorem sizes_succ (hc : chars[k]? = some c) :
    sizes font chars (k+1) = measure font (sizes font chars k) (font.index c) := by
  obtain ⟨hk,rfl⟩ := List.getElem?_eq_some_iff.mp hc
  rw [sizes,List.take_succ_eq_append_getElem hk,List.map_append,List.foldl_append]
  rfl

theorem offset_add (htext : IsText text bytes chars) (k : ℕ) :
    offset chars k+((chars.drop k).flatMap String.utf8EncodeChar).length = bytes := by
  rw [offset,← List.length_append,← List.flatMap_append,List.take_append_drop,htext.length_eq]

theorem isText_split (htext : IsText text bytes chars) (k : ℕ) :
    IsText text (offset chars k) (chars.take k) ∧
      IsText (fun i => text (offset chars k+i)) (bytes-offset chars k) (chars.drop k) := by
  have hle : offset chars k+(bytes-offset chars k) = bytes :=
    Nat.add_sub_of_le ((Nat.le_add_right _ _).trans_eq (offset_add htext k))
  have hsplit := htext
  rw [IsText,← List.take_append_drop k chars,List.flatMap_append,← hle,List.range_add,
    List.map_append,List.map_map] at hsplit
  exact List.append_inj hsplit (by rw [List.length_map,List.length_range]; rfl)

/-- The character at an offset is read. -/
theorem char_at (htext : IsText text bytes chars) (hc : chars[k]? = some c) :
    (utf8GetChar text (offset chars k)).1 = c.toNat ∧
      offset chars k+utf8Skip (text (offset chars k)).toNat = offset chars (k+1) := by
  obtain ⟨hchar,hskip⟩ := utf8GetChar_encoded (p := offset chars k) (c := c) fun i b hb =>
    htext.byte (i := offset chars k+i) (b := b) (by
      obtain ⟨hk,rfl⟩ := List.getElem?_eq_some_iff.mp hc
      rw [← List.take_append_drop k chars,List.flatMap_append,offset,
        List.getElem?_append_right (by simp),List.take_append_drop,Nat.add_sub_cancel_left,
        List.drop_eq_getElem_cons hk,List.flatMap_cons,
        List.getElem?_append_left (List.getElem?_eq_some_iff.mp hb).1,hb])
  exact ⟨hchar,by rw [hskip,offset_succ hc]⟩

theorem Plain.index_eq (h : Plain font chars) (hc : chars[k]? = some c) :
    font.decodeCharacter c.toNat = some (font.index c) ∧
      ∃ a : ℤ, font.glyph (font.index c) = some (a,0) := by
  obtain ⟨i,a,hi,ha⟩ := h.found c (List.mem_of_getElem? hc)
  rw [Font.index,hi,Option.getD_some]
  exact ⟨rfl,a.1,by rw [ha,← h.glyph i a ha]⟩

theorem Plain.measure_eq (h : Plain font chars) {i : ℕ} {a : ℤ} (ha : font.glyph i = some (a,0))
    (x : ℤ × ℤ × ℕ) : measure font x i =
      (x.1+a+((font.kerning x.2.2 i).getD (0,0)).1*256,x.2.1,i) := by
  unfold measure
  rw [ha]
  cases hk : font.kerning x.2.2 i with
  | none => simp
  | some kern => simp [h.kerning _ _ kern hk]

theorem sizes_flat (h : Plain font chars) (hk : k ≤ chars.length) :
    (sizes font chars k).2.1 = 0 := by
  induction k with
  | zero => rfl
  | succ k ih =>
    have hc : chars[k]? = some chars[k] := List.getElem?_eq_getElem hk
    obtain ⟨-,a,ha⟩ := h.index_eq hc
    rw [sizes_succ hc,h.measure_eq ha]
    exact ih (Nat.le_of_succ_le hk)

def LastBlank (chars : List Char) (k j : ℕ) : Prop :=
  j < k ∧ Blank chars j ∧ ∀ i, j < i → i < k → ¬Blank chars i

structure At (font : Font) (chars : List Char) (k : ℕ) (x : Breaking) : Prop where
  string : x.string = offset chars k
  length : x.length = k
  xsize : x.xsize = (sizes font chars k).1
  ysize : x.ysize = 0
  width : x.width = (sizes font chars k).1
  prev : x.prev = (sizes font chars k).2.2
  unbroken : x.retNextLine = none → ∀ j < k, ¬Blank chars j
  broken : ∀ p, x.retNextLine = some p → ∃ j, LastBlank chars k j ∧ p = offset chars (j+1) ∧
    x.retStrLength = j

theorem blank_iff (hc : chars[k]? = some c) : Blank chars k ↔ c.toNat = 0x20 ∨ c.toNat = 0x0a := by
  have heq : ∀ d : Char, c = d ↔ c.toNat = d.toNat :=
    fun d => ⟨congrArg Char.toNat,fun h => Char.ext (UInt32.toNat.inj h)⟩
  rw [Blank,hc,Option.some.injEq,Option.some.injEq,heq,heq]
  rfl

theorem At.pass (hfont : Plain font chars) (htext : IsText text bytes chars) (h : At font chars k x)
    (hc : chars[k]? = some c) : At font chars (k+1) (pass font text x) ∧
      (pass font text x).last = offset chars k ∧ (pass font text x).current = c.toNat ∧
        (pass font text x).retWidth = reached font chars k := by
  obtain ⟨hchar,hskip⟩ := char_at htext hc
  obtain ⟨hdecode,a,ha⟩ := hfont.index_eq hc
  have hblank := blank_iff hc
  have hsizes : sizes font chars (k+1) = _ := sizes_succ hc
  rw [hfont.measure_eq ha,← h.prev,← h.xsize] at hsizes
  have hkern : ((font.kerning x.prev (font.index c)).getD (0,0)).2 = 0 := by
    cases hk : font.kerning x.prev (font.index c) with
    | none => rfl
    | some kern => exact hfont.kerning _ _ kern hk
  unfold FontBreak.pass
  dsimp only
  rw [h.string,hchar,hskip,hdecode]
  dsimp only
  rw [ha]
  dsimp only
  rw [h.ysize,hkern]
  refine ⟨⟨rfl,by rw [h.length],by rw [hsizes],by simp,by simp [hsizes],by rw [hsizes],
    fun hnone j hj => ?_,fun p hp => ?_⟩,rfl,rfl,by rw [h.width]; rfl⟩
  · dsimp only at hnone
    split_ifs at hnone with hc'
    obtain rfl | hj := Nat.eq_or_lt_of_le (Nat.le_of_lt_succ hj)
    · exact fun hb => hc' (hblank.mp hb)
    · exact h.unbroken hnone j hj
  · dsimp only at hp
    split_ifs at hp with hc'
    · refine ⟨k,⟨k.lt_succ_self,hblank.mpr hc',fun i hi hlt => by omega⟩,
        (Option.some.inj hp).symm,?_⟩
      exact (if_pos hc').trans h.length
    · obtain ⟨j,⟨hj,hb,hlast⟩,hoff,hlen⟩ := h.broken p hp
      refine ⟨j,⟨hj.trans k.lt_succ_self,hb,fun i hi hlt => ?_⟩,hoff,(if_neg hc').trans hlen⟩
      obtain rfl | hlt := Nat.eq_or_lt_of_le (Nat.le_of_lt_succ hlt)
      · exact fun hb => hc' (hblank.mp hb)
      · exact hlast i hi hlt

def Stops (font : Font) (chars : List Char) (maxWidth : ℤ) (k : ℕ) : Prop :=
  maxWidth ≤ reached font chars k ∨ chars.length ≤ k ∨ chars[k-1]? = some '\n'

structure LineEnd (font : Font) (chars : List Char) (maxWidth : ℤ) (m : ℕ) : Prop where
  pos : 0 < m
  le : m ≤ chars.length
  stops : Stops font chars maxWidth m
  first : ∀ i, 0 < i → i < m → ¬Stops font chars maxWidth i

theorem LineEnd.unique {m m' : ℕ} (h : LineEnd font chars maxWidth m)
    (h' : LineEnd font chars maxWidth m') : m = m' := by
  obtain hlt | heq | hlt := lt_trichotomy m m'
  · exact absurd h.stops (h'.first m h.pos hlt)
  · exact heq
  · exact absurd h'.stops (h.first m' h'.pos hlt)

theorem offset_lt_iff (htext : IsText text bytes chars) (hk : k ≤ chars.length) :
    offset chars k < bytes ↔ k < chars.length := by
  rw [← offset_add htext k]
  obtain rfl | hlt := Nat.eq_or_lt_of_le hk
  · simp
  · refine iff_of_true (Nat.lt_add_of_pos_right ?_) hlt
    rw [List.drop_eq_getElem_cons hlt,List.flatMap_cons,List.length_append]
    exact Nat.add_pos_left (List.length_pos_iff.mpr String.utf8EncodeChar_ne_nil) _

theorem goesOn_iff (htext : IsText text bytes chars) (h : At font chars (k+1) x)
    (hc : chars[k]? = some c) (hcurrent : x.current = c.toNat) (maxWidth : ℤ) :
    GoesOn bytes maxWidth x ↔ ¬Stops font chars maxWidth (k+1) := by
  have hk := (List.getElem?_eq_some_iff.mp hc).1
  have hnewline : x.current = 0x0a ↔ c = '\n' := by
    rw [hcurrent]
    exact ⟨fun h => Char.ext (UInt32.toNat.inj h),congrArg Char.toNat⟩
  unfold GoesOn Stops
  rw [h.string,offset_lt_iff htext hk,h.width,not_or,not_or,not_le,not_le,ne_eq,hnewline,
    Nat.add_sub_cancel,hc,Option.some.injEq]
  rfl

/-- The loop ends where the line has to. -/
theorem passes_end (hfont : Plain font chars) (htext : IsText text bytes chars) (maxWidth : ℤ)
    {fuel : ℕ} (h : At font chars k x) (hk : k < chars.length) (hfuel : chars.length ≤ k+fuel)
    (hbefore : ∀ i, 0 < i → i ≤ k → ¬Stops font chars maxWidth i) :
    ∃ m y, passes font text bytes maxWidth fuel x = some y ∧ LineEnd font chars maxWidth (m+1) ∧
      At font chars (m+1) y ∧ y.last = offset chars m ∧ y.retWidth = reached font chars m := by
  induction fuel generalizing k x with
  | zero => omega
  | succ fuel ih =>
    have hc : chars[k]? = some chars[k] := List.getElem?_eq_getElem hk
    obtain ⟨hat,hlast,hcurrent,hwidth⟩ := h.pass hfont htext hc
    have hgoes := goesOn_iff htext hat hc hcurrent maxWidth
    rw [passes]
    split_ifs with hon
    · have hnot := hgoes.mp hon
      refine ih hat ?_ (by omega) fun i hpos hi => ?_
      · by_contra hge
        exact hnot (.inr (.inl (not_lt.mp hge)))
      · obtain rfl | hi := Nat.eq_or_lt_of_le hi
        · exact hnot
        · exact hbefore i hpos (Nat.le_of_lt_succ hi)
    · exact ⟨k,_,rfl,⟨k.succ_pos,hk,not_not.mp fun h => hon (hgoes.mpr h),
        fun i hpos hi => hbefore i hpos (Nat.le_of_lt_succ hi)⟩,hat,hlast,hwidth⟩

/-- The width of the first characters, as `IDirectFBFont_GetStringWidth` has it. -/
theorem getStringWidth_offset (hfont : Plain font chars) (htext : IsText text bytes chars)
    (hk : k ≤ chars.length) :
    getStringWidth font text (offset chars k) = some (reached font chars k) := by
  have hpart := (isText_split htext k).1
  obtain ⟨r,hr⟩ : ∃ r, decodeText text (offset chars k)
      (font.getCharacterIndex.map fun answer _ => answer) = some r :=
    decode_ends (Nat.le_add_left _ _)
  have hindices : r.indices = r.passed.filterMap font.decodeCharacter := by
    refine decode_keeps (fun x => x.indices = x.passed.filterMap font.decodeCharacter)
      (fun x hx _ => ?_) rfl hr
    have hindex : (next text (font.getCharacterIndex.map fun answer _ => answer) x).indices =
        x.indices++(font.decodeCharacter (utf8GetChar text x.pos).1).toList := by
      rw [(next_char ..).2.2]
      unfold Font.decodeCharacter
      cases font.getCharacterIndex <;> rfl
    rw [hindex,hx,(next_char ..).1,List.filterMap_append]
    cases hc : font.decodeCharacter (utf8GetChar text x.pos).1 <;> simp [hc]
  have hall : r.indices = (chars.take k).map font.index := by
    rw [hindices,decodeText_chars hpart hr,List.filterMap_map,← List.filterMap_eq_map]
    refine List.filterMap_congr fun c hc => ?_
    obtain ⟨i,hi⟩ := List.mem_iff_getElem?.mp (List.mem_of_mem_take hc)
    exact (hfont.index_eq hi).1
  have hflat := sizes_flat hfont hk
  unfold getStringWidth
  rw [show decodeText text (offset chars k) _ = some r from hr,Option.map_some,hall]
  exact congrArg some (if_pos hflat)

theorem offset_pos (hk : k < chars.length) : 0 < offset chars (k+1) := by
  rw [offset_succ (List.getElem?_eq_getElem hk)]
  exact Nat.add_pos_right _ (List.length_pos_iff.mpr String.utf8EncodeChar_ne_nil)

/-- The line ends at the end of the text, at the last blank, or before a character. -/
inductive Broke (font : Font) (chars : List Char) (maxWidth : ℤ) (m : ℕ) : Line → Prop
  | whole : reached font chars (m+1) < maxWidth → m+1 = chars.length →
      Broke font chars maxWidth m ⟨reached font chars (m+1),m+1,none⟩
  | blank (j : ℕ) : ¬(reached font chars (m+1) < maxWidth ∧ m+1 = chars.length) →
      LastBlank chars (m+1) j →
      Broke font chars maxWidth m ⟨reached font chars m,j,some (offset chars (j+1))⟩
  | single : ¬(reached font chars (m+1) < maxWidth ∧ m+1 = chars.length) →
      (∀ j < m+1, ¬Blank chars j) → m = 0 →
      Broke font chars maxWidth m ⟨reached font chars 1,1,some (offset chars 1)⟩
  | before : ¬(reached font chars (m+1) < maxWidth ∧ m+1 = chars.length) →
      (∀ j < m+1, ¬Blank chars j) → 0 < m →
      Broke font chars maxWidth m ⟨reached font chars m,m,some (offset chars m)⟩

theorem getStringBreak_broke (hfont : Plain font chars) (htext : IsText text bytes chars)
    (hne : chars ≠ []) (maxWidth : ℤ) : ∃ m r, getStringBreak font text bytes maxWidth = some r ∧
      LineEnd font chars maxWidth (m+1) ∧ Broke font chars maxWidth m r := by
  have hlen : 0 < chars.length := List.length_pos_iff.mpr hne
  have hbytes : 0 < bytes := (Nat.zero_le _).trans_lt ((offset_lt_iff htext hlen.le).mpr hlen)
  have hstart : At font chars 0 {} :=
    ⟨rfl,rfl,rfl,rfl,rfl,rfl,(fun _ j hj => by omega),fun p hp => by cases hp⟩
  have hfuel : chars.length ≤ bytes := by
    have hmap : (chars.map fun c => (String.utf8EncodeChar c).length).length = chars.length :=
      List.length_map _
    rw [← htext.length_eq,List.length_flatMap,← hmap]
    refine List.length_le_sum_of_one_le _ fun i hi => ?_
    obtain ⟨c,-,rfl⟩ := List.mem_map.mp hi
    exact List.length_pos_iff.mpr String.utf8EncodeChar_ne_nil
  obtain ⟨m,x,hx,hend,hat,hlast,hwidth⟩ := passes_end hfont htext maxWidth hstart hlen
    ((Nat.zero_add bytes).symm ▸ hfuel) fun i hpos hi => by omega
  have hwhole : (x.width/256 < maxWidth ∧ bytes ≤ x.string) ↔
      reached font chars (m+1) < maxWidth ∧ m+1 = chars.length := by
    rw [← not_lt,hat.string,offset_lt_iff htext hend.le,hat.width,not_lt]
    exact and_congr_right fun _ => ⟨fun h => hend.le.antisymm h,Eq.ge⟩
  refine ⟨m,_,by rw [getStringBreak,if_neg hbytes.ne',hx,Option.map_some],hend,?_⟩
  by_cases hw : x.width/256 < maxWidth ∧ bytes ≤ x.string
  · rw [if_pos hw,hat.width,hat.length]
    exact .whole (hwhole.mp hw).1 (hwhole.mp hw).2
  · rw [if_neg hw]
    have hnot := fun h => hw (hwhole.mpr h)
    cases hnext : x.retNextLine with
    | some p =>
      obtain ⟨j,hj,rfl,hlength⟩ := hat.broken p hnext
      dsimp only
      rw [hwidth,hlength]
      exact .blank j hnot hj
    | none =>
      have hunbroken := hat.unbroken hnext
      dsimp only
      split_ifs with hone
      · have hm : m = 0 := by
          have := hat.length
          omega
        subst hm
        rw [hat.width,hat.length,hat.string]
        exact .single hnot hunbroken rfl
      · have hm : 0 < m := by
          have := hat.length
          omega
        rw [hwidth,hat.length,hlast,Nat.add_sub_cancel]
        exact .before hnot hunbroken hm

end Passes

/-- A line: it has a character at least and the width of its characters, there is no next line if it
has all of them, a next line is behind them and the blank there, and it is narrower than the
maximum, if it is not a single character. -/
structure Consistent (font : Font) (text : ℕ → UInt8) (chars : List Char) (maxWidth : ℤ)
    (r : Line) : Prop where
  pos : 1 ≤ r.strLength
  le : r.strLength ≤ chars.length
  width : getStringWidth font text (offset chars r.strLength) = some r.width
  whole : r.nextLine = none ↔ r.strLength = chars.length
  next : ∀ p, r.nextLine = some p → 0 < p ∧ (p = offset chars r.strLength ∨
    Blank chars r.strLength ∧ p = offset chars (r.strLength+1))
  narrow : r.width < maxWidth ∨ r.strLength = 1

/-- Calls on the next line come to an end, and their lines and the blanks behind these are all of
the text. -/
inductive Covers (font : Font) (maxWidth : ℤ) : (ℕ → UInt8) → ℕ → List Char → Prop
  | last {text : ℕ → UInt8} {bytes : ℕ} {chars : List Char} {r : Line} :
      getStringBreak font text bytes maxWidth = some r → r.nextLine = none →
      r.strLength = chars.length → Covers font maxWidth text bytes chars
  | more {text : ℕ → UInt8} {bytes k : ℕ} {chars : List Char} {r : Line} :
      getStringBreak font text bytes maxWidth = some r → r.nextLine = some (offset chars k) →
      k = r.strLength ∨ Blank chars r.strLength ∧ k = r.strLength+1 →
      Covers font maxWidth (fun i => text (offset chars k+i)) (bytes-offset chars k)
        (chars.drop k) → Covers font maxWidth text bytes chars

def Breaks (font : Font) (chars : List Char) (maxWidth : ℤ) : Prop :=
  ∃ m, LineEnd font chars maxWidth (m+1) ∧
    (reached font chars (m+1) < maxWidth ∧ m+1 = chars.length ∨
      (∀ j < m+1, ¬Blank chars j) ∧ 1 < chars.length ∨
      ∃ j, 0 < j ∧ LastBlank chars (m+1) j ∧ reached font chars m = reached font chars j)

section Lines

variable {font : Font} {text : ℕ → UInt8} {bytes k m : ℕ} {maxWidth : ℤ} {chars : List Char}
  {r : Line}

theorem LastBlank.unique {j j' : ℕ} (h : LastBlank chars k j) (h' : LastBlank chars k j') :
    j = j' := by
  obtain hlt | heq | hlt := lt_trichotomy j j'
  · exact absurd h'.2.1 (h.2.2 j' hlt h'.1)
  · exact heq
  · exact absurd h.2.1 (h'.2.2 j hlt h.1)

theorem LineEnd.narrow (h : LineEnd font chars maxWidth (m+1)) {j : ℕ} (hpos : 0 < j) (hj : j ≤ m) :
    reached font chars j < maxWidth := by
  by_contra hwide
  exact h.first j hpos (Nat.lt_succ_of_le hj) (.inl (not_lt.mp hwide))

/-- Exactly then is a line consistent. -/
theorem Broke.consistent_iff (hfont : Plain font chars) (htext : IsText text bytes chars)
    (hend : LineEnd font chars maxWidth (m+1)) (h : Broke font chars maxWidth m r) :
    Consistent font text chars maxWidth r ↔ Breaks font chars maxWidth := by
  have hwidth : ∀ k, k ≤ chars.length →
      getStringWidth font text (offset chars k) = some (reached font chars k) :=
    fun k hk => getStringWidth_offset hfont htext hk
  have hle := hend.le
  have hbreaks : Breaks font chars maxWidth ↔
      reached font chars (m+1) < maxWidth ∧ m+1 = chars.length ∨
        (∀ j < m+1, ¬Blank chars j) ∧ 1 < chars.length ∨
        ∃ j, 0 < j ∧ LastBlank chars (m+1) j ∧ reached font chars m = reached font chars j := by
    refine ⟨fun ⟨m',hend',hcond⟩ => ?_,fun hcond => ⟨m,hend,hcond⟩⟩
    obtain rfl : m' = m := Nat.succ_injective (hend'.unique hend)
    exact hcond
  rw [hbreaks]
  cases h with
  | whole hnarrow hall =>
    exact iff_of_true ⟨Nat.succ_pos m,hle,hwidth _ hle,iff_of_true rfl hall,
      (fun p hp => by cases hp),.inl hnarrow⟩ (.inl ⟨hnarrow,hall⟩)
  | blank j hnot hj =>
    obtain ⟨hlt,hblank,hlast⟩ := hj
    refine ⟨fun h => .inr (.inr ⟨j,h.pos,⟨hlt,hblank,hlast⟩,?_⟩),fun h => ?_⟩
    · exact (Option.some.inj ((hwidth j (by omega)).symm.trans h.width)).symm
    · obtain hall | ⟨hnone,-⟩ | ⟨j',hpos,hj',hsame⟩ := h
      · exact absurd hall hnot
      · exact absurd hblank (hnone j hlt)
      · obtain rfl := hj'.unique ⟨hlt,hblank,hlast⟩
        refine ⟨hpos,show j' ≤ chars.length by omega,hsame ▸ hwidth j' (by omega),
          iff_of_false (by simp) (show j' ≠ chars.length by omega),fun p hp => ?_,
          .inl (hsame ▸ hend.narrow hpos (Nat.le_of_lt_succ hlt))⟩
        cases hp
        exact ⟨offset_pos (by omega),.inr ⟨hblank,rfl⟩⟩
  | single hnot hnone hm =>
    refine ⟨fun h => .inr (.inl ⟨hnone,?_⟩),fun h => ?_⟩
    · have hmore : 1 ≠ chars.length := fun hone => by cases h.whole.mpr hone
      omega
    · obtain hall | ⟨-,hmore⟩ | ⟨j',-,hj',-⟩ := h
      · exact absurd hall hnot
      · refine ⟨le_rfl,hmore.le,hwidth 1 hmore.le,iff_of_false (by simp) hmore.ne,fun p hp => ?_,
          .inr rfl⟩
        cases hp
        exact ⟨offset_pos (by omega),.inl rfl⟩
      · exact absurd hj'.2.1 (hnone j' hj'.1)
  | before hnot hnone hm =>
    refine iff_of_true ⟨hm,show m ≤ chars.length by omega,hwidth m (by omega),
      iff_of_false (by simp) (show m ≠ chars.length by omega),fun p hp => ?_,
      .inl (hend.narrow hm le_rfl)⟩
      (.inr (.inl ⟨hnone,by omega⟩))
    cases hp
    obtain ⟨m,rfl⟩ := Nat.exists_eq_add_of_lt hm
    exact ⟨offset_pos (by omega),.inl rfl⟩

/-- All texts are covered. -/
theorem covers (hfont : Plain font chars) (htext : IsText text bytes chars) (maxWidth : ℤ) :
    Covers font maxWidth text bytes chars := by
  induction hn : chars.length using Nat.strong_induction_on generalizing text bytes chars with
  | _ n ih =>
    subst hn
    have hrest : ∀ k, 0 < k → k ≤ chars.length → Covers font maxWidth
        (fun i => text (offset chars k+i)) (bytes-offset chars k) (chars.drop k) := by
      intro k hpos hk
      refine ih (chars.drop k).length ?_ ⟨hfont.glyph,hfont.kerning,fun c hc =>
        hfont.found c (List.mem_of_mem_drop hc)⟩ (isText_split htext k).2 rfl
      rw [List.length_drop]
      omega
    by_cases hne : chars = []
    · subst hne
      obtain rfl : 0 = bytes := htext.length_eq
      exact .last (r := ⟨0,0,none⟩) rfl rfl rfl
    · obtain ⟨m,r,hr,hend,hbroke⟩ := getStringBreak_broke hfont htext hne maxWidth
      have hle := hend.le
      cases hbroke with
      | whole _ hall => exact .last hr rfl hall
      | blank j _ hj =>
        have hlt := hj.1
        exact .more hr rfl (.inr ⟨hj.2.1,rfl⟩) (hrest (j+1) j.succ_pos (by omega))
      | single _ _ _ => exact .more hr rfl (.inl rfl) (hrest 1 Nat.one_pos (by omega))
      | before _ _ hm => exact .more hr rfl (.inl rfl) (hrest m hm (by omega))

/-- A text is broken right exactly if its line ends like that. -/
theorem string_break_iff (hfont : Plain font chars) (htext : IsText text bytes chars)
    (hne : chars ≠ []) (maxWidth : ℤ) :
    (∃ r, getStringBreak font text bytes maxWidth = some r ∧
      Consistent font text chars maxWidth r) ∧ Covers font maxWidth text bytes chars ↔
      Breaks font chars maxWidth := by
  obtain ⟨m,r,hr,hend,hbroke⟩ := getStringBreak_broke hfont htext hne maxWidth
  rw [and_iff_left (covers hfont htext maxWidth),← hbroke.consistent_iff hfont htext hend]
  refine ⟨fun ⟨r',hr',h⟩ => ?_,fun h => ⟨r,hr,h⟩⟩
  obtain rfl := Option.some.inj (hr.symm.trans hr')
  exact h

end Lines

def fixed : Font := ⟨none,fun _ => some (2560,0),none,id,id⟩

theorem fixed_plain (chars : List Char) : Plain fixed chars where
  glyph i a h := by
    cases h
    rfl
  kerning i j k h := by
    unfold Font.kerning at h
    split_ifs at h
    cases h
  found c _ := ⟨c.toNat,_,rfl,rfl⟩

/-- A text of the letter `a` with one space. -/
def spaced (k i : ℕ) : UInt8 := if i = k then 0x20 else 0x61

/-- The third of four characters is a space and reaches the maximum. -/
theorem broken_at_space : (∃ r, getStringBreak fixed (spaced 2) 4 25 = some r ∧
    Consistent fixed (spaced 2) ['a','a',' ','a'] 25 r) ∧
      Covers fixed 25 (spaced 2) 4 ['a','a',' ','a'] := by
  have htext : IsText (spaced 2) 4 ['a','a',' ','a'] := rfl
  refine (string_break_iff (fixed_plain _) htext (by simp) 25).mpr ⟨2,⟨by decide,by decide,
    .inl (by decide),fun i hpos hi => ?_⟩,.inr (.inr ⟨2,by decide,⟨by decide,.inl rfl,
      fun i _ _ => by omega⟩,rfl⟩)⟩
  unfold Stops
  interval_cases i <;> decide

/-- The second of four characters is a space, and the width is that of the first three. -/
theorem width_overwritten : ¬∃ r, getStringBreak fixed (spaced 1) 4 35 = some r ∧
    Consistent fixed (spaced 1) ['a',' ','a','a'] 35 r := by
  rintro ⟨r,hr,h⟩
  cases hr
  have hwidth : some (10 : ℤ) = some 30 := h.width
  cases hwidth

end DirectFB.FontBreak
