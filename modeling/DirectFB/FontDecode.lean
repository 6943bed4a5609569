import Mathlib.Tactic

/-! Text in UTF-8 is decoded for a font, with the bytes that are read beyond those before. -/
namespace DirectFB.FontDecode

/-- `__direct_utf8_skip` -/
def skipTable : List ℕ :=
  List.replicate 32 2++List.replicate 16 3++List.replicate 8 4++[5,5,5,5,6,6,1,1]

/-- `DIRECT_UTF8_SKIP` -/
def utf8Skip (c : ℕ) : ℕ := if c < 0xc0 then 1 else skipTable.getD (c &&& 0x3f) 0

/-- The loop of `__direct_utf8_get_char`, with the places it reads. -/
def getRest (bytes : ℕ → UInt8) : ℕ → ℕ → ℕ → ℕ × List ℕ
  | 0, _, result => (result,[])
  | n+1, p, result =>
    let c := (bytes (p+1)).toNat
    if c &&& 0xc0 ≠ 0x80 then (2^32-1,[p+1])
    else
      let rest := getRest bytes n (p+1) (result <<< 6 ||| (c &&& 0x3f))
      (rest.1,(p+1) :: rest.2)

/-- `DIRECT_UTF8_GET_CHAR` and `__direct_utf8_get_char`, with the places that are read. -/
def utf8GetChar (bytes : ℕ → UInt8) (p : ℕ) : ℕ × List ℕ :=
  let result := (bytes p).toNat
  if result < 0xc0 then (result,[p])
  else if result > 0xfd then (2^32-1,[p])
  else
    let len := utf8Skip result
    let rest := getRest bytes (len-1) p (result &&& 0x7c >>> len)
    (rest.1,p :: rest.2)

/-- Where the loop is, what was passed to `GetCharacterIndex`, `ret_indices` up to `num`, and the
places that were read and written. -/
structure Decoding where
  pos : ℕ := 0
  passed : List ℕ := []
  indices : List ℕ := []
  reads : List ℕ := []
  writes : List ℕ := []

/-- One pass of the loops of `dfb_font_decode_text`: `GetCharacterIndex` answers a call with an
index or an error, or the characters are the indices. -/
def next (bytes : ℕ → UInt8) (getCharacterIndex : Option (ℕ → ℕ → Option ℕ)) (x : Decoding) :
    Decoding :=
  let b := (bytes x.pos).toNat
  let c := if b < 128 then (b,[x.pos]) else utf8GetChar bytes x.pos
  let index := match getCharacterIndex with
    | none => some c.1
    | some answer => answer x.passed.length c.1
  { pos := if b < 128 then x.pos+1 else x.pos+utf8Skip b
    passed := x.passed++[c.1]
    indices := x.indices++index.toList
    reads := x.reads++c.2
    writes := x.writes++[x.indices.length] }

def decode (bytes : ℕ → UInt8) (length : ℕ) (getCharacterIndex : Option (ℕ → ℕ → Option ℕ)) :
    ℕ → Decoding → Option Decoding
  | 0, x => if x.pos < length then none else some x
  | fuel+1, x =>
    if x.pos < length then
      decode bytes length getCharacterIndex fuel (next bytes getCharacterIndex x)
    else some x

/-- `dfb_font_decode_text` for `DTEID_UTF8` and a font without `DecodeText`. No more passes than
bytes are needed. -/
def decodeText (bytes : ℕ → UInt8) (length : ℕ)
    (getCharacterIndex : Option (ℕ → ℕ → Option ℕ)) : Option Decoding :=
  decode bytes length getCharacterIndex length {}

def Continues (b : UInt8) : Prop := b.toNat &&& 0xc0 = 0x80

/-- Characters start at a place, and behind those before while these are in the text. -/
inductive Start (bytes : ℕ → UInt8) (length : ℕ) : ℕ → ℕ → Prop
  | here (p : ℕ) : Start bytes length p p
  | behind {p q : ℕ} : p < length → Start bytes length (p+utf8Skip (bytes p).toNat) q →
      Start bytes length p q

def Cut (bytes : ℕ → UInt8) (length p : ℕ) : Prop :=
  length < p+utf8Skip (bytes p).toNat ∧ ∀ i, p < i → i < length → Continues (bytes i)

section Characters

variable {bytes : ℕ → UInt8} {length p n : ℕ}

theorem utf8Skip_cases : ∀ b < 256,
    utf8Skip b = 1 ∧ ¬(0xc0 ≤ b ∧ b ≤ 0xfd) ∨ 2 ≤ utf8Skip b ∧ 0xc0 ≤ b ∧ b ≤ 0xfd := by
  decide +kernel

theorem utf8Skip_pos (b : UInt8) : 1 ≤ utf8Skip b.toNat := by
  have hcases := utf8Skip_cases b.toNat b.toNat_lt
  omega

theorem continues_iff : ∀ b < 256, b &&& 0xc0 = 0x80 ↔ 128 ≤ b ∧ b < 192 := by decide +kernel

theorem getRest_inside (hp : p < length) (result : ℕ) :
    (∀ i ∈ (getRest bytes n p result).2, i < length) ↔
      ¬(length < p+1+n ∧ ∀ i, p < i → i < length → Continues (bytes i)) := by
  induction n generalizing p result with
  | zero => simpa [getRest] using fun h => absurd hp (by omega)
  | succ n ih =>
    have hnext : (∀ i, p < i → i < length → Continues (bytes i)) ↔
        (p+1 < length → Continues (bytes (p+1))) ∧
          ∀ i, p+1 < i → i < length → Continues (bytes i) := by
      refine ⟨fun h => ⟨h _ p.lt_succ_self,fun i hi => h i (by omega)⟩,fun h i hi hlt => ?_⟩
      obtain rfl | hi := Nat.eq_or_lt_of_le hi
      · exact h.1 hlt
      · exact h.2 i hi hlt
    rw [hnext,getRest]
    dsimp only
    by_cases hlast : p+1 < length
    · split_ifs with hc
      · have hnot : ¬Continues (bytes (p+1)) := hc
        simp [hlast,hnot]
      · have hcont : Continues (bytes (p+1)) := not_not.mp hc
        simp only [List.forall_mem_cons,hlast,hcont,true_and,forall_true_left,ih hlast]
        rw [show p+1+(n+1) = p+1+1+n by omega]
    · have hbehind : ∀ i, p+1 < i → i < length → Continues (bytes i) := fun i _ _ => by omega
      have hout : (p+1) ∈ (if (bytes (p+1)).toNat &&& 0xc0 ≠ 0x80 then (2^32-1,[p+1]) else
          ((getRest bytes n (p+1) (result <<< 6 ||| ((bytes (p+1)).toNat &&& 0x3f))).1,
            (p+1) :: (getRest bytes n (p+1)
              (result <<< 6 ||| ((bytes (p+1)).toNat &&& 0x3f))).2)).2 := by
        split_ifs <;> simp
      exact iff_of_false (fun h => hlast (h _ hout)) fun h => h ⟨by omega,fun h => absurd h hlast,
        hbehind⟩

/-- A character is read inside the text unless it is cut. -/
theorem utf8GetChar_inside (hp : p < length) :
    (∀ i ∈ (utf8GetChar bytes p).2, i < length) ↔ ¬Cut bytes length p := by
  unfold Cut
  obtain ⟨hone,hb⟩ | ⟨htwo,hb⟩ := utf8Skip_cases (bytes p).toNat (bytes p).toNat_lt
  · rw [hone]
    have hread : (utf8GetChar bytes p).2 = [p] := by
      unfold utf8GetChar
      dsimp only
      split_ifs
      · rfl
      · rfl
      · omega
    rw [hread]
    exact iff_of_true (by simpa using hp) fun h => by omega
  · have hread : (utf8GetChar bytes p).2 = p :: (getRest bytes (utf8Skip (bytes p).toNat-1) p
        ((bytes p).toNat &&& 0x7c >>> utf8Skip (bytes p).toNat)).2 := by
      unfold utf8GetChar
      dsimp only
      rw [if_neg (by omega),if_neg (by omega)]
    rw [hread,List.forall_mem_cons,getRest_inside hp,and_iff_right hp,
      show p+1+(utf8Skip (bytes p).toNat-1) = p+utf8Skip (bytes p).toNat by omega]

theorem getRest_continued {v : ℕ} (h : bytes (p+1) = UInt8.ofNat (v%64+128)) (result : ℕ) :
    (getRest bytes (n+1) p result).1 = (getRest bytes n (p+1) (result*64+v%64)).1 := by
  have hbyte : (bytes (p+1)).toNat = v%64+128 := by
    rw [h,UInt8.toNat_ofNat']
    omega
  have hlow : (v%64+128) &&& 0x3f = v%64 := by
    rw [Nat.and_two_pow_sub_one_eq_mod _ 6]
    omega
  have hcont := (continues_iff (v%64+128) (by omega)).mpr (by omega)
  rw [getRest]
  dsimp only
  rw [hbyte,if_neg (not_not.mpr hcont),hlow,
    ← Nat.shiftLeft_add_eq_or_of_lt (by omega : v%64 < 2^6),Nat.shiftLeft_eq]

theorem utf8Lead : ∀ b < 256, (0xc0 ≤ b → b < 0xe0 → utf8Skip b = 2 ∧ b &&& 0x7c >>> 2 = b-0xc0) ∧
    (0xe0 ≤ b → b < 0xf0 → utf8Skip b = 3 ∧ b &&& 0x7c >>> 3 = b-0xe0) ∧
    (0xf0 ≤ b → b < 0xf8 → utf8Skip b = 4 ∧ b &&& 0x7c >>> 4 = b-0xf0) := by
  decide +kernel

theorem utf8GetChar_lead {b m : ℕ} (hb : bytes p = UInt8.ofNat b) (hlow : 0xc0 ≤ b)
    (hhigh : b < 0xf8) (hskip : utf8Skip b = n+1) (hmask : b &&& 0x7c >>> (n+1) = m) :
    (utf8GetChar bytes p).1 = (getRest bytes n p m).1 ∧ utf8Skip (bytes p).toNat = n+1 := by
  have hbyte : (bytes p).toNat = b := by
    rw [hb,UInt8.toNat_ofNat']
    omega
  unfold utf8GetChar
  dsimp only
  rw [hbyte,if_neg (by omega),if_neg (by omega),hskip,hmask]
  exact ⟨rfl,rfl⟩

/-- The code point of a character that is encoded at a place, and its length. -/
theorem utf8GetChar_encoded {c : Char}
    (h : ∀ (i : ℕ) (b : UInt8), (String.utf8EncodeChar c)[i]? = some b → bytes (p+i) = b) :
    (utf8GetChar bytes p).1 = c.toNat ∧
      utf8Skip (bytes p).toNat = (String.utf8EncodeChar c).length := by
  have hv : c.val.toNat < 0x110000 := by
    obtain hlt | hlt := c.valid
    · exact hlt.trans (by decide)
    · exact hlt.2
  change (utf8GetChar bytes p).1 = c.val.toNat ∧ _
  unfold String.utf8EncodeChar at h ⊢
  dsimp only at h ⊢
  generalize c.val.toNat = v at h hv ⊢
  split_ifs at h ⊢ with h1 h2 h3
  · have hbyte : (bytes p).toNat = v := by
      rw [show bytes p = UInt8.ofNat v from h 0 _ rfl]
      exact (UInt8.toNat_ofNat' ..).trans (by omega)
    unfold utf8GetChar utf8Skip
    dsimp only
    rw [hbyte,if_pos (by omega),if_pos (by omega)]
    exact ⟨rfl,rfl⟩
  · have hlead := (utf8Lead (v/64%32+192) (by omega)).1 (by omega) (by omega)
    obtain ⟨hchar,hskip⟩ :=
      utf8GetChar_lead (p := p) (h 0 _ rfl) (by omega) (by omega) hlead.1 hlead.2
    refine ⟨?_,hskip⟩
    rw [hchar,getRest_continued (h 1 _ rfl),getRest]
    omega
  · have hlead := (utf8Lead (v/4096%16+224) (by omega)).2.1 (by omega) (by omega)
    obtain ⟨hchar,hskip⟩ :=
      utf8GetChar_lead (p := p) (h 0 _ rfl) (by omega) (by omega) hlead.1 hlead.2
    refine ⟨?_,hskip⟩
    rw [hchar,getRest_continued (h 1 _ rfl),getRest_continued (h 2 _ rfl),getRest]
    omega
  · have hlead := (utf8Lead (v/262144%8+240) (by omega)).2.2 (by omega) (by omega)
    obtain ⟨hchar,hskip⟩ :=
      utf8GetChar_lead (p := p) (h 0 _ rfl) (by omega) (by omega) hlead.1 hlead.2
    refine ⟨?_,hskip⟩
    rw [hchar,getRest_continued (h 1 _ rfl),getRest_continued (h 2 _ rfl),
      getRest_continued (h 3 _ rfl),getRest]
    omega

end Characters

section Passes

variable {bytes : ℕ → UInt8} {length fuel : ℕ} {getCharacterIndex : Option (ℕ → ℕ → Option ℕ)}
  {x r : Decoding}

theorem next_pos (bytes : ℕ → UInt8) (getCharacterIndex : Option (ℕ → ℕ → Option ℕ))
    (x : Decoding) : (next bytes getCharacterIndex x).pos = x.pos+utf8Skip (bytes x.pos).toNat := by
  unfold next
  dsimp only
  split_ifs with hascii
  · rw [utf8Skip,if_pos (hascii.trans (by decide))]
  · rfl

/-- A byte below 128 is a character as any other. -/
theorem next_char (bytes : ℕ → UInt8) (getCharacterIndex : Option (ℕ → ℕ → Option ℕ))
    (x : Decoding) :
    (next bytes getCharacterIndex x).passed = x.passed++[(utf8GetChar bytes x.pos).1] ∧
      (next bytes getCharacterIndex x).reads = x.reads++(utf8GetChar bytes x.pos).2 ∧
        (next bytes getCharacterIndex x).indices = x.indices++(match getCharacterIndex with
          | none => some (utf8GetChar bytes x.pos).1
          | some answer => answer x.passed.length (utf8GetChar bytes x.pos).1).toList := by
  have hchar : (bytes x.pos).toNat < 128 →
      utf8GetChar bytes x.pos = ((bytes x.pos).toNat,[x.pos]) := fun hascii =>
    if_pos (hascii.trans (by decide))
  unfold next
  dsimp only
  split_ifs with hascii
  · rw [hchar hascii]
    exact ⟨rfl,rfl,rfl⟩
  · exact ⟨rfl,rfl,rfl⟩

theorem decode_ends (hfuel : length ≤ x.pos+fuel) :
    ∃ r, decode bytes length getCharacterIndex fuel x = some r := by
  induction fuel generalizing x with
  | zero => exact ⟨x,if_neg (by omega)⟩
  | succ fuel ih =>
    rw [decode]
    split_ifs with hlt
    · refine ih ?_
      have hpos := utf8Skip_pos (bytes x.pos)
      rw [next_pos]
      omega
    · exact ⟨x,rfl⟩

theorem decode_keeps (p : Decoding → Prop)
    (hstep : ∀ x, p x → x.pos < length → p (next bytes getCharacterIndex x)) (hx : p x)
    (h : decode bytes length getCharacterIndex fuel x = some r) : p r := by
  induction fuel generalizing x with
  | zero =>
    unfold decode at h
    split_ifs at h
    exact Option.some.inj h ▸ hx
  | succ fuel ih =>
    rw [decode] at h
    split_ifs at h with hlt
    · exact ih (hstep x hx hlt) h
    · exact Option.some.inj h ▸ hx

structure Written (length : ℕ) (x : Decoding) : Prop where
  num : x.indices.length ≤ x.passed.length
  pos : x.passed.length ≤ x.pos
  inside : x.passed.length ≤ length
  writes : ∀ i ∈ x.writes, i < length

theorem Written.next (h : Written length x) (hpos : x.pos < length) :
    Written length (next bytes getCharacterIndex x) := by
  obtain ⟨hnum,hle,hinside,hwrites⟩ := h
  have hskip := utf8Skip_pos (bytes x.pos)
  have hlen : (FontDecode.next bytes getCharacterIndex x).passed.length = x.passed.length+1 := by
    rw [(next_char ..).1,List.length_append,List.length_singleton]
  refine ⟨?_,?_,by omega,fun i hi => ?_⟩
  · rw [hlen]
    exact (List.length_append ..).trans_le (Nat.add_le_add hnum Option.length_toList_le)
  · rw [hlen,next_pos]
    omega
  · obtain hi | hi := List.mem_append.mp hi
    · exact hwrites i hi
    · rw [List.mem_singleton.mp hi]
      omega

theorem decode_done (hpos : ¬x.pos < length) :
    decode bytes length getCharacterIndex fuel x = some x := by
  cases fuel with
  | zero => exact if_neg hpos
  | succ fuel => exact if_neg hpos

theorem decode_next (hpos : x.pos < length)
    (h : decode bytes length getCharacterIndex fuel x = some r) : ∃ fuel',
      decode bytes length getCharacterIndex fuel' (next bytes getCharacterIndex x) = some r ∧
        fuel = fuel'+1 := by
  cases fuel with
  | zero =>
    rw [decode,if_pos hpos] at h
    cases h
  | succ fuel =>
    rw [decode,if_pos hpos] at h
    exact ⟨fuel,h,rfl⟩

theorem Start.inside {p q : ℕ} (h : Start bytes length p q) (hq : q < length) : p < length := by
  cases h with
  | here => exact hq
  | behind hp => exact hp

/-- The places that are read are those of the characters that start in the text. -/
theorem decode_reads (h : decode bytes length getCharacterIndex fuel x = some r) (i : ℕ) :
    i ∈ r.reads ↔ i ∈ x.reads ∨
      ∃ p, Start bytes length x.pos p ∧ p < length ∧ i ∈ (utf8GetChar bytes p).2 := by
  induction fuel generalizing x with
  | zero =>
    have hpos : ¬x.pos < length := fun hlt => by
      obtain ⟨fuel,-,hfuel⟩ := decode_next hlt h
      cases hfuel
    obtain rfl := Option.some.inj ((decode_done hpos).symm.trans h)
    refine ⟨.inl,fun hor => hor.resolve_right ?_⟩
    exact fun ⟨p,hstart,hp,_⟩ => hpos (hstart.inside hp)
  | succ fuel ih =>
    by_cases hpos : x.pos < length
    · obtain ⟨fuel',h',hfuel⟩ := decode_next hpos h
      cases hfuel
      rw [ih h',next_pos,(next_char ..).2.1,List.mem_append,or_assoc]
      refine or_congr_right ⟨?_,?_⟩
      · rintro (hi | ⟨p,hstart,hp,hi⟩)
        · exact ⟨x.pos,.here _,hpos,hi⟩
        · exact ⟨p,.behind hpos hstart,hp,hi⟩
      · rintro ⟨p,hstart,hp,hi⟩
        cases hstart with
        | here => exact .inl hi
        | behind _ hstart => exact .inr ⟨p,hstart,hp,hi⟩
    · obtain rfl := Option.some.inj ((decode_done hpos).symm.trans h)
      refine ⟨.inl,fun hor => hor.resolve_right ?_⟩
      exact fun ⟨p,hstart,hp,_⟩ => hpos (hstart.inside hp)

theorem decode_chars {chars : List Char}
    (hat : ∀ (i : ℕ) (b : UInt8), (chars.flatMap String.utf8EncodeChar)[i]? = some b →
      bytes (x.pos+i) = b)
    (hend : x.pos+(chars.flatMap String.utf8EncodeChar).length = length)
    (h : decode bytes length getCharacterIndex fuel x = some r) :
    r.passed = x.passed++chars.map Char.toNat := by
  induction chars generalizing x fuel with
  | nil =>
    obtain rfl := Option.some.inj ((decode_done (by simp at hend; omega)).symm.trans h)
    simp
  | cons c chars ih =>
    rw [List.flatMap_cons] at hat hend
    obtain ⟨hchar,hskip⟩ := utf8GetChar_encoded (p := x.pos) (c := c) fun i b hb =>
      hat i b ((List.getElem?_append_left (List.getElem?_eq_some_iff.mp hb).1).trans hb)
    have hone := utf8Skip_pos (bytes x.pos)
    rw [List.length_append,← hskip] at hend
    obtain ⟨fuel',h',-⟩ := decode_next (by omega) h
    have hrest := ih (x := next bytes getCharacterIndex x) (fun i b hb => ?_)
      (by rw [next_pos]; omega) h'
    · rw [hrest,(next_char ..).1,hchar,List.append_assoc]
      rfl
    · rw [next_pos,hskip,Nat.add_assoc]
      refine hat _ b ?_
      rw [List.getElem?_append_right (Nat.le_add_right _ _),Nat.add_sub_cancel_left,hb]

end Passes

def IsText (bytes : ℕ → UInt8) (length : ℕ) (chars : List Char) : Prop :=
  chars.flatMap String.utf8EncodeChar = (List.range length).map bytes

theorem IsText.byte {bytes : ℕ → UInt8} {length i : ℕ} {chars : List Char} {b : UInt8}
    (h : IsText bytes length chars) (hb : (chars.flatMap String.utf8EncodeChar)[i]? = some b) :
    bytes i = b := by
  rw [h,List.getElem?_map,Option.map_eq_some_iff] at hb
  obtain ⟨j,hj,rfl⟩ := hb
  obtain ⟨-,rfl⟩ := List.getElem?_eq_some_iff.mp hj
  rw [List.getElem_range]

theorem IsText.length_eq {bytes : ℕ → UInt8} {length : ℕ} {chars : List Char}
    (h : IsText bytes length chars) : (chars.flatMap String.utf8EncodeChar).length = length := by
  rw [h,List.length_map,List.length_range]

theorem decodeText_chars {bytes : ℕ → UInt8} {length : ℕ} {chars : List Char}
    {getCharacterIndex : Option (ℕ → ℕ → Option ℕ)} {r : Decoding} (h : IsText bytes length chars)
    (hr : decodeText bytes length getCharacterIndex = some r) : r.passed = chars.map Char.toNat :=
  decode_chars (x := {}) (fun i b hb => h.byte (by rwa [Nat.zero_add]))
    ((Nat.zero_add _).trans h.length_eq) hr

/-- Decoding ends, reads no bytes behind the text and writes no more indices than there are bytes,
passes the code points of a valid text, and returns what it passes where there is no
`GetCharacterIndex`. -/
def StaysInside (bytes : ℕ → UInt8) (length : ℕ)
    (getCharacterIndex : Option (ℕ → ℕ → Option ℕ)) : Prop :=
  ∃ r, decodeText bytes length getCharacterIndex = some r ∧ (∀ i ∈ r.reads, i < length) ∧
    (∀ i ∈ r.writes, i < length) ∧ r.indices.length ≤ length ∧
    (∀ chars, IsText bytes length chars → r.passed = chars.map Char.toNat) ∧
    (getCharacterIndex = none → r.indices = r.passed)

/-- Decoding stays inside the text exactly if no character in it is cut. -/
theorem staysInside_iff (bytes : ℕ → UInt8) (length : ℕ)
    (getCharacterIndex : Option (ℕ → ℕ → Option ℕ)) :
    StaysInside bytes length getCharacterIndex ↔
      ∀ p, Start bytes length 0 p → p < length → ¬Cut bytes length p := by
  obtain ⟨r,hr⟩ : ∃ r, decodeText bytes length getCharacterIndex = some r :=
    decode_ends (Nat.le_add_left _ _)
  have hreads : (∀ i ∈ r.reads, i < length) ↔
      ∀ p, Start bytes length 0 p → p < length → ¬Cut bytes length p := by
    refine ⟨fun h p hstart hp => (utf8GetChar_inside hp).mp fun i hi => ?_,fun h i hi => ?_⟩
    · exact h i ((decode_reads hr i).mpr (.inr ⟨p,hstart,hp,hi⟩))
    · obtain hi | ⟨p,hstart,hp,hi⟩ := (decode_reads hr i).mp hi
      · cases hi
      · exact (utf8GetChar_inside hp).mpr (h p hstart hp) i hi
  have hwritten : Written length r := decode_keeps (Written length) (fun x hx hpos => hx.next hpos)
    ⟨le_rfl,le_rfl,Nat.zero_le _,fun i hi => by cases hi⟩ hr
  have hsame : getCharacterIndex = none → r.indices = r.passed := by
    rintro rfl
    refine decode_keeps (fun x => x.indices = x.passed) (fun x hx _ => ?_) rfl hr
    change x.indices++[_] = x.passed++[_]
    rw [hx]
  rw [← hreads]
  exact ⟨fun ⟨r',hr',h,_⟩ => Option.some.inj (hr.symm.trans hr') ▸ h,fun h => ⟨r,hr,h,
    hwritten.writes,hwritten.num.trans hwritten.inside,fun _ htext => decodeText_chars htext hr,hsame⟩⟩

/-- A text of one byte that starts a character of two. -/
theorem cut_outside : ¬StaysInside (fun i => if i = 0 then 0xc3 else 0xa9) 1 none := by
  rintro ⟨r,hr,hreads,-⟩
  cases hr
  exact absurd (hreads 1 (by decide)) (by decide)

end DirectFB.FontDecode
