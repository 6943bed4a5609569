import Mathlib

/-! What a key event is completed to when its sender gives some of its fields only. -/
namespace DirectFB.KeyFixup

inductive Modifier
  | shift | control | alt | altgr | metaKey | super | hyper
  deriving DecidableEq

inductive Lock
  | scroll | num | caps
  deriving DecidableEq

/-- `FIXUP_KEY_FIELDS` -/
inductive Field
  | modifiers | locks | keyCode | keyId | keySymbol
  deriving DecidableEq

instance : Fintype Field :=
  ⟨{.modifiers,.locks,.keyCode,.keyId,.keySymbol},fun f => by cases f <;> decide⟩

/-- `DFB_KEY_TYPE` -/
def keyType (symbol : ℕ) : ℕ := if symbol/0x1000 = 0xf then symbol &&& 0xff00 else 0

/-- `DIKT_MODIFIER` -/
abbrev modifierType : ℕ := 0xf200

/-- `DIKI_UNKNOWN` -/
abbrev unknown : ℕ := 0xf600

/-- `DIKS_ALTGR` -/
abbrev altGr : ℕ := 0xf208

/-- The switch of `symbol_to_id`. -/
def symbolIds : List (ℕ × ℕ) :=
  -- escape, cursor keys
  [(0x1b,0xf640),(0xf000,0xf641),(0xf001,0xf642),(0xf002,0xf643),(0xf003,0xf644),
  -- altgr, control, shift, alt, meta, super, hyper
  (altGr,0xf636),(0xf202,0xf633),(0xf201,0xf631),(0xf204,0xf635),(0xf210,0xf637),(0xf220,0xf639),
  (0xf240,0xf63b),
  -- tab, enter, space, backspace, insert, delete, home, end, page up, page down
  (0x09,0xf645),(0x0d,0xf646),(0x20,0xf647),(0x08,0xf648),(0xf004,0xf649),(0x7f,0xf64a),
  (0xf005,0xf64b),(0xf006,0xf64c),(0xf007,0xf64d),(0xf008,0xf64e),
  -- caps, num and scroll lock, print, pause, backslash, period, comma
  (0xf300,0xf63d),(0xf301,0xf63e),(0xf302,0xf63f),(0xf009,0xf64f),(0xf00a,0xf650),(0x5c,0xf656),
  (0x2e,0xf65a),(0x2c,0xf659)]

/-- `symbol_to_id` -/
def symbolToId (symbol : ℕ) : ℕ :=
  if 0x61 ≤ symbol ∧ symbol ≤ 0x7a then 0xf601+symbol-0x61
  else if 0x41 ≤ symbol ∧ symbol ≤ 0x5a then 0xf601+symbol-0x41
  else if 0x30 ≤ symbol ∧ symbol ≤ 0x39 then 0xf61b+symbol-0x30
  else if 0xf101 ≤ symbol ∧ symbol ≤ 0xf10c then 0xf625+symbol-0xf101
  else (symbolIds.lookup symbol).getD unknown

/-- The switch of `id_to_symbol`. -/
def idSymbols : List (ℕ × ℕ) :=
  -- escape, cursor keys
  [(0xf640,0x1b),(0xf641,0xf000),(0xf642,0xf001),(0xf643,0xf002),(0xf644,0xf003),
  -- control, shift, alt, meta, super, hyper, left and right
  (0xf633,0xf202),(0xf634,0xf202),(0xf631,0xf201),(0xf632,0xf201),(0xf635,0xf204),(0xf636,0xf204),
  (0xf637,0xf210),(0xf638,0xf210),(0xf639,0xf220),(0xf63a,0xf220),(0xf63b,0xf240),(0xf63c,0xf240),
  -- tab, enter, space, backspace, insert, delete, home, end, page up, page down
  (0xf645,0x09),(0xf646,0x0d),(0xf647,0x20),(0xf648,0x08),(0xf649,0xf004),(0xf64a,0x7f),
  (0xf64b,0xf005),(0xf64c,0xf006),(0xf64d,0xf007),(0xf64e,0xf008),
  -- caps, num and scroll lock, print, pause
  (0xf63d,0xf300),(0xf63e,0xf301),(0xf63f,0xf302),(0xf64f,0xf009),(0xf650,0xf00a),
  -- keypad div, mult, minus, plus, enter, space, tab, equal, decimal, separator
  (0xf65d,0x2f),(0xf65e,0x2a),(0xf65f,0x2d),(0xf660,0x2b),(0xf661,0x0d),(0xf662,0x20),
  (0xf663,0x09),(0xf668,0x3d),(0xf66a,0x2e),(0xf669,0x2c),
  -- backslash, equals, less, minus, period, quotes, semicolon, slash
  (0xf656,0x5c),(0xf653,0x3d),(0xf65c,0x3c),(0xf652,0x2d),(0xf65a,0x2e),(0xf651,0x22),
  (0xf658,0x22),(0xf657,0x3b),(0xf65b,0x2f)]

/-- `id_to_symbol` -/
def idToSymbol (id : ℕ) (modifiers : Finset Modifier) (locks : Finset Lock) : ℕ :=
  if 0xf601 ≤ id ∧ id ≤ 0xf61a then
    (if .shift ∈ modifiers ↔ .caps ∈ locks then 0x61 else 0x41)+id-0xf601
  else if 0xf61b ≤ id ∧ id ≤ 0xf624 then 0x30+id-0xf61b
  else if 0xf66b ≤ id ∧ id ≤ 0xf674 then 0x30+id-0xf66b
  else if 0xf625 ≤ id ∧ id ≤ 0xf630 then 0xf101+id-0xf625
  else (idSymbols.lookup id).getD 0

/-- What follows a dead key, and what the two make. -/
def deadkeyMaps : List (ℕ × List (ℕ × ℕ)) :=
  [(0xf409,[(0x20,0x60),(0x61,0xe0),(0x65,0xe8),(0x69,0xec),(0x6f,0xf2),(0x75,0xf9),(0x41,0xc0),
    (0x45,0xc8),(0x49,0xcc),(0x4f,0xd2),(0x55,0xd9)]),
  (0xf402,[(0x20,0x27),(0x61,0xe1),(0x65,0xe9),(0x69,0xed),(0x6f,0xf3),(0x75,0xfa),(0x79,0xfd),
    (0x41,0xc1),(0x45,0xc9),(0x49,0xcd),(0x4f,0xd3),(0x55,0xda),(0x59,0xdd)]),
  (0xf406,[(0x20,0x5e),(0x61,0xe2),(0x65,0xea),(0x69,0xee),(0x6f,0xf4),(0x75,0xfb),(0x41,0xc2),
    (0x45,0xca),(0x49,0xce),(0x4f,0xd4),(0x55,0xdb)]),
  (0xf407,[(0x20,0xa8),(0x61,0xe4),(0x65,0xeb),(0x69,0xef),(0x6f,0xf6),(0x75,0xfc),(0x41,0xc4),
    (0x45,0xcb),(0x49,0xcf),(0x4f,0xd6),(0x55,0xdc)]),
  (0xf40e,[(0x20,0x7e),(0x61,0xe3),(0x6e,0xf1),(0x6f,0xf5),(0x41,0xc3),(0x4e,0xd1),(0x4f,0xd5)])]

/-- The symbol of a key after the symbol `last`. -/
def combine (last symbol : ℕ) : ℕ :=
  if keyType last = 0xf400 then
    (((deadkeyMaps.lookup last).getD []).lookup symbol).getD symbol
  else symbol

structure Entry where
  code : ℤ
  locks : Finset Lock := ∅
  identifier : ℕ
  base : ℕ
  baseShift : ℕ := 0
  alt : ℕ := 0
  altShift : ℕ := 0

def Entry.symbols (entry : Entry) : List ℕ := [entry.base,entry.baseShift,entry.alt,entry.altShift]

/-- What `get_keymap_entry` puts where drivers leave a blank. -/
def Entry.fill (entry : Entry) : Entry :=
  let alt := if entry.alt = 0 then entry.base else entry.alt
  {entry with
    identifier := if entry.identifier = unknown then symbolToId entry.base else entry.identifier
    baseShift := if entry.baseShift = 0 then entry.base else entry.baseShift
    alt
    altShift := if entry.altShift = 0 then alt else entry.altShift}

/-- The symbol that `lookup_from_table` picks. -/
def Entry.symbol (entry : Entry) (modifiers : Finset Modifier) (locks : Finset Lock) : ℕ :=
  let shifted := ¬(.shift ∈ modifiers ↔ (entry.locks ∩ locks).Nonempty)
  if keyType entry.base = modifierType then entry.base
  else if .altgr ∈ modifiers then if shifted then entry.altShift else entry.alt
  else if shifted then entry.baseShift else entry.base

/-- An input device. The driver writes to an entry, also when it fails. -/
structure Device where
  driver : Option (Entry → Bool × Entry) := none
  minKeycode : ℤ := 0
  maxKeycode : ℤ := 0
  entries : List Entry := []
  modifiersL : Finset Modifier := ∅
  modifiersR : Finset Modifier := ∅
  locks : Finset Lock := ∅
  lastKey : ℕ := unknown
  firstPress : Bool := true
  lastSymbol : ℕ := 0

/-- A key event. A field that is not in `flags` holds what was in memory. -/
structure KeyEvent where
  press : Bool
  flags : Finset Field
  keyCode : ℤ := 0
  keyId : ℕ := 0
  keySymbol : ℕ := 0
  modifiers : Finset Modifier := ∅
  locks : Finset Lock := ∅
  deriving DecidableEq

/-- `get_keymap_entry` -/
def Device.getKeymapEntry (d : Device) (code : ℤ) : Option Entry × Device :=
  if code < d.minKeycode ∨ d.maxKeycode < code then (none,d)
  else
    let index := (code-d.minKeycode).toNat
    match d.entries[index]?, d.driver with
    | none, _ => (none,d)
    | some entry, none => (if entry.code = code then some entry else none,d)
    | some entry, some driver =>
      if entry.code = code then (some entry,d)
      else
        let r := driver {entry with code}
        if r.1 then (some r.2.fill,{d with entries := d.entries.set index r.2.fill})
        else (none,{d with entries := d.entries.set index r.2})

/-- `lookup_from_table` -/
def Device.lookupFromTable (d : Device) (ev : KeyEvent) (lookup : Finset Field) :
    Device × KeyEvent :=
  let r := d.getKeymapEntry ev.keyCode
  match r.1 with
  | none => (r.2,ev)
  | some entry => (r.2,{ev with
      keyId := if .keyId ∈ lookup then entry.identifier else ev.keyId
      keySymbol :=
        if .keySymbol ∈ lookup then entry.symbol ev.modifiers ev.locks else ev.keySymbol})

/-- `find_key_code_by_id` -/
def Device.findKeyCodeById (d : Device) (id : ℕ) : ℤ :=
  ((d.entries.find? fun entry => entry.identifier = id).map (·.code)).getD (-1)

/-- `find_key_code_by_symbol` -/
def Device.findKeyCodeBySymbol (d : Device) (symbol : ℕ) : ℤ :=
  ((d.entries.find? fun entry => symbol ∈ entry.symbols).map (·.code)).getD (-1)

/-- How `fixup_key_event` translates the fields it is given, and what is missing after that. -/
def Device.translate (d : Device) (ev : KeyEvent) (valid : Finset Field) :
    (Device × KeyEvent) × Finset Field :=
  let missing := validᶜ
  let upTranslated := {ev with keySymbol := idToSymbol ev.keyId ev.modifiers ev.locks}
  if d.entries ≠ [] then
    if .keyCode ∈ valid then (d.lookupFromTable ev missing,missing \ {.keyId,.keySymbol})
    else if .keyId ∈ valid then
      let keyCode := d.findKeyCodeById ev.keyId
      if keyCode ≠ -1 then
        (d.lookupFromTable {ev with keyCode} missing,missing \ {.keyCode,.keySymbol})
      else if .keySymbol ∈ missing then ((d,{upTranslated with keyCode}),missing \ {.keySymbol})
      else ((d,{ev with keyCode}),missing)
    else if .keySymbol ∈ valid then
      let keyCode := d.findKeyCodeBySymbol ev.keySymbol
      if keyCode ≠ -1 then
        (d.lookupFromTable {ev with keyCode} missing,missing \ {.keyCode,.keyId})
      else
        -- the identifier is set here, but the symbol is taken from what is missing
        ((d,{ev with keyCode, keyId := symbolToId ev.keySymbol}),missing \ {.keySymbol})
    else ((d,ev),missing)
  else if .keyId ∈ valid then
    if .keySymbol ∈ missing then ((d,upTranslated),missing \ {.keySymbol}) else ((d,ev),missing)
  else if .keySymbol ∈ valid then
    ((d,{ev with keyId := symbolToId ev.keySymbol}),missing \ {.keyId})
  else ((d,ev),missing)

/-- The modifiers of an event, cached ones if they are missing. -/
def Device.modifiersOf (d : Device) (ev : KeyEvent) : Finset Modifier :=
  if .modifiers ∈ ev.flags then ev.modifiers else d.modifiersL ∪ d.modifiersR

def Device.locksOf (d : Device) (ev : KeyEvent) : Finset Lock :=
  if .locks ∈ ev.flags then ev.locks else d.locks

/-- `fixup_key_event` up to where remaining fields are cleared. -/
def Device.complete (d : Device) (ev : KeyEvent) : Device × KeyEvent :=
  let r := d.translate
    {ev with flags := .univ, modifiers := d.modifiersOf ev, locks := d.locksOf ev} ev.flags
  (r.1.1,{r.1.2 with
    keyCode := if .keyCode ∈ r.2 then -1 else r.1.2.keyCode
    keyId := if .keyId ∈ r.2 then unknown else r.1.2.keyId
    keySymbol := if .keySymbol ∈ r.2 then 0 else r.1.2.keySymbol})

/-- Which bit a key stands for, on the right side or not. -/
def modifierKeys : List (ℕ × Bool × Modifier) :=
  [(0xf631,false,.shift),(0xf632,true,.shift),(0xf633,false,.control),(0xf634,true,.control),
  (0xf635,false,.alt),(0xf636,true,.alt),(0xf637,false,.metaKey),(0xf638,true,.metaKey),
  (0xf639,false,.super),(0xf63a,true,.super),(0xf63b,false,.hyper),(0xf63c,true,.hyper)]

def bitOf (id symbol : ℕ) : Option (Bool × Modifier) :=
  (modifierKeys.lookup id).map fun b => if b = (true,.alt) ∧ symbol = altGr then (true,.altgr) else b

def Device.updateModifiers (d : Device) (ev : KeyEvent) : Device :=
  if keyType ev.keySymbol = modifierType then
    match bitOf ev.keyId ev.keySymbol, ev.press with
    | none, _ => d
    | some (false,m), true => {d with modifiersL := insert m d.modifiersL}
    | some (true,m), true => {d with modifiersR := insert m d.modifiersR}
    | some (false,m), false => {d with modifiersL := d.modifiersL.erase m}
    | some (true,m), false => {d with modifiersR := d.modifiersR.erase m}
  else d

/-- The lock that a key toggles. -/
def lockOf (id : ℕ) : Finset Lock :=
  if id = 0xf63d then {.caps} else if id = 0xf63e then {.num} else if id = 0xf63f then {.scroll} else ∅

def Device.updateLocks (d : Device) (ev : KeyEvent) : Device :=
  if ev.press then {d with
    locks :=
      if d.firstPress ∨ d.lastKey ≠ ev.keyId then symmDiff d.locks (lockOf ev.keyId) else d.locks
    lastKey := ev.keyId
    firstPress := false}
  else {d with firstPress := true}

def Device.updateSymbol (d : Device) (ev : KeyEvent) : Device :=
  if keyType d.lastSymbol = 0xf400 then
    let symbol := combine d.lastSymbol ev.keySymbol
    if ¬ev.press ∧ keyType symbol ≠ modifierType then {d with lastSymbol := symbol} else d
  else {d with lastSymbol := ev.keySymbol}

/-- `fixup_key_event` -/
def Device.fixupKeyEvent (d : Device) (ev : KeyEvent) : Device × KeyEvent :=
  let r := d.complete ev
  let held := r.1.updateModifiers r.2
  let locked := held.updateLocks r.2
  (locked.updateSymbol r.2,{r.2 with
    modifiers :=
      if .modifiers ∉ ev.flags ∧ keyType r.2.keySymbol = modifierType then
        held.modifiersL ∪ held.modifiersR
      else r.2.modifiers
    locks := if .locks ∉ ev.flags ∧ r.2.press then locked.locks else r.2.locks
    keySymbol := combine locked.lastSymbol r.2.keySymbol})

/-- The fields that are given, with a blank in the others. -/
def KeyEvent.given (ev : KeyEvent) : KeyEvent where
  press := ev.press
  flags := ev.flags
  keyCode := if .keyCode ∈ ev.flags then ev.keyCode else 0
  keyId := if .keyId ∈ ev.flags then ev.keyId else 0
  keySymbol := if .keySymbol ∈ ev.flags then ev.keySymbol else 0
  modifiers := if .modifiers ∈ ev.flags then ev.modifiers else ∅
  locks := if .locks ∈ ev.flags then ev.locks else ∅

/-- The code that is given or found in the keymap. -/
def Device.searched (d : Device) (ev : KeyEvent) : ℤ :=
  if .keyCode ∈ ev.flags then ev.keyCode
  else if .keyId ∈ ev.flags then d.findKeyCodeById ev.keyId
  else if .keySymbol ∈ ev.flags then d.findKeyCodeBySymbol ev.keySymbol
  else -1

/-- Neither a code nor a match in the keymap. -/
def Device.NotFound (d : Device) (ev : KeyEvent) : Prop := .keyCode ∉ ev.flags ∧ d.searched ev = -1

instance (d : Device) (ev : KeyEvent) : Decidable (d.NotFound ev) :=
  inferInstanceAs (Decidable (_ ∧ _))

/-- The entry that the keymap provides. -/
def Device.provided (d : Device) (ev : KeyEvent) : Option Entry :=
  if d.entries = [] ∨ d.NotFound ev then none else (d.getKeymapEntry (d.searched ev)).1

def Device.idOf (d : Device) (ev : KeyEvent) : ℕ :=
  if .keyId ∈ ev.flags then ev.keyId
  else
    match d.provided ev with
    | some entry => entry.identifier
    | none => if .keySymbol ∈ ev.flags then symbolToId ev.keySymbol else unknown

def Device.symbolOf (d : Device) (ev : KeyEvent) : ℕ :=
  if .keySymbol ∈ ev.flags then ev.keySymbol
  else
    match d.provided ev with
    | some entry => entry.symbol (d.modifiersOf ev) (d.locksOf ev)
    | none =>
      if .keyId ∈ ev.flags then idToSymbol ev.keyId (d.modifiersOf ev) (d.locksOf ev) else 0

/-- A key event is completed from its given fields. -/
structure Device.Completes (d : Device) (ev : KeyEvent) : Prop where
  given_only : ∀ ev', ev'.given = ev.given → (d.fixupKeyEvent ev').2 = (d.fixupKeyEvent ev).2
  keyCode : .keyCode ∈ ev.flags → (d.fixupKeyEvent ev).2.keyCode = ev.keyCode
  keyId : .keyId ∈ ev.flags → (d.fixupKeyEvent ev).2.keyId = ev.keyId
  keySymbol : .keySymbol ∈ ev.flags →
    (d.fixupKeyEvent ev).2.keySymbol = combine d.lastSymbol ev.keySymbol
  modifiers : .modifiers ∈ ev.flags → (d.fixupKeyEvent ev).2.modifiers = ev.modifiers
  locks : .locks ∈ ev.flags → (d.fixupKeyEvent ev).2.locks = ev.locks
  bySymbol : .keyId ∉ ev.flags → .keySymbol ∈ ev.flags → d.provided ev = none →
    (d.fixupKeyEvent ev).2.keyId = symbolToId ev.keySymbol
  byId : .keySymbol ∉ ev.flags → .keyId ∈ ev.flags → d.provided ev = none →
    (d.fixupKeyEvent ev).2.keySymbol =
      combine d.lastSymbol (idToSymbol ev.keyId (d.modifiersOf ev) (d.locksOf ev))

/-- No field is looked up in an entry that the keymap fails to provide. -/
def Device.Looks (d : Device) (ev : KeyEvent) : Prop :=
  d.entries = [] ∨ (.keyId ∈ ev.flags ∧ .keySymbol ∈ ev.flags) ∨ d.NotFound ev ∨
    (d.provided ev).isSome

/-- A symbol alone that is not in the keymap loses its identifier. -/
def Device.Loses (d : Device) (ev : KeyEvent) : Prop :=
  d.entries ≠ [] ∧ d.NotFound ev ∧ .keyId ∉ ev.flags ∧ .keySymbol ∈ ev.flags ∧
    symbolToId ev.keySymbol ≠ unknown

instance (d : Device) (ev : KeyEvent) : Decidable (d.Loses ev) :=
  inferInstanceAs (Decidable (_ ∧ _ ∧ _ ∧ _ ∧ _))

theorem getKeymapEntry_device (d : Device) (code : ℤ) :
    ∃ entries, (d.getKeymapEntry code).2 = {d with entries} := by
  unfold Device.getKeymapEntry
  split_ifs
  · exact ⟨d.entries,rfl⟩
  · dsimp only
    split
    · exact ⟨d.entries,rfl⟩
    · exact ⟨d.entries,rfl⟩
    · split_ifs
      exacts [⟨d.entries,rfl⟩,⟨_,rfl⟩,⟨_,rfl⟩]

theorem lookupFromTable_device (d : Device) (ev : KeyEvent) (lookup : Finset Field) :
    ∃ entries, (d.lookupFromTable ev lookup).1 = {d with entries} := by
  unfold Device.lookupFromTable
  dsimp only
  split <;> exact getKeymapEntry_device d ev.keyCode

theorem complete_device (d : Device) (ev : KeyEvent) :
    ∃ entries, (d.complete ev).1 = {d with entries} := by
  unfold Device.complete Device.translate
  dsimp only
  split_ifs <;> first | exact lookupFromTable_device d _ _ | exact ⟨d.entries,rfl⟩

/-- What the translation gives where no entry is missed. -/
theorem complete_event {d : Device} {ev : KeyEvent} (h : d.Looks ev) :
    (d.complete ev).2 = {
      press := ev.press
      flags := .univ
      keyCode :=
        if .keyCode ∈ ev.flags then ev.keyCode else if d.entries = [] then -1 else d.searched ev
      keyId := if d.Loses ev then unknown else d.idOf ev
      keySymbol := d.symbolOf ev
      modifiers := d.modifiersOf ev
      locks := d.locksOf ev} := by
  unfold Device.Looks Device.provided at h
  unfold Device.complete Device.translate Device.lookupFromTable Device.Loses Device.idOf
    Device.symbolOf Device.provided
  unfold Device.NotFound Device.searched at *
  by_cases ht : d.entries = []
  · by_cases hc : Field.keyCode ∈ ev.flags <;> by_cases hi : Field.keyId ∈ ev.flags <;>
      by_cases hs : Field.keySymbol ∈ ev.flags <;> simp [ht,hc,hi,hs]
  · by_cases hc : Field.keyCode ∈ ev.flags
    · cases he : (d.getKeymapEntry ev.keyCode).1 <;> by_cases hi : Field.keyId ∈ ev.flags <;>
        by_cases hs : Field.keySymbol ∈ ev.flags <;> simp_all
    · by_cases hi : Field.keyId ∈ ev.flags
      · by_cases hn : d.findKeyCodeById ev.keyId = -1
        · by_cases hs : Field.keySymbol ∈ ev.flags <;> simp_all
        · cases he : (d.getKeymapEntry (d.findKeyCodeById ev.keyId)).1 <;>
            by_cases hs : Field.keySymbol ∈ ev.flags <;> simp_all
      · by_cases hs : Field.keySymbol ∈ ev.flags
        · by_cases hn : d.findKeyCodeBySymbol ev.keySymbol = -1
          · simp_all
          · cases he : (d.getKeymapEntry (d.findKeyCodeBySymbol ev.keySymbol)).1 <;> simp_all
        · simp_all

theorem updateModifiers_entries (d : Device) (entries : List Entry) (ev : KeyEvent) :
    {d with entries}.updateModifiers ev = {d.updateModifiers ev with entries} := by
  unfold Device.updateModifiers
  split_ifs
  · split <;> simp_all
  · rfl

theorem updateLocks_entries (d : Device) (entries : List Entry) (ev : KeyEvent) :
    {d with entries}.updateLocks ev = {d.updateLocks ev with entries} := by
  unfold Device.updateLocks
  split_ifs <;> rfl

theorem updateLocks_lastSymbol (d : Device) (ev e : KeyEvent) :
    ((d.updateModifiers ev).updateLocks e).lastSymbol = d.lastSymbol := by
  unfold Device.updateLocks Device.updateModifiers
  split_ifs
  all_goals first | rfl | (split <;> rfl)

/-- The event that is made of a translated one does not depend on the keymap. -/
theorem fixup_event (d : Device) (ev : KeyEvent) :
    (d.fixupKeyEvent ev).2 =
      let e := (d.complete ev).2
      let held := d.updateModifiers e
      {e with
        modifiers :=
          if .modifiers ∉ ev.flags ∧ keyType e.keySymbol = modifierType then
            held.modifiersL ∪ held.modifiersR
          else e.modifiers
        locks := if .locks ∉ ev.flags ∧ e.press then (held.updateLocks e).locks else e.locks
        keySymbol := combine d.lastSymbol e.keySymbol} := by
  obtain ⟨entries,he⟩ := complete_device d ev
  simp only [Device.fixupKeyEvent,he,updateModifiers_entries,updateLocks_entries,
    updateLocks_lastSymbol]

section given
variable (d : Device) (ev : KeyEvent)

@[simp] theorem searched_given : d.searched ev.given = d.searched ev := by
  simp only [Device.searched,KeyEvent.given]
  split_ifs <;> rfl

@[simp] theorem modifiersOf_given : d.modifiersOf ev.given = d.modifiersOf ev := by
  simp only [Device.modifiersOf,KeyEvent.given]
  split_ifs <;> rfl

@[simp] theorem locksOf_given : d.locksOf ev.given = d.locksOf ev := by
  simp only [Device.locksOf,KeyEvent.given]
  split_ifs <;> rfl

@[simp] theorem provided_given : d.provided ev.given = d.provided ev := by
  simp [Device.provided,Device.NotFound]
  rfl

@[simp] theorem looks_given : d.Looks ev.given ↔ d.Looks ev := by
  simp [Device.Looks,Device.NotFound]
  rfl

/-- Where no entry is missed, the blanks make no difference. -/
theorem complete_given {d : Device} {ev : KeyEvent} (h : d.Looks ev) :
    (d.complete ev.given).2 = (d.complete ev).2 := by
  rw [complete_event h,complete_event ((looks_given d ev).mpr h)]
  simp only [Device.Loses,Device.NotFound,Device.idOf,Device.symbolOf,searched_given,
    provided_given,modifiersOf_given,locksOf_given]
  by_cases hc : Field.keyCode ∈ ev.flags <;> by_cases hi : Field.keyId ∈ ev.flags <;>
    by_cases hs : Field.keySymbol ∈ ev.flags <;> simp [KeyEvent.given,hc,hi,hs]

end given

theorem fixup_given {d : Device} {ev : KeyEvent} (h : d.Looks ev) :
    (d.fixupKeyEvent ev.given).2 = (d.fixupKeyEvent ev).2 := by
  rw [fixup_event,fixup_event,complete_given h]
  rfl

/-- A missed entry leaves in the event what was in memory. -/
theorem complete_missed {d : Device} {ev : KeyEvent} (h : ¬d.Looks ev) :
    (d.complete ev).2.keyId = ev.keyId ∧ (d.complete ev).2.keySymbol = ev.keySymbol := by
  simp only [Device.Looks,not_or] at h
  obtain ⟨ht,-,hn,hp⟩ := h
  simp only [Device.provided,ht,hn,or_self,if_false,Option.not_isSome_iff_eq_none] at hp
  unfold Device.NotFound Device.searched at hn
  unfold Device.searched at hp
  unfold Device.complete Device.translate Device.lookupFromTable
  by_cases hc : Field.keyCode ∈ ev.flags
  · simp_all
  · by_cases hi : Field.keyId ∈ ev.flags <;> by_cases hs : Field.keySymbol ∈ ev.flags <;> simp_all

theorem mem_of_lookup {β : Type} {l : List (ℕ × β)} {k : ℕ} {b : β} (h : l.lookup k = some b) :
    (k,b) ∈ l := by
  obtain ⟨l₁,l₂,rfl,-⟩ := List.lookup_eq_some_iff.mp h
  simp

/-- Dead keys combine with and make symbols of one byte only. -/
theorem combine_cases (last symbol : ℕ) :
    combine last symbol = symbol ∨ symbol < 0x100 ∧ combine last symbol < 0x100 := by
  have htable : ∀ map ∈ deadkeyMaps, ∀ c ∈ map.2, c.1 < 0x100 ∧ c.2 < 0x100 := by decide
  unfold combine
  split_ifs
  · cases hl : deadkeyMaps.lookup last with
    | none => exact .inl rfl
    | some combos =>
      cases hc : combos.lookup symbol with
      | none => exact .inl (by simp [hc])
      | some result =>
        exact .inr (by simpa [hc] using htable _ (mem_of_lookup hl) _ (mem_of_lookup hc))
  · exact .inl rfl

theorem looks_congr {d : Device} {ev ev' : KeyEvent} (h : ev'.given = ev.given) :
    d.Looks ev' ↔ d.Looks ev := by
  rw [← looks_given,h,looks_given]

/-- A missed entry is not noticed, and the event shows what was in memory. -/
theorem looks_of_given_only {d : Device} {ev : KeyEvent}
    (h : ∀ ev', ev'.given = ev.given → (d.fixupKeyEvent ev').2 = (d.fixupKeyEvent ev).2) :
    d.Looks ev := by
  by_contra hl
  by_cases hi : .keyId ∈ ev.flags
  · have hs : .keySymbol ∉ ev.flags := fun hs => hl (.inr (.inl ⟨hi,hs⟩))
    have hstale (symbol : ℕ) (h' : 0x100 ≤ symbol) :
        (d.fixupKeyEvent ev).2.keySymbol = symbol := by
      have hg : {ev with keySymbol := symbol}.given = ev.given := by simp [KeyEvent.given,hs]
      rw [← h _ hg,fixup_event]
      dsimp only
      rw [(complete_missed (mt (looks_congr hg).mp hl)).2]
      exact (combine_cases d.lastSymbol symbol).resolve_right (by omega)
    have := hstale 0x100 le_rfl
    have := hstale 0x101 (by decide)
    omega
  · have hstale (id : ℕ) : (d.fixupKeyEvent ev).2.keyId = id := by
      have hg : {ev with keyId := id}.given = ev.given := by simp [KeyEvent.given,hi]
      rw [← h _ hg,fixup_event]
      exact (complete_missed (mt (looks_congr hg).mp hl)).1
    have := hstale 0
    have := hstale 1
    omega

/-- Exactly the events that are completed from their given fields. -/
theorem completes_iff (d : Device) (ev : KeyEvent) :
    d.Completes ev ↔ d.Looks ev ∧ ¬d.Loses ev := by
  constructor
  · intro h
    refine ⟨looks_of_given_only h.given_only,fun hl => ?_⟩
    have hp : d.provided ev = none := by simp [Device.provided,hl.2.1]
    have hid := h.bySymbol hl.2.2.1 hl.2.2.2.1 hp
    rw [fixup_event,complete_event (looks_of_given_only h.given_only)] at hid
    simp only [if_pos hl] at hid
    exact hl.2.2.2.2 hid.symm
  · rintro ⟨h,hl⟩
    have he := fixup_event d ev
    rw [complete_event h] at he
    simp only [if_neg hl] at he
    refine ⟨fun ev' hg => ?_,?_,?_,?_,?_,?_,?_,?_⟩
    · rw [← fixup_given h,← hg,fixup_given ((looks_congr hg).mpr h)]
    all_goals intros; simp_all [Device.idOf,Device.symbolOf,Device.modifiersOf,Device.locksOf]

/-- The symbol `a` is not in the keymap, and the event is left without an identifier. -/
theorem symbol_loses_id :
    ¬∀ (d : Device) (ev : KeyEvent),
      (.keyCode ∈ ev.flags ∨ .keyId ∈ ev.flags ∨ .keySymbol ∈ ev.flags) → d.Completes ev := by
  intro h
  have := (h {entries := [{code := 0, identifier := 0xf602, base := 0x62}]}
    {press := true, flags := {.keySymbol}, keySymbol := 0x61} (by decide)).bySymbol
    (by decide) (by decide) (by decide)
  revert this
  decide

end DirectFB.KeyFixup
