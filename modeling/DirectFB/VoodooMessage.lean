import DirectFB.Memory
import DirectFB.VoodooTypes
import Mathlib.Data.List.TakeWhile

/-! Messages of blocks. The sender computes their size and writes them to a packet, the
receiver parses them with one macro for each block. -/
namespace DirectFB
namespace VoodooMessage
open Memory Voodoo

inductive BlockType
  | none | id | int | uint | data | odata | string
  deriving DecidableEq

/-- The values of the enumeration `VoodooMessageBlockType`. -/
def BlockType.code : BlockType → UInt32
  | .none => 0
  | .id => 1
  | .int => 2
  | .uint => 3
  | .data => 4
  | .odata => 5
  | .string => 6

/-- What a caller passes for a block: a type and its arguments. A pointer is the memory that
it points to, and a string is what stands before its end. -/
inductive Arg
  | id (val : UInt32)
  | int (val : Int32)
  | uint (val : UInt32)
  | data (len : Int32) (ptr : Mem)
  | odata (len : Int32) (ptr : Option Mem)
  | string (chars : List UInt8)

def Arg.type : Arg → BlockType
  | .id _ => .id
  | .int _ => .int
  | .uint _ => .uint
  | .data _ _ => .data
  | .odata _ _ => .odata
  | .string _ => .string

/-- `VoodooMessageBlock`. -/
structure Block where
  type : BlockType
  len : UInt32
  ptr : Option Mem
  val : UInt32

def strlen (chars : List UInt8) : ℕ := (chars.takeWhile (· ≠ 0)).length

/-- The switch in `calc_blocks`. A block keeps what was in `val` before, here zero, where
the pointer is set. -/
def Arg.block : Arg → Block
  | .id val => ⟨.id,4,none,val⟩
  | .int val => ⟨.int,4,none,val.toUInt32⟩
  | .uint val => ⟨.uint,4,none,val⟩
  | .data len ptr => ⟨.data,len.toUInt32,some ptr,0⟩
  | .odata len ptr => ⟨.odata,if ptr.isSome then len.toUInt32 else 0,ptr,0⟩
  | .string chars => ⟨.string,UInt32.ofNat (strlen chars+1),some (ofList (chars++[0])),0⟩

/-- `VOODOO_MANAGER_MESSAGE_BLOCKS_MAX`. -/
def blocksMax : ℕ := 20

/-- The loop of `calc_blocks`, which gives up on more blocks than there is room for. The sum
is unsigned, and stored as an `int`. -/
def calcLoop (blocks : List Block) (size : Int32) : List Arg → List Block × Int32
  | [] => (blocks,size)
  | arg::args =>
    if blocks.length = blocksMax then (blocks,size)
    else calcLoop (blocks++[arg.block]) (size.toUInt32+(8+msgAlign arg.block.len)).toInt32 args

/-- `calc_blocks`, with room for the terminating `VMBT_NONE`. -/
def calcBlocks (args : List Arg) : List Block × Int32 := calcLoop [] 4 args

/-- The switch in `write_blocks`, where each case falls through to the next. -/
def writeContent (m : Mem) (d : ℕ) (len : UInt32) (s : Mem) : Mem :=
  let case4 m := store32 m (d+8) (load32 s 0)
  let case8 m := case4 (store32 m (d+12) (load32 s 4))
  let case12 m := case8 (store32 m (d+16) (load32 s 8))
  let case16 m := case12 (store32 m (d+20) (load32 s 12))
  if len = 16 then case16 m
  else if len = 12 then case12 m
  else if len = 8 then case8 m
  else if len = 4 then case4 m
  else write m (d+8) (bytes s 0 len.toNat)

def writeBlock (m : Mem) (d : ℕ) (block : Block) : Mem :=
  let m := store32 (store32 m d block.type.code) (d+4) block.len
  match block.ptr with
  | some s => writeContent m d block.len s
  | none => if block.len ≠ 0 then store32 m (d+8) block.val else m

/-- `d32 += 2 + (VOODOO_MSG_ALIGN(blocks[i].len) >> 2)`. -/
def advance (d : ℕ) (block : Block) : ℕ := d+4*(2+((msgAlign block.len).toNat >>> 2))

/-- `VoodooManager::write_blocks`. -/
def writeBlocks (m : Mem) (d : ℕ) : List Block → Mem
  | [] => store32 m d BlockType.none.code
  | block::blocks => writeBlocks (writeBlock m d block) (advance d block) blocks

/-- What a macro of the parser returns. A pointer into the message is what it points to. -/
inductive Value
  | id (val : UInt32)
  | int (val : Int32)
  | uint (val : UInt32)
  | data (content : List UInt8)
  | odata (content : Option (List UInt8))
  | string (content : List UInt8)
  deriving DecidableEq

section Parser

variable (m : Mem) (p : ℕ)

/-- `__VOODOO_PARSER_PROLOG`, which asserts the type and reads the length. -/
def prolog (type : BlockType) : Option Int32 :=
  if load32 m p = type.code then some (load32 m (p+4)).toInt32 else none

/-- `__VOODOO_PARSER_EPILOG`. -/
def epilog (length : Int32) : ℕ :=
  ((p : ℤ)+(8+(msgAlign length.toUInt32).toInt32.toInt)).toNat

def content (length : Int32) : List UInt8 := bytes m (p+8) length.toNatClampNeg

/-- `VOODOO_PARSER_GET_ID`, `GET_INT` and `GET_UINT`, which differ in the type. -/
def getWord (type : BlockType) (value : UInt32 → Value) : Option (Value × ℕ) :=
  (prolog m p type).bind fun length =>
    if length = 4 then some (value (load32 m (p+8)),epilog p length) else none

def getId : Option (Value × ℕ) := getWord m p .id .id

def getInt : Option (Value × ℕ) := getWord m p .int fun v => .int v.toInt32

def getUInt : Option (Value × ℕ) := getWord m p .uint .uint

/-- `VOODOO_PARSER_GET_DATA`, and `COPY_DATA`, which copies what is pointed to. -/
def getData : Option (Value × ℕ) :=
  (prolog m p .data).map fun length => (.data (content m p length),epilog p length)

/-- `VOODOO_PARSER_READ_DATA`. -/
def readData (maxLen : Int32) : Option (Value × ℕ) :=
  (prolog m p .data).bind fun length =>
    if length ≤ maxLen then some (.data (content m p length),epilog p length) else none

/-- `VOODOO_PARSER_GET_ODATA`. -/
def getOData : Option (Value × ℕ) :=
  (prolog m p .odata).bind fun length =>
    if 0 ≤ length then
      some (.odata (if length ≠ 0 then some (content m p length) else none),epilog p length)
    else none

/-- `VOODOO_PARSER_GET_STRING`. -/
def getString : Option (Value × ℕ) :=
  (prolog m p .string).bind fun length =>
    if 0 < length then some (.string (content m p length),epilog p length) else none

def get : BlockType → Option (Value × ℕ)
  | .none => none
  | .id => getId m p
  | .int => getInt m p
  | .uint => getUInt m p
  | .data => getData m p
  | .odata => getOData m p
  | .string => getString m p

end Parser

def parse (m : Mem) (p : ℕ) : List BlockType → Option (List Value × ℕ)
  | [] => some ([],p)
  | type::types => (get m p type).bind fun (value,p) =>
    (parse m p types).map fun (values,p) => (value::values,p)

inductive Header
  | request (serial inst method flags : UInt32)
  | response (serial req result inst : UInt32)

/-- `VMSG_REQUEST` or `VMSG_RESPONSE`. -/
def Header.type : Header → UInt32
  | .request .. => 1
  | .response .. => 2

/-- The words of a `VoodooRequestMessage` or a `VoodooResponseMessage`. -/
def Header.words (size : UInt32) : Header → List UInt32
  | .request serial inst method flags => [size,serial,1,inst,method,flags]
  | .response serial req result inst => [size,serial,2,req,result,inst]

/-- `sizeof(VoodooRequestMessage)`. -/
def requestSize : ℕ := 24

/-- `sizeof(VoodooResponseMessage)`. -/
def responseSize : ℕ := 24

def Header.size : Header → ℕ
  | .request .. => requestSize
  | .response .. => responseSize

def writeWords (m : Mem) (a : ℕ) : List UInt32 → Mem
  | [] => m
  | v::words => writeWords (store32 m a v) (a+4) words

/-- A message as `do_request` or `do_respond` writes it to a packet, for a size of the data
that was converted from `int`. -/
def writeMessage (m : Mem) (msg : ℕ) (header : Header) (blocks : List Block) (dataSize : ℕ) :
    Mem :=
  writeBlocks (writeWords m msg (header.words (UInt32.ofNat (header.size+dataSize))))
    (msg+header.size) blocks

/-- `VOODOO_PARSER_BEGIN`. -/
def parserBegin (m : Mem) (msg : ℕ) : Option ℕ :=
  if load32 m (msg+8) = 1 then some (msg+requestSize)
  else if load32 m (msg+8) = 2 then some (msg+responseSize)
  else none

def Arg.length : Arg → ℕ
  | .id _ => 4
  | .int _ => 4
  | .uint _ => 4
  | .data len _ => len.toNatClampNeg
  | .odata len ptr => if ptr.isSome then len.toNatClampNeg else 0
  | .string chars => strlen chars+1

def Arg.occupied (arg : Arg) : ℕ := 8+(arg.length+3)/4*4

def Arg.value : Arg → Value
  | .id val => .id val
  | .int val => .int val
  | .uint val => .uint val
  | .data len ptr => .data (bytes ptr 0 len.toNatClampNeg)
  | .odata len ptr => .odata (ptr.map fun s => bytes s 0 len.toNatClampNeg)
  | .string chars => .string (chars++[0])

def Arg.Proper : Arg → Prop
  | .data len _ => 0 ≤ len
  | .odata len _ => 0 ≤ len
  | .string chars => 0 ∉ chars
  | _ => True

/-- `calc_blocks` asserts that optional data which is there has some length. -/
def Arg.Asserted : Arg → Prop
  | .odata len (some _) => len ≠ 0
  | _ => True

def totalSize (args : List Arg) : ℕ := 4+(args.map Arg.occupied).sum

section Words

theorem toInt_toInt32 {v : UInt32} (h : v.toNat < 2^31) : v.toInt32.toInt = v.toNat := by
  rw [← Int32.toInt_ofNat_of_lt h,← UInt32.toInt32_ofNat',UInt32.ofNat_toNat]

theorem toNatClampNeg_toInt32 {v : UInt32} (h : v.toNat < 2^31) :
    v.toInt32.toNatClampNeg = v.toNat := by
  rw [← Int32.toNat_toInt,toInt_toInt32 h,Int.toNat_natCast]

theorem epilog_eq (p : ℕ) {len : UInt32} (h : len.toNat+3 < 2^31) :
    epilog p len.toInt32 = p+8+(msgAlign len).toNat := by
  have halign : (msgAlign len).toNat < 2^31 := by
    rw [msgAlign_eq (by omega)]
    omega
  rw [epilog,UInt32.toUInt32_toInt32,toInt_toInt32 halign]
  omega

theorem content_eq (m : Mem) (p : ℕ) {len : UInt32} (h : len.toNat+3 < 2^31) :
    content m p len.toInt32 = bytes m (p+8) len.toNat := by
  rw [content,toNatClampNeg_toInt32 (by omega)]

theorem advance_eq (d : ℕ) (block : Block) : advance d block = d+8+(msgAlign block.len).toNat := by
  have halign := msgAlign_toNat block.len
  rw [advance,Nat.shiftRight_eq_div_pow]
  omega

end Words

section Write

/-- Whatever way is taken, the content is copied. -/
theorem writeContent_eq (m : Mem) (d : ℕ) (len : UInt32) (s : Mem) :
    writeContent m d len s = write m (d+8) (bytes s 0 len.toNat) := by
  have h4 := store32_load32 m s (d+8) 0
  have h8 : store32 (store32 m (d+12) (load32 s 4)) (d+8) (load32 s 0) =
      write m (d+8) (bytes s 0 8) := by
    rw [store32_load32 m]
    exact store32_write m s (d+8) 0 4
  have h12 : store32 (store32 (store32 m (d+16) (load32 s 8)) (d+12) (load32 s 4)) (d+8)
      (load32 s 0) = write m (d+8) (bytes s 0 12) := by
    rw [store32_load32 m,show d+16 = d+12+4 from rfl,show 8 = 4+4 from rfl,store32_write m s]
    exact store32_write m s (d+8) 0 8
  have h16 : store32 (store32 (store32 (store32 m (d+20) (load32 s 12)) (d+16) (load32 s 8))
      (d+12) (load32 s 4)) (d+8) (load32 s 0) = write m (d+8) (bytes s 0 16) := by
    rw [store32_load32 m,show d+20 = d+16+4 from rfl,show 12 = 8+4 from rfl,store32_write m s,
      show d+16 = d+12+4 from rfl,show 8 = 4+4 from rfl,store32_write m s]
    exact store32_write m s (d+8) 0 12
  rw [writeContent]
  split_ifs with h₁ h₂ h₃ h₄
  · rw [h₁]
    exact h16
  · rw [h₂]
    exact h12
  · rw [h₃]
    exact h8
  · rw [h₄]
    exact h4
  · rfl

variable {m : Mem} {d x : ℕ} {arg : Arg}

def Arg.bytes : Arg → List UInt8
  | .id val => bytesOf val
  | .int val => bytesOf val.toUInt32
  | .uint val => bytesOf val
  | .data len ptr => Memory.bytes ptr 0 len.toNatClampNeg
  | .odata len ptr => (ptr.map fun s => Memory.bytes s 0 len.toNatClampNeg).getD []
  | .string chars => chars++[0]

theorem strlen_eq {chars : List UInt8} (h : 0 ∉ chars) : strlen chars = chars.length := by
  rw [strlen,List.takeWhile_eq_self_iff.mpr]
  intro c hc
  simpa using fun hzero : c = 0 => h (hzero ▸ hc)

theorem Arg.length_bytes (h : arg.Proper) : arg.bytes.length = arg.length := by
  cases arg with
  | odata len ptr => cases ptr <;> simp [Arg.bytes,Arg.length]
  | string chars => simp [Arg.bytes,Arg.length,strlen_eq h]
  | _ => simp [Arg.bytes,Arg.length]

theorem Arg.block_len (h : arg.Proper) (hlen : arg.length < 2^32) :
    arg.block.len.toNat = arg.length := by
  cases arg with
  | data len ptr => exact Int32.toNat_toUInt32_of_le h
  | odata len ptr =>
    cases ptr with
    | none => rfl
    | some s => exact Int32.toNat_toUInt32_of_le h
  | string chars => exact Nat.mod_eq_of_lt hlen
  | _ => rfl

theorem bytes_ofList (l : List UInt8) : Memory.bytes (ofList l) 0 l.length = l := by
  refine List.ext_getElem (by simp) fun i h₁ h₂ => ?_
  rw [getElem_bytes,ofList,Nat.zero_add,List.getD_eq_getElem _ _ h₂]

/-- A block is its type, its length and its content. -/
theorem writeBlock_eq (h : arg.Proper) (hlen : arg.length < 2^32) : writeBlock m d arg.block =
      write (store32 (store32 m d arg.type.code) (d+4) arg.block.len) (d+8) arg.bytes := by
  have hblock := Arg.block_len h hlen
  cases arg with
  | data len ptr =>
    have hlen' : len.toUInt32.toNat = len.toNatClampNeg := hblock
    simp only [writeBlock,Arg.block,writeContent_eq,hlen',Arg.bytes,Arg.type]
  | odata len ptr =>
    cases ptr with
    | none => simp [writeBlock,Arg.block,Arg.bytes,Arg.type]
    | some s =>
      have hlen' : len.toUInt32.toNat = len.toNatClampNeg := hblock
      simp [writeBlock,Arg.block,writeContent_eq,hlen',Arg.bytes,Arg.type]
  | string chars =>
    have hlen' : (UInt32.ofNat (strlen chars+1)).toNat = (chars++[0]).length := by
      rw [List.length_append,← strlen_eq h]
      exact hblock
    simp only [writeBlock,Arg.block,writeContent_eq,hlen',bytes_ofList,Arg.bytes,Arg.type]
  | _ => rfl

theorem Arg.occupied_eq (h : arg.Proper) (hlen : arg.length+3 < 2^32) :
    arg.occupied = 8+(msgAlign arg.block.len).toNat := by
  have hblock := Arg.block_len h (by omega)
  rw [Arg.occupied,msgAlign_eq (by omega),hblock]

theorem advance_block (h : arg.Proper) (hlen : arg.length+3 < 2^32) :
    advance d arg.block = d+arg.occupied := by
  rw [advance_eq,Arg.occupied_eq h hlen,Nat.add_assoc]

theorem Arg.length_lt (arg : Arg) : arg.length+8 ≤ arg.occupied := by
  rw [Arg.occupied]
  omega

theorem writeBlock_outside (h : arg.Proper) (hlen : arg.length < 2^32)
    (hx : x < d ∨ d+arg.occupied ≤ x) : writeBlock m d arg.block x = m x := by
  have hbytes := Arg.length_bytes h
  have hoccupied := arg.length_lt
  rw [writeBlock_eq h hlen,write_outside _ (by omega),store32_outside _ (by omega),
    store32_outside _ (by omega)]

theorem writeBlocks_outside {args : List Arg} (h : ∀ arg ∈ args, arg.Proper)
    (hsize : totalSize args < 2^31) (hx : x < d ∨ d+totalSize args ≤ x) :
    writeBlocks m d (args.map Arg.block) x = m x := by
  induction args generalizing m d with
  | nil => exact store32_outside _ hx
  | cons arg args ih =>
    have harg := h arg (List.mem_cons_self ..)
    have hoccupied := arg.length_lt
    have hsum : totalSize (arg::args) = arg.occupied+totalSize args := by
      simp only [totalSize,List.map_cons,List.sum_cons]
      omega
    rw [List.map_cons,writeBlocks,advance_block harg (by omega),
      ih (fun a ha => h a (List.mem_cons_of_mem _ ha)) (by omega) (by omega)]
    exact writeBlock_outside harg (by omega) (by omega)

end Write

section Parse

variable {m u : Mem} {d : ℕ} {arg : Arg} {args : List Arg}

structure Written (u : Mem) (d : ℕ) (arg : Arg) : Prop where
  type : load32 u d = arg.type.code
  len : load32 u (d+4) = arg.block.len
  content : bytes u (d+8) arg.length = arg.bytes

theorem writeBlock_written (h : arg.Proper) (hlen : arg.length+3 < 2^31)
    (hu : ∀ x, d ≤ x → x < d+arg.occupied → u x = writeBlock m d arg.block x) :
    Written u d arg := by
  have hoccupied := arg.length_lt
  have hbytes := Arg.length_bytes h
  rw [writeBlock_eq h (by omega)] at hu
  refine ⟨?_,?_,?_⟩
  · rw [load32_congr fun x h₁ h₂ => hu x (by omega) (by omega),
      load32_congr fun x h₁ h₂ => write_outside _ (by omega),
      load32_store32_disjoint _ (by omega),load32_store32]
  · rw [load32_congr fun x h₁ h₂ => hu x (by omega) (by omega),
      load32_congr fun x h₁ h₂ => write_outside _ (by omega),load32_store32]
  · rw [bytes_congr fun x h₁ h₂ => hu x (by omega) (by omega),← hbytes]
    exact bytes_write _ _ _

theorem Written.prolog (h : Written u d arg) :
    prolog u d arg.type = some arg.block.len.toInt32 := by
  rw [VoodooMessage.prolog,if_pos h.type,h.len]

theorem Written.word (h : Written u d arg) {v : UInt32} (hlen : arg.length = 4)
    (hv : arg.bytes = bytesOf v) : load32 u (d+8) = v := by
  have hcontent := h.content
  rw [hlen,hv] at hcontent
  exact load32_of_bytes hcontent

/-- The macro for a block gets what was passed for it, and goes on behind the block. -/
theorem Written.get (h : Written u d arg) (hproper : arg.Proper) (hassert : arg.Asserted)
    (hlen : arg.length+3 < 2^31) :
    get u d arg.type = some (arg.value,d+arg.occupied) := by
  have hprolog := h.prolog
  have hblock := Arg.block_len hproper (by omega)
  have hend : epilog d arg.block.len.toInt32 = d+arg.occupied := by
    rw [epilog_eq d (by omega),Arg.occupied_eq hproper (by omega),Nat.add_assoc]
  have hcontent : VoodooMessage.content u d arg.block.len.toInt32 = arg.bytes := by
    rw [content_eq u d (by omega),hblock,h.content]
  have hlength : arg.block.len.toInt32.toInt = arg.length := by
    rw [toInt_toInt32 (by omega),hblock]
  generalize arg.block.len.toInt32 = length at hprolog hend hcontent hlength
  cases arg with
  | id val =>
    have hfour : length = 4 := Int32.toInt.inj hlength
    have hword := h.word (v := val) rfl rfl
    simp only [VoodooMessage.get,getId,getWord,Arg.type] at hprolog ⊢
    rw [hprolog,Option.bind_some,if_pos hfour,hword,hend]
    rfl
  | int val =>
    have hfour : length = 4 := Int32.toInt.inj hlength
    have hword := h.word (v := val.toUInt32) rfl rfl
    simp only [VoodooMessage.get,getInt,getWord,Arg.type] at hprolog ⊢
    rw [hprolog,Option.bind_some,if_pos hfour,hword,hend]
    rfl
  | uint val =>
    have hfour : length = 4 := Int32.toInt.inj hlength
    have hword := h.word (v := val) rfl rfl
    simp only [VoodooMessage.get,getUInt,getWord,Arg.type] at hprolog ⊢
    rw [hprolog,Option.bind_some,if_pos hfour,hword,hend]
    rfl
  | data len ptr =>
    simp only [VoodooMessage.get,getData,Arg.type] at hprolog ⊢
    rw [hprolog,Option.map_some,hcontent,hend]
    rfl
  | odata len ptr =>
    have hnonneg : 0 ≤ length := by
      rw [Int32.le_iff_toInt_le,hlength]
      exact Int.natCast_nonneg _
    simp only [VoodooMessage.get,getOData,Arg.type] at hprolog ⊢
    rw [hprolog,Option.bind_some,if_pos hnonneg,hcontent,hend]
    cases ptr with
    | none =>
      have hzero : length = 0 := Int32.toInt.inj hlength
      rw [if_neg (not_not.mpr hzero)]
      rfl
    | some s =>
      have hne : length ≠ 0 := by
        rintro rfl
        have hlen0 : len.toNatClampNeg = 0 := (Int.natCast_eq_zero.mp hlength.symm)
        refine hassert (Int32.toInt.inj ?_)
        rw [← Int32.cast_toNatClampNeg len hproper,hlen0]
        rfl
      rw [if_pos hne]
      rfl
  | string chars =>
    have hpos : 0 < length := by
      rw [Int32.lt_iff_toInt_lt,hlength]
      exact Int.natCast_pos.mpr (Nat.succ_pos _)
    simp only [VoodooMessage.get,getString,Arg.type] at hprolog ⊢
    rw [hprolog,Option.bind_some,if_pos hpos,hcontent,hend]
    rfl

theorem parse_writeBlocks (h : ∀ arg ∈ args, arg.Proper ∧ arg.Asserted)
    (hsize : totalSize args < 2^31) :
    parse (writeBlocks m d (args.map Arg.block)) d (args.map Arg.type) =
      some (args.map Arg.value,d+totalSize args-4) ∧
    load32 (writeBlocks m d (args.map Arg.block)) (d+totalSize args-4) = BlockType.none.code := by
  induction args generalizing m d with
  | nil => exact ⟨rfl,load32_store32 m d _⟩
  | cons arg args ih =>
    obtain ⟨harg,hassert⟩ := h arg (List.mem_cons_self ..)
    have hrest := fun a ha => h a (List.mem_cons_of_mem arg ha)
    have hoccupied := arg.length_lt
    have hsum : totalSize (arg::args) = arg.occupied+totalSize args := by
      simp only [totalSize,List.map_cons,List.sum_cons]
      omega
    have hfour : 4 ≤ totalSize args := Nat.le_add_right _ _
    have hadvance : advance d arg.block = d+arg.occupied := advance_block harg (by omega)
    have hwritten : Written (writeBlocks m d ((arg::args).map Arg.block)) d arg := by
      refine writeBlock_written (m := m) harg (by omega) fun x h₁ h₂ => ?_
      rw [List.map_cons,writeBlocks,hadvance]
      exact writeBlocks_outside (fun a ha => (hrest a ha).1) (by omega) (.inl (by omega))
    obtain ⟨hparse,hnone⟩ := ih (m := writeBlock m d arg.block) (d := d+arg.occupied) hrest
      (by omega)
    have hend : d+totalSize (arg::args)-4 = d+arg.occupied+totalSize args-4 := by omega
    rw [hend]
    refine ⟨?_,?_⟩
    · have hget := hwritten.get harg hassert (by omega)
      rw [List.map_cons] at hget
      rw [List.map_cons,List.map_cons,parse,hget,Option.bind_some]
      simp only [List.map_cons,writeBlocks,hadvance,hparse,Option.map_some]
    · rw [List.map_cons,writeBlocks,hadvance]
      exact hnone

end Parse

section Calculate

theorem calcLoop_eq (blocks : List Block) (size : Int32) (args : List Arg)
    (h : ∀ arg ∈ args, arg.Proper ∧ arg.length+3 < 2^31)
    (hmax : blocks.length+args.length ≤ blocksMax) :
    (calcLoop blocks size args).1 = blocks++args.map Arg.block ∧
    (calcLoop blocks size args).2 =
      (size.toUInt32+UInt32.ofNat (args.map Arg.occupied).sum).toInt32 := by
  induction args generalizing blocks size with
  | nil => simp [calcLoop]
  | cons arg args ih =>
    obtain ⟨harg,hlen⟩ := h arg (List.mem_cons_self ..)
    rw [List.length_cons] at hmax
    have hoccupied : 8+msgAlign arg.block.len = UInt32.ofNat arg.occupied := by
      rw [Arg.occupied_eq harg (by omega),UInt32.ofNat_add,UInt32.ofNat_toNat]
      rfl
    rw [calcLoop,if_neg (by omega)]
    obtain ⟨hblocks,hsize⟩ := ih (blocks++[arg.block])
      (size.toUInt32+(8+msgAlign arg.block.len)).toInt32
      (fun a ha => h a (List.mem_cons_of_mem arg ha)) (by simp; omega)
    rw [hblocks,hsize]
    refine ⟨by simp,?_⟩
    rw [hoccupied,UInt32.toUInt32_toInt32,List.map_cons,List.sum_cons,UInt32.ofNat_add,
      UInt32.add_assoc]

theorem length_le_totalSize {args : List Arg} {arg : Arg} (h : arg ∈ args) :
    arg.length+12 ≤ totalSize args := by
  have hlt := arg.length_lt
  have hle := List.le_sum_of_mem (List.mem_map_of_mem (f := Arg.occupied) h)
  rw [totalSize]
  omega

theorem calcBlocks_eq {args : List Arg} (h : ∀ arg ∈ args, arg.Proper)
    (hmax : args.length ≤ blocksMax) (hsize : totalSize args < 2^31) :
    (calcBlocks args).1 = args.map Arg.block ∧
    (calcBlocks args).2.toInt = totalSize args := by
  obtain ⟨hblocks,hsum⟩ := calcLoop_eq [] 4 args
    (fun arg ha => ⟨h arg ha,by have := length_le_totalSize ha; omega⟩) (by simpa using hmax)
  refine ⟨hblocks,?_⟩
  have hfour : (4 : Int32).toUInt32+UInt32.ofNat (args.map Arg.occupied).sum =
      UInt32.ofNat (totalSize args) := by
    rw [totalSize,UInt32.ofNat_add]
    rfl
  have hnat : (UInt32.ofNat (totalSize args)).toNat = totalSize args :=
    Nat.mod_eq_of_lt (by omega)
  rw [calcBlocks,hsum,hfour,toInt_toInt32 (by omega),hnat]

end Calculate

section Message

variable {m : Mem} {msg x : ℕ}

theorem writeWords_outside {words : List UInt32} {a : ℕ}
    (hx : x < a ∨ a+4*words.length ≤ x) : writeWords m a words x = m x := by
  induction words generalizing m a with
  | nil => rfl
  | cons v words ih =>
    rw [List.length_cons] at hx
    rw [writeWords,ih (by omega),store32_outside _ (by omega)]

theorem load32_writeWords {words : List UInt32} {a i : ℕ} (h : i < words.length) :
    load32 (writeWords m a words) (a+4*i) = words[i] := by
  induction words generalizing m a i with
  | nil => cases h
  | cons v words ih =>
    rw [writeWords]
    cases i with
    | zero =>
      rw [load32_congr fun x h₁ h₂ => writeWords_outside (by omega)]
      exact load32_store32 m a v
    | succ i =>
      rw [show a+4*(i+1) = a+4+4*i by omega]
      exact ih (Nat.lt_of_succ_lt_succ h)

theorem Header.size_eq (header : Header) : header.size = 24 := by
  cases header <;> rfl

theorem Header.length_words (header : Header) (size : UInt32) : (header.words size).length = 6 := by
  cases header <;> rfl

theorem parserBegin_eq {u : Mem} {header : Header} {size : UInt32}
    (hu : ∀ x, msg ≤ x → x < msg+24 → u x = writeWords m msg (header.words size) x) :
    parserBegin u msg = some (msg+header.size) ∧ load32 u msg = size := by
  have hsize : load32 u msg = size := by
    rw [load32_congr (a := msg) fun x h₁ h₂ => hu x (by omega) (by omega)]
    have hfirst := load32_writeWords (m := m) (a := msg)
      (show 0 < (header.words size).length by simp [Header.length_words])
    cases header <;> exact hfirst
  have htype : load32 u (msg+8) = header.type := by
    rw [load32_congr (a := msg+8) fun x h₁ h₂ => hu x (by omega) (by omega)]
    have hthird := load32_writeWords (m := m) (a := msg)
      (show 2 < (header.words size).length by simp [Header.length_words])
    cases header <;> exact hthird
  refine ⟨?_,hsize⟩
  rw [parserBegin,htype]
  cases header <;> rfl

end Message

/-- Up to 20 blocks, of less than 2 GiB in all, survive the way through a message: the size is
what the blocks and the terminator occupy, nothing is written outside of it, and the parser
gets the blocks and ends on the terminator, the last word of the message. Optional data
comes with some length if it is there, as asserted. -/
theorem blocks_round_trip (args : List Arg) (hmax : args.length ≤ blocksMax)
    (h : ∀ arg ∈ args, arg.Proper ∧ arg.Asserted) (hsize : totalSize args < 2^31)
    (header : Header) (m : Mem) (msg : ℕ) :
    let (blocks,size) := calcBlocks args
    let message := writeMessage m msg header blocks size.toNatClampNeg
    size.toInt = totalSize args ∧
    (∀ x, x < msg ∨ msg+header.size+totalSize args ≤ x → message x = m x) ∧
    (∀ u x, x < msg+header.size ∨ msg+header.size+totalSize args ≤ x →
      writeBlocks u (msg+header.size) blocks x = u x) ∧
    (load32 message msg).toNat = header.size+totalSize args ∧
    ∃ p, (parserBegin message msg).bind (parse message · (args.map Arg.type)) =
        some (args.map Arg.value,p) ∧
      load32 message p = BlockType.none.code ∧ p+4 = msg+(load32 message msg).toNat := by
  have hproper := fun arg ha => (h arg ha).1
  obtain ⟨hblocks,hcalc⟩ := calcBlocks_eq hproper hmax hsize
  have hnat : (calcBlocks args).2.toNatClampNeg = totalSize args := by
    rw [← Int32.toNat_toInt,hcalc,Int.toNat_natCast]
  have hfour : 4 ≤ totalSize args := Nat.le_add_right _ _
  have hheader := header.size_eq
  simp only [hblocks,hnat]
  set size := UInt32.ofNat (header.size+totalSize args) with hsizeOf
  have hword : size.toNat = header.size+totalSize args := Nat.mod_eq_of_lt (by omega)
  have houtside : ∀ u x, x < msg+header.size ∨ msg+header.size+totalSize args ≤ x →
      writeBlocks u (msg+header.size) (args.map Arg.block) x = u x :=
    fun u x hx => writeBlocks_outside hproper hsize hx
  obtain ⟨hparse,hnone⟩ := parse_writeBlocks (m := writeWords m msg (header.words size))
    (d := msg+header.size) h hsize
  have hsame : ∀ x, msg ≤ x → x < msg+24 → writeMessage m msg header (args.map Arg.block)
      (totalSize args) x = writeWords m msg (header.words size) x :=
    fun x _ hx => houtside _ x (by omega)
  obtain ⟨hbegin,hload⟩ := parserBegin_eq hsame
  refine ⟨hcalc,fun x hx => ?_,houtside,by rw [hload,hword],_,?_,hnone,?_⟩
  · rw [writeMessage,houtside _ x (by omega),writeWords_outside]
    rw [Header.length_words]
    omega
  · rw [hbegin,Option.bind_some]
    exact hparse
  · rw [hload,hword]
    omega

section Runs

def mixed : List Arg :=
  [.id 7,.int (-3),.uint 4294967295,.data 5 (ofList [1,2,3,4,5]),.odata 8 (some (ofList [8])),
    .odata 9 none,.string [104,105]]

theorem mixed_round_trip :
    let message := writeMessage (fun _ => 0) 100 (.request 1 2 3 1) (calcBlocks mixed).1
      (calcBlocks mixed).2.toNatClampNeg
    (calcBlocks mixed).2.toInt = 92 ∧
    ∃ p, (parserBegin message 100).bind (parse message · (mixed.map Arg.type)) =
        some (mixed.map Arg.value,p) ∧
      load32 message p = BlockType.none.code ∧ p+4 = 100+(load32 message 100).toNat := by
  obtain ⟨hsize,-,-,-,hparse⟩ := blocks_round_trip mixed (by decide)
    (by simp [mixed,Arg.Proper,Arg.Asserted]) (by decide) (.request 1 2 3 1) (fun _ => 0)
    100
  exact ⟨hsize,hparse⟩

/-- Optional data of no length is not there any more, and the size of blocks of 4 GiB is that
of 36 bytes. -/
theorem empty_odata_lost_and_size_wrapped :
    (parse (writeBlocks (fun _ => 0) 0 (calcBlocks [.odata 0 (some (ofList []))]).1) 0 [.odata] =
        some ([.odata none],8) ∧
      (Arg.odata 0 (some (ofList []))).value = .odata (some [])) ∧
    (calcBlocks (List.replicate 4 (.data (2^30) (ofList [])))).2.toInt = 36 ∧
    totalSize (List.replicate 4 (.data (2^30) (ofList []))) = 36+2^32 := by
  refine ⟨⟨?_,rfl⟩,?_,?_⟩
  · decide
  · decide
  · decide

end Runs

end VoodooMessage

end DirectFB
