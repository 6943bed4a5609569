import Mathlib.Tactic
import Mathlib.Data.List.GetD

/-! Memory as a function from addresses to bytes, with words of 32 bits in the order of a
little-endian machine. -/
namespace Memory

/-- The bytes from a base address on. -/
abbrev Mem := ℕ → UInt8

/-- The `n` bytes at `a`. -/
def bytes (m : Mem) (a n : ℕ) : List UInt8 := (List.range n).map fun i => m (a+i)

/-- What `memcpy` makes of the memory at `a`. -/
def write (m : Mem) (a : ℕ) (l : List UInt8) : Mem := fun x =>
  if a ≤ x ∧ x < a+l.length then l.getD (x-a) 0 else m x

def ofList (l : List UInt8) : Mem := fun i => l.getD i 0

def wordOf (b₀ b₁ b₂ b₃ : UInt8) : UInt32 :=
  UInt32.ofNat (b₀.toNat+2^8*b₁.toNat+2^16*b₂.toNat+2^24*b₃.toNat)

def bytesOf (v : UInt32) : List UInt8 :=
  [UInt8.ofNat v.toNat,UInt8.ofNat (v.toNat/2^8),UInt8.ofNat (v.toNat/2^16),
    UInt8.ofNat (v.toNat/2^24)]

def load32 (m : Mem) (a : ℕ) : UInt32 := wordOf (m a) (m (a+1)) (m (a+2)) (m (a+3))

def store32 (m : Mem) (a : ℕ) (v : UInt32) : Mem := write m a (bytesOf v)

variable (m : Mem) (a : ℕ) {l : List UInt8} {v : UInt32}

@[simp] theorem length_bytes (a n : ℕ) : (bytes m a n).length = n := by simp [bytes]

@[simp] theorem length_bytesOf (v : UInt32) : (bytesOf v).length = 4 := rfl

@[simp] theorem getElem_bytes (a n i : ℕ) (h : i < (bytes m a n).length) :
    (bytes m a n)[i] = m (a+i) := by simp [bytes]

theorem getD_bytes {n i : ℕ} (h : i < n) : (bytes m a n).getD i 0 = m (a+i) := by
  rw [List.getD_eq_getElem _ _ (by simpa using h),getElem_bytes]

theorem bytes_add (a n k : ℕ) : bytes m a (n+k) = bytes m a n++bytes m (a+n) k := by
  simp only [bytes,List.range_add,List.map_append,List.map_map]
  refine congrArg _ (List.map_congr_left fun i _ => ?_)
  simp [Nat.add_assoc]

theorem bytes_congr {m m' : Mem} {a n : ℕ} (h : ∀ x, a ≤ x → x < a+n → m' x = m x) :
    bytes m' a n = bytes m a n :=
  List.map_congr_left fun i hi => h _ (Nat.le_add_right a i) (by have := List.mem_range.mp hi; omega)

theorem load32_congr {m m' : Mem} {a : ℕ} (h : ∀ x, a ≤ x → x < a+4 → m' x = m x) :
    load32 m' a = load32 m a := by
  rw [load32,load32,h a (by omega) (by omega),h (a+1) (by omega) (by omega),
    h (a+2) (by omega) (by omega),h (a+3) (by omega) (by omega)]

theorem write_outside {a x : ℕ} (h : x < a ∨ a+l.length ≤ x) :
    write m a l x = m x := if_neg (by omega)

theorem write_inside {i : ℕ} (h : i < l.length) : write m a l (a+i) = l[i] := by
  rw [write,if_pos ⟨Nat.le_add_right a i,by omega⟩,Nat.add_sub_cancel_left,
    List.getD_eq_getElem _ _ h]

@[simp] theorem write_nil : write m a [] = m :=
  funext fun _ => write_outside m (by simp; omega)

theorem bytes_of_append {m : Mem} {a n : ℕ} {rest pre l post : List UInt8}
    (h : bytes m a n++rest = pre++l++post) (hn : pre.length+l.length ≤ n) :
    bytes m (a+pre.length) l.length = l := by
  obtain ⟨k,rfl⟩ := Nat.exists_eq_add_of_le hn
  rw [Nat.add_assoc,bytes_add,bytes_add,List.append_assoc,List.append_assoc,List.append_assoc] at h
  obtain ⟨-,h⟩ := List.append_inj h (length_bytes m a pre.length)
  exact (List.append_inj h (length_bytes m _ l.length)).1

theorem write_append (l l' : List UInt8) :
    write (write m (a+l.length) l') a l = write m a (l++l') := by
  funext x
  simp only [write,List.length_append]
  by_cases h₁ : a ≤ x ∧ x < a+l.length
  · rw [if_pos h₁,if_pos ⟨h₁.1,by omega⟩,List.getD_append _ _ _ _ (by omega)]
  · rw [if_neg h₁]
    by_cases h₂ : a+l.length ≤ x ∧ x < a+l.length+l'.length
    · rw [if_pos h₂,if_pos ⟨by omega,by omega⟩,List.getD_append_right _ _ _ _ (by omega),
        Nat.sub_add_eq]
    · rw [if_neg h₂,if_neg (by omega)]

theorem bytes_write (l : List UInt8) : bytes (write m a l) a l.length = l := by
  refine List.ext_getElem (by simp) fun i h₁ h₂ => ?_
  rw [getElem_bytes,write_inside m a h₂]

theorem bytes_write_disjoint {a b n : ℕ}
    (h : b+n ≤ a ∨ a+l.length ≤ b) : bytes (write m a l) b n = bytes m b n :=
  bytes_congr fun _ _ _ => write_outside m (by omega)

theorem store32_outside {a x : ℕ} (h : x < a ∨ a+4 ≤ x) : store32 m a v x = m x := write_outside m h

theorem wordOf_bytesOf (v : UInt32) : wordOf (UInt8.ofNat v.toNat) (UInt8.ofNat (v.toNat/2^8))
    (UInt8.ofNat (v.toNat/2^16)) (UInt8.ofNat (v.toNat/2^24)) = v := by
  have hv := v.toNat_lt
  rw [← UInt32.toNat_inj]
  simp only [wordOf,UInt32.toNat_ofNat',UInt8.toNat_ofNat']
  omega

theorem bytesOf_wordOf (b₀ b₁ b₂ b₃ : UInt8) : bytesOf (wordOf b₀ b₁ b₂ b₃) = [b₀,b₁,b₂,b₃] := by
  have h₀ := b₀.toNat_lt
  have h₁ := b₁.toNat_lt
  have h₂ := b₂.toNat_lt
  have h₃ := b₃.toNat_lt
  simp only [bytesOf,wordOf,UInt32.toNat_ofNat',List.cons.injEq,and_true,← UInt8.toNat_inj,
    UInt8.toNat_ofNat']
  omega

theorem load32_store32 (v : UInt32) : load32 (store32 m a v) a = v := by
  have h := fun i (hi : i < (bytesOf v).length) => write_inside m a hi
  rw [load32,store32,show write m a (bytesOf v) a = _ from h 0 (by simp),h 1 (by simp),
    h 2 (by simp),h 3 (by simp)]
  exact wordOf_bytesOf v

theorem load32_of_bytes {m : Mem} {a : ℕ} (h : bytes m a 4 = bytesOf v) : load32 m a = v := by
  have hbytes : [m a,m (a+1),m (a+2),m (a+3)] = bytesOf v := h
  simp only [bytesOf,List.cons.injEq,and_true] at hbytes
  obtain ⟨h₀,h₁,h₂,h₃⟩ := hbytes
  rw [load32,h₀,h₁,h₂,h₃,wordOf_bytesOf]

theorem load32_store32_disjoint {a b : ℕ} (h : b+4 ≤ a ∨ a+4 ≤ b) :
    load32 (store32 m a v) b = load32 m b :=
  load32_congr fun _ _ _ => store32_outside m (by omega)

theorem store32_load32 (m s : Mem) (a b : ℕ) :
    store32 m a (load32 s b) = write m a (bytes s b 4) := by
  rw [store32,load32,bytesOf_wordOf]
  rfl

theorem store32_write (m s : Mem) (a b n : ℕ) :
    store32 (write m (a+4) (bytes s (b+4) n)) a (load32 s b) = write m a (bytes s b (4+n)) := by
  have h := write_append m a (bytes s b 4) (bytes s (b+4) n)
  rw [length_bytes] at h
  rw [store32_load32,h,bytes_add]

end Memory
