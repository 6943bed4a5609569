import Mathlib.Tactic

/-! Spans of a memory whose units all have one size: what a memory is like when a part of a span
has been painted, loops that walk along a span, and words that are made of two units. -/
namespace Span
open Function

section Painted

variable {α : Type*}

def store (m : ℤ → α) (a : ℤ) : Option α → ℤ → α
  | some x => update m a x
  | none => m

/-- The memory in which the positions from `i` to `j` of the span at `D` have got the values
that `v` has for them. -/
def painted (m : ℤ → α) (D : ℤ) (v : ℕ → Option α) (i j : ℕ) : ℤ → α := fun x =>
  if D+i ≤ x ∧ x < D+j then (v (x-D).toNat).getD (m x) else m x

variable {m : ℤ → α} {D a x : ℤ} {v w : ℕ → Option α} {i j k n : ℕ}

@[simp] theorem store_none : store m a none = m := rfl

@[simp] theorem store_some (y : α) : store m a (some y) = update m a y := rfl

theorem store_apply (o : Option α) (x : ℤ) :
    store m a o x = if x = a then o.getD (m x) else m x := by
  cases o with
  | none => simp
  | some y =>
    by_cases hx : x = a
    · subst hx
      simp
    · simp [hx]

@[simp] theorem painted_self : painted m D v i i = m := by
  funext x
  exact if_neg (by omega)

theorem painted_outside (h : x < D+i ∨ D+j ≤ x) : painted m D v i j x = m x := if_neg (by omega)

def Within (D : ℤ) (n : ℕ) (m m' : ℤ → α) : Prop := ∀ x, x < D ∨ D+n ≤ x → m' x = m x

theorem painted_within : Within D n m (painted m D v 0 n) := fun _ h =>
  painted_outside (h.imp (fun hx => by omega) id)

theorem painted_at (hi : i ≤ k) (hj : k < j) : painted m D v i j (D+k) = (v k).getD (m (D+k)) := by
  have hk : (D+k-D).toNat = k := by omega
  rw [painted,if_pos (by omega),hk]

theorem store_painted_right (h : i ≤ j) :
    store (painted m D v i j) (D+j) (v j) = painted m D v i (j+1) := by
  funext x
  rw [store_apply]
  by_cases hx : x = D+j
  · rw [hx,if_pos rfl,painted_outside (by omega),painted_at h (by omega)]
  · rw [if_neg hx,painted,painted]
    by_cases hin : D+i ≤ x ∧ x < D+j
    · rw [if_pos hin,if_pos (by omega)]
    · rw [if_neg hin,if_neg (by omega)]

theorem store_painted_left (h : i < j) :
    store (painted m D v (i+1) j) (D+i) (v i) = painted m D v i j := by
  funext x
  rw [store_apply]
  by_cases hx : x = D+i
  · rw [hx,if_pos rfl,painted_outside (by omega),painted_at le_rfl h]
  · rw [if_neg hx,painted,painted]
    by_cases hin : D+i ≤ x ∧ x < D+j
    · rw [if_pos (by omega),if_pos hin]
    · rw [if_neg (by omega),if_neg hin]

/-- Two values for each position of a span paint the same if they do at each position. -/
theorem painted_eq_iff : painted m D v 0 n = painted m D w 0 n ↔
    ∀ k < n, (v k).getD (m (D+k)) = (w k).getD (m (D+k)) := by
  constructor
  · intro h k hk
    have hx := congrFun h (D+k)
    rwa [painted_at (Nat.zero_le k) hk,painted_at (Nat.zero_le k) hk] at hx
  · intro h
    funext x
    by_cases hx : D ≤ x ∧ x < D+n
    · obtain ⟨k,hk⟩ := Int.eq_ofNat_of_zero_le (sub_nonneg.mpr hx.1)
      obtain rfl : x = D+k := by omega
      rw [painted_at (Nat.zero_le k) (by omega),painted_at (Nat.zero_le k) (by omega)]
      exact h k (by omega)
    · rw [painted_outside (by omega),painted_outside (by omega)]

theorem store_painted_two (h : i ≤ j) :
    store (store (painted m D v i j) (D+j) (v j)) (D+j+1) (v (j+1)) = painted m D v i (j+2) := by
  have hj : D+j+1 = D+(j+1 : ℕ) := by push_cast; ring
  rw [store_painted_right h,hj,store_painted_right (by omega)]

theorem store_painted_two_left (h : i+1 < j) :
    store (store (painted m D v (i+2) j) (D+i) (v i)) (D+i+1) (v (i+1)) = painted m D v i j := by
  have hi : D+i+1 = D+(i+1 : ℕ) := by push_cast; ring
  have hcomm (m : ℤ → α) (o o' : Option α) : store (store m (D+i) o) (D+i+1) o' =
      store (store m (D+i+1) o') (D+i) o := by
    funext x
    simp only [store_apply]
    by_cases hx : x = D+i
    · rw [if_pos hx,if_neg (by omega),if_pos hx,if_neg (by omega)]
    · rw [if_neg hx,if_neg hx]
  rw [hcomm,hi,store_painted_left h,store_painted_left (by omega)]

def pairwise (D : ℤ) (n : ℕ) (single : ℕ → Option α) (pair : ℕ → Option α × Option α) (k : ℕ) :
    Option α :=
  if (D+k)%2 = 0 then if k+1 < n then (pair k).1 else single k
  else if 0 < k then (pair (k-1)).2 else single k

def Single (D : ℤ) (n k : ℕ) : Prop := (D+k)%2 = 0 ∧ k+1 = n ∨ (D+k)%2 = 1 ∧ k = 0

variable {single : ℕ → Option α} {pair : ℕ → Option α × Option α}

theorem pairwise_single (h : Single D n k) : pairwise D n single pair k = single k := by
  rcases h with ⟨heven,hk⟩ | ⟨hodd,rfl⟩
  · rw [pairwise,if_pos heven,if_neg (by omega)]
  · rw [pairwise,if_neg (by omega),if_neg (lt_irrefl 0)]

theorem pairwise_fst (heven : (D+k)%2 = 0) (hk : k+1 < n) :
    pairwise D n single pair k = (pair k).1 := by
  rw [pairwise,if_pos heven,if_pos hk]

theorem pairwise_snd (heven : (D+k)%2 = 0) : pairwise D n single pair (k+1) = (pair k).2 := by
  rw [pairwise,if_neg (by omega),if_pos (Nat.succ_pos k),Nat.add_sub_cancel]

/-- Pairs that agree with the positions one by one make no difference. -/
theorem pairwise_getD {single : ℕ → Option α} {pair : ℕ → Option α × Option α} :
    (∀ k < n, (pairwise D n single pair k).getD (m (D+k)) = (single k).getD (m (D+k))) ↔
    ∀ k, k+1 < n → (D+k)%2 = 0 → (pair k).1.getD (m (D+k)) = (single k).getD (m (D+k)) ∧
      (pair k).2.getD (m (D+k+1)) = (single (k+1)).getD (m (D+k+1)) := by
  constructor
  · intro h k hk heven
    have hfst := h k (by omega)
    have hsnd := h (k+1) hk
    rw [pairwise_fst heven hk] at hfst
    rw [pairwise_snd heven,Nat.cast_succ,← add_assoc] at hsnd
    exact ⟨hfst,hsnd⟩
  · intro h k hk
    by_cases hsingle : Single D n k
    · rw [pairwise_single hsingle]
    · rw [Single] at hsingle
      by_cases heven : (D+k)%2 = 0
      · rw [pairwise_fst heven (by omega)]
        exact (h k (by omega) heven).1
      · obtain ⟨j,rfl⟩ := Nat.exists_eq_succ_of_ne_zero (show k ≠ 0 by omega)
        have hj : (D+j)%2 = 0 := by
          push_cast at heven
          omega
        rw [Nat.succ_eq_add_one,pairwise_snd hj,Nat.cast_succ,← add_assoc]
        exact (h j hk hj).2

end Painted

section Steps

variable {μ γ : Type*}

def steps (body : μ → ℤ → γ → μ) (step : ℤ) (next : γ → γ) : ℕ → μ → ℤ → γ → μ × ℤ × γ
  | 0, m, D, c => (m,D,c)
  | l+1, m, D, c => steps body step next l (body m D c) (D+step) (next c)

/-- What the loop does, from what the body does each time. -/
theorem steps_eq {body : μ → ℤ → γ → μ} {step : ℤ} {next : γ → γ} (st : ℕ → μ) (c : ℕ → γ)
    (hnext : ∀ k, next (c k) = c (k+1)) (D : ℤ) {n : ℕ}
    (h : ∀ k < n, body (st k) (D+k*step) (c k) = st (k+1)) :
    steps body step next n (st 0) D (c 0) = (st n,D+n*step,c n) := by
  induction n generalizing st c D with
  | zero => simp [steps]
  | succ n ih =>
    have hfirst := h 0 (Nat.succ_pos n)
    rw [Nat.cast_zero,zero_mul,add_zero] at hfirst
    have hrest := ih (fun k => st (k+1)) (fun k => c (k+1)) (fun k => hnext (k+1)) (D+step)
      fun k hk => by
        have hk' := h (k+1) (Nat.succ_lt_succ hk)
        push_cast at hk'
        rw [show D+step+k*step = D+(k+1)*step by ring]
        exact hk'
    rw [steps,hfirst,hnext,hrest]
    push_cast
    rw [show D+step+n*step = D+(n+1)*step by ring]

theorem steps_outside {α : Type*} {body : (ℤ → α) → ℤ → γ → ℤ → α} {step : ℤ} {next : γ → γ}
    (hbody : ∀ m D c x, x ≠ D → body m D c x = m x) {n : ℕ} {D x : ℤ}
    (hx : ∀ k < n, x ≠ D+k*step) (m : ℤ → α) (c : γ) : (steps body step next n m D c).1 x = m x := by
  induction n generalizing m D c with
  | zero => rfl
  | succ n ih =>
    have hfirst := hx 0 (Nat.succ_pos n)
    rw [Nat.cast_zero,zero_mul,add_zero] at hfirst
    rw [steps,ih (fun k hk hxk => hx (k+1) (Nat.succ_lt_succ hk) (by rw [hxk]; push_cast; ring)),
      hbody m D c x hfirst]

end Steps

section Stores

variable {α : Type*}

def stores (m : ℤ → α) (l : List (ℤ × Option α)) : ℤ → α :=
  l.foldl (fun m p => store m p.1 p.2) m

variable {l : List (ℤ × Option α)} {a : ℤ}

def collect (f : ℕ → Option α) : ℕ → Option (List α)
  | 0 => some []
  | n+1 => (collect f n).bind fun l => (f n).map fun x => l++[x]

end Stores

section Drawn

variable {α ι : Type*}

/-- What has been drawn from one memory to another: each of some positions has got its value, if
there is one for it, and nothing else has changed. -/
structure Drawn (m m' : ℤ → α) (P : ι → Prop) (D : ι → ℤ) (v : ι → Option α) : Prop where
  inside : ∀ k, P k → m' (D k) = (v k).getD (m (D k))
  outside : ∀ a, (∀ k, P k → a ≠ D k) → m' a = m a

end Drawn

section Words

/-- The order in which the halves of a word are in memory. -/
inductive Endian
  | little
  | big
  deriving DecidableEq

variable {w : ℕ}

def load2 (e : Endian) (m : ℤ → BitVec w) (a : ℤ) : BitVec (w+w) :=
  match e with
  | .little => m (a+1)++m a
  | .big => m a++m (a+1)

def store2 (e : Endian) (m : ℤ → BitVec w) (a : ℤ) (x : BitVec (w+w)) : ℤ → BitVec w :=
  match e with
  | .little => update (update m a (x.setWidth w)) (a+1) ((x >>> w).setWidth w)
  | .big => update (update m a ((x >>> w).setWidth w)) (a+1) (x.setWidth w)

@[simp] theorem low_append (h l : BitVec w) : (h++l).setWidth w = l :=
  BitVec.setWidth_append_eq_right

@[simp] theorem high_append (h l : BitVec w) : ((h++l) >>> w).setWidth w = h := by
  ext i hi
  simp only [BitVec.getElem_setWidth,BitVec.getLsbD_ushiftRight,BitVec.getLsbD_append]
  rw [if_neg (by omega),Nat.add_sub_cancel_left]
  exact BitVec.getLsbD_eq_getElem hi

theorem widened (mask : BitVec w) : mask.setWidth (w+w) = 0#w++mask := by
  ext i hi
  simp only [BitVec.getElem_setWidth,BitVec.getElem_append]
  split
  · exact BitVec.getLsbD_eq_getElem _
  · rw [BitVec.getLsbD_of_ge mask i (by omega)]
    simp

theorem shifted (mask : BitVec w) : mask.setWidth (w+w) <<< w = mask++0#w := by
  ext i hi
  simp only [BitVec.getElem_shiftLeft,BitVec.getElem_append,BitVec.getElem_setWidth]
  by_cases hlow : i < w
  · simp [hlow]
  · simp only [hlow,decide_false,Bool.not_false,Bool.true_and,dif_neg,not_false_eq_true]
    exact BitVec.getLsbD_eq_getElem (by omega)

theorem shifted_or (h l : BitVec w) : h.setWidth (w+w) <<< w ||| l.setWidth (w+w) = h++l := by
  rw [shifted,widened,BitVec.or_append,BitVec.or_zero,BitVec.zero_or]

theorem append_inj {h l h' l' : BitVec w} : h++l = h'++l' ↔ h = h' ∧ l = l' := by
  constructor
  · intro heq
    have hlow := congrArg (BitVec.setWidth w) heq
    rw [low_append,low_append] at hlow
    subst hlow
    exact ⟨(BitVec.append_left_inj l).mp heq,rfl⟩
  · rintro ⟨rfl,rfl⟩
    rfl

theorem low_eq_iff {h l mask key : BitVec w} :
    (h++l) &&& mask.setWidth (w+w) = key.setWidth (w+w) ↔ l &&& mask = key := by
  rw [widened,widened,BitVec.and_append,BitVec.and_zero,append_inj]
  exact and_iff_right rfl

theorem high_eq_iff {h l mask key : BitVec w} :
    (h++l) &&& mask.setWidth (w+w) <<< w = key.setWidth (w+w) <<< w ↔ h &&& mask = key := by
  rw [shifted,shifted,BitVec.and_append,BitVec.and_zero,append_inj]
  exact and_iff_left rfl

def pack (e : Endian) (x y : BitVec w) : BitVec (w+w) :=
  match e with
  | .little => y++x
  | .big => x++y

theorem load2_eq (e : Endian) (m : ℤ → BitVec w) (a : ℤ) :
    load2 e m a = pack e (m a) (m (a+1)) := by
  cases e <;> rfl

theorem store2_pack (e : Endian) (m : ℤ → BitVec w) (a : ℤ) (x y : BitVec w) :
    store2 e m a (pack e x y) = update (update m a x) (a+1) y := by
  cases e <;> simp [store2,pack]

end Words

end Span
