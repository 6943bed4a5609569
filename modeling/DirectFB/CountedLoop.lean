import Mathlib.Tactic

/-! Loops that count up to a bound, and lists that are written by them. -/
namespace CountedLoop

variable {σ α : Type*}

/-- `for (i = 0; i < n; i++)` -/
def upTo (body : ℕ → σ → σ) : ℕ → σ → σ
  | 0, s => s
  | n+1, s => body n (upTo body n s)

theorem upTo_succ (body : ℕ → σ → σ) (n : ℕ) (s : σ) :
    upTo body (n+1) s = body n (upTo body n s) := rfl

theorem upTo_keeps {body : ℕ → σ → σ} {P : ℕ → σ → Prop} {n : ℕ} {s : σ} (h0 : P 0 s)
    (hstep : ∀ i < n, ∀ t, P i t → P (i+1) (body i t)) : P n (upTo body n s) := by
  induction n with
  | zero => exact h0
  | succ n ih => exact hstep n (Nat.lt_succ_self n) _ (ih fun i hi => hstep i (Nat.lt_succ_of_lt hi))

theorem flatMap_range_succ (f : ℕ → List α) (n : ℕ) :
    (List.range (n+1)).flatMap f = (List.range n).flatMap f++f n := by
  rw [List.range_succ,List.flatMap_append,List.flatMap_singleton]

theorem eq_of_sum_eq {l : List α} {f g : α → ℤ} (hle : ∀ a ∈ l, f a ≤ g a)
    (hsum : (l.map f).sum = (l.map g).sum) : ∀ a ∈ l, f a = g a := by
  induction l with
  | nil => simp
  | cons a l ih =>
    have hrest : ∀ b ∈ l, f b ≤ g b := fun b hb => hle b (List.mem_cons_of_mem _ hb)
    have hhead := hle a List.mem_cons_self
    have htail := List.sum_le_sum hrest
    rw [List.map_cons,List.map_cons,List.sum_cons,List.sum_cons] at hsum
    intro b hb
    rcases List.mem_cons.mp hb with rfl | hb
    · omega
    · exact ih hrest (by omega) b hb

theorem perm_map_iff {l : List α} {f g : α → ℤ} (hle : ∀ a ∈ l, f a ≤ g a) :
    (l.map f).Perm (l.map g) ↔ ∀ a ∈ l, f a = g a :=
  ⟨fun h => eq_of_sum_eq hle h.sum_eq,fun h => List.Perm.of_eq (List.map_congr_left h)⟩

theorem flatMap_range_pairs (f : ℕ → α) (first n : ℕ) :
    ((List.range n).flatMap fun x => [f (first+2*x),f (first+2*x+1)]) =
      (List.range (2*n)).map fun x => f (first+x) := by
  induction n with
  | zero => rfl
  | succ n ih =>
    rw [flatMap_range_succ,ih,Nat.mul_succ,List.range_succ,List.range_succ,List.map_append,
      List.map_append,List.append_assoc]
    rfl

theorem map_range_add (f : ℕ → α) (m n : ℕ) :
    (List.range (m+n)).map f = (List.range m).map f++(List.range n).map fun x => f (m+x) := by
  rw [List.range_add,List.map_append,List.map_map]
  rfl

end CountedLoop
