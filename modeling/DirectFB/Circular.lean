import Mathlib.Tactic

/-! Lists in a ring of cells. A list lies in the ring from a position on, is appended to in the
cells after it, and is taken from at its front. -/
namespace Circular

variable {α : Type*}

def Holds (n : ℕ) (b : ℕ → α) (p : ℕ) (l : List α) : Prop :=
  ∀ i (h : i < l.length), b ((p+i) % n) = l[i]

def read (n : ℕ) (b : ℕ → α) (p k : ℕ) : List α := (List.range k).map fun i => b ((p+i) % n)

def put (b : ℕ → α) (q k : ℕ) (f : ℕ → α) : ℕ → α :=
  fun p => if q ≤ p ∧ p < q+k then f (p-q) else b p

variable {n p q k : ℕ} {b : ℕ → α} {l : List α}

theorem put_cells (b : ℕ → α) (q k : ℕ) (f : ℕ → α) :
    (List.range k).map (fun i => put b q k f (q+i)) = (List.range k).map f := by
  refine List.map_congr_left fun i hi => ?_
  have hlt := List.mem_range.mp hi
  rw [put,if_pos ⟨Nat.le_add_right _ _,by omega⟩,Nat.add_sub_cancel_left]

theorem range_map_append {m : ℕ} (hm : m ≤ k) (f : ℕ → α) :
    (List.range m).map f++(List.range (k-m)).map (fun i => f (m+i)) = (List.range k).map f := by
  conv_rhs => rw [← Nat.add_sub_cancel' hm,List.range_add]
  rw [List.map_append,List.map_map]
  rfl

@[simp] theorem read_length (n : ℕ) (b : ℕ → α) (p k : ℕ) : (read n b p k).length = k := by
  simp [read]

theorem holds_nil (n : ℕ) (b : ℕ → α) (p : ℕ) : Holds n b p [] :=
  fun _ h => absurd h (Nat.not_lt_zero _)

theorem place_injective {i j : ℕ} (hi : i < n) (hj : j < n) (h : (p+i) % n = (p+j) % n) :
    i = j := by
  have hmod : i ≡ j [MOD n] := Nat.ModEq.add_left_cancel' p h
  rwa [Nat.ModEq,Nat.mod_eq_of_lt hi,Nat.mod_eq_of_lt hj] at hmod

theorem after_place (hq : q = (p+l.length) % n) {i : ℕ} (hi : q+i < n) :
    q+i = (p+(l.length+i)) % n := by
  rw [← Nat.add_assoc,Nat.add_mod,← hq,Nat.mod_eq_of_lt (a := i) (by omega),Nat.mod_eq_of_lt hi]

theorem Holds.of_eq (h : Holds n b p l) {c : ℕ → α}
    (hc : ∀ i < l.length, c ((p+i) % n) = b ((p+i) % n)) : Holds n c p l :=
  fun i hi => (hc i hi).trans (h i hi)

theorem Holds.update (h : Holds n b p l) (hq : q = (p+l.length) % n) {i : ℕ} (hi : q+i < n)
    (hfree : l.length+i < n) (a : α) : Holds n (Function.update b (q+i) a) p l := by
  refine h.of_eq fun j hj => Function.update_of_ne (fun heq => ?_) _ _
  rw [after_place hq hi] at heq
  have := place_injective (by omega) hfree heq
  omega

theorem Holds.put (h : Holds n b p l) (hq : q = (p+l.length) % n) (hk : q+k ≤ n)
    (hfree : l.length+k ≤ n) (f : ℕ → α) : Holds n (put b q k f) p l := by
  refine h.of_eq fun j hj => if_neg fun hcell => ?_
  obtain ⟨i,hi⟩ := Nat.exists_eq_add_of_le hcell.1
  have hik : i < k := by omega
  rw [after_place hq (by omega)] at hi
  have := place_injective (by omega) (by omega) hi
  omega

theorem Holds.extend (h : Holds n b p l) (hq : q = (p+l.length) % n) (hk : q+k ≤ n) :
    Holds n b p (l++(List.range k).map fun i => b (q+i)) := by
  intro i hi
  rw [List.length_append,List.length_map,List.length_range] at hi
  by_cases hl : i < l.length
  · rw [List.getElem_append_left hl]
    exact h i hl
  · obtain ⟨j,rfl⟩ := Nat.exists_eq_add_of_le (not_lt.mp hl)
    rw [List.getElem_append_right (Nat.le_add_right _ _),List.getElem_map,List.getElem_range,
      Nat.add_sub_cancel_left,← after_place hq (by omega)]

theorem Holds.drop (h : Holds n b p l) (k : ℕ) : Holds n b ((p+k) % n) (l.drop k) := by
  intro i hi
  rw [List.length_drop] at hi
  rw [List.getElem_drop,Nat.mod_add_mod,Nat.add_assoc]
  exact h (k+i) (by omega)

theorem Holds.read_eq (h : Holds n b p l) (hk : k ≤ l.length) : read n b p k = l.take k := by
  refine List.ext_getElem (by simp [hk]) fun i hi _ => ?_
  rw [read_length] at hi
  simp only [read,List.getElem_map,List.getElem_range,List.getElem_take]
  exact h i (by omega)

theorem after_append (m : List α) : (p+(l++m).length) % n = ((p+l.length) % n+m.length) % n := by
  rw [List.length_append,← Nat.add_assoc,Nat.mod_add_mod]

theorem after_drop (hk : k ≤ l.length) : ((p+k) % n+(l.drop k).length) % n = (p+l.length) % n := by
  rw [List.length_drop,Nat.mod_add_mod,Nat.add_assoc,Nat.add_sub_cancel' hk]

end Circular
