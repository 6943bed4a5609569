import Mathlib.Tactic
import Mathlib.Data.List.Perm.Basic

/-! Vectors of elements that are inserted, moved and removed at an index, the others being moved
out of the way. -/
namespace FusionVector
variable {α : Type*}

/-- `fusion_vector_add`, where there is room. -/
def add (l : List α) (a : α) : List α := l++[a]

/-- `fusion_vector_insert`, where there is room. -/
def insert (l : List α) (a : α) (i : ℕ) : List α := l.take i++a::l.drop i

/-- `fusion_vector_remove` -/
def remove (l : List α) (i : ℕ) : List α := l.take i++l.drop (i+1)

/-- `fusion_vector_move`: the elements on the way are moved down, or up. -/
def move (l : List α) (old new : ℕ) : List α :=
  if new = old then l
  else match l[old]? with
    | none => l
    | some a =>
      if old < new then l.take old++((l.drop (old+1)).take (new-old)++a::l.drop (new+1))
      else l.take new++a::((l.drop new).take (old-new)++l.drop (old+1))

/-- `fusion_vector_index_of`, of which an element that is not there makes a bad address. -/
def indexOf [DecidableEq α] (l : List α) (a : α) : Option ℕ :=
  if a ∈ l then some (l.length-1-l.reverse.idxOf a) else none

variable {l : List α} {a b : α} {i j old new : ℕ}

theorem eq_of_getElem? (h : l[i]? = some a) : l = l.take i++a::l.drop (i+1) := by
  obtain ⟨hi,rfl⟩ := List.getElem?_eq_some_iff.mp h
  rw [List.getElem_cons_drop,List.take_append_drop]

theorem lt_of_getElem? (h : l[i]? = some a) : i < l.length := (List.getElem?_eq_some_iff.mp h).1

theorem insert_remove (h : l[i]? = some a) : insert (remove l i) a i = l := by
  have hi := (lt_of_getElem? h).le
  rw [insert,remove,List.take_append_of_le_length (by simp [hi]),List.take_take,min_self,
    List.drop_append_of_le_length (by simp [hi]),List.drop_take,Nat.sub_self,List.take_zero,
    List.nil_append,← eq_of_getElem? h]

/-- To move an element is to take it out and to insert it again. -/
theorem move_eq (h : l[old]? = some a) (hnew : new < l.length) :
    move l old new = insert (remove l old) a new := by
  have hold := lt_of_getElem? h
  rcases eq_or_ne new old with rfl | hne
  · rw [move,if_pos rfl,insert_remove h]
  rw [move,if_neg hne,h,insert,remove]
  dsimp only
  split_ifs with hlt
  · have hlength : (l.take old).length = old := by
      rw [List.length_take,min_eq_left hold.le]
    have htake : (l.take old++l.drop (old+1)).take new =
        l.take old++(l.drop (old+1)).take (new-old) := by
      rw [List.take_append,hlength,List.take_of_length_le (by omega)]
    have hdrop : (l.take old++l.drop (old+1)).drop new = l.drop (new+1) := by
      rw [List.drop_append,hlength,List.drop_of_length_le (by omega),List.nil_append,List.drop_drop,
        show old+1+(new-old) = new+1 by omega]
    rw [htake,hdrop,List.append_assoc]
  · rw [List.take_append_of_le_length (by simp; omega),List.take_take,min_eq_left (by omega),
      List.drop_append_of_le_length (by simp; omega),List.drop_take]

theorem insert_perm (l : List α) (a : α) (i : ℕ) : (insert l a i).Perm (a::l) := by
  have h : (l.take i++a::l.drop i).Perm (a::(l.take i++l.drop i)) := List.perm_middle
  rwa [List.take_append_drop] at h

theorem remove_perm (h : l[i]? = some a) : l.Perm (a::remove l i) := by
  conv_lhs => rw [eq_of_getElem? h]
  exact List.perm_middle

theorem move_perm (h : l[old]? = some a) (hnew : new < l.length) : (move l old new).Perm l := by
  rw [move_eq h hnew]
  exact (insert_perm _ _ _).trans (remove_perm h).symm

theorem insert_filter {p : α → Bool} (ha : p a = false) : (insert l a i).filter p = l.filter p := by
  rw [insert,List.filter_append,List.filter_cons_of_neg (by simp [ha]),← List.filter_append,
    List.take_append_drop]

theorem remove_filter {p : α → Bool} (h : l[i]? = some a) (ha : p a = false) :
    (remove l i).filter p = l.filter p := by
  conv_rhs => rw [← insert_remove h,insert_filter ha]

theorem move_filter {p : α → Bool} (h : l[old]? = some a) (hnew : new < l.length)
    (ha : p a = false) : (move l old new).filter p = l.filter p := by
  rw [move_eq h hnew,insert_filter ha,remove_filter h ha]

theorem length_remove (h : i < l.length) : (remove l i).length+1 = l.length := by
  rw [remove,List.length_append,List.length_take,List.length_drop]
  omega

theorem getElem?_insert_self (h : i ≤ l.length) : (insert l a i)[i]? = some a := by
  rw [insert,List.getElem?_append_right (by simp),List.length_take,min_eq_left h,Nat.sub_self,
    List.getElem?_cons_zero]

theorem getElem?_insert_of_lt (h : j < i) (hi : i ≤ l.length) : (insert l a i)[j]? = l[j]? := by
  rw [insert,List.getElem?_append_left (by rw [List.length_take]; omega),List.getElem?_take_of_lt h]

theorem getElem?_remove_of_lt (h : j < i) (hi : i < l.length) : (remove l i)[j]? = l[j]? := by
  rw [remove,List.getElem?_append_left (by rw [List.length_take]; omega),List.getElem?_take_of_lt h]

theorem getElem?_remove (hi : i < l.length) (j : ℕ) :
    (remove l i)[j]? = if j < i then l[j]? else l[j+1]? := by
  split_ifs with h
  · exact getElem?_remove_of_lt h hi
  · have hlength : (l.take i).length = i := by rw [List.length_take,min_eq_left hi.le]
    rw [remove,List.getElem?_append_right (by omega),hlength,List.getElem?_drop]
    congr 1
    omega

theorem indexOf_getElem? [DecidableEq α] (h : indexOf l a = some i) : l[i]? = some a := by
  rw [indexOf,Option.ite_none_right_eq_some,Option.some.injEq] at h
  obtain ⟨ha,rfl⟩ := h
  have hr : l.reverse.idxOf a < l.reverse.length := List.idxOf_lt_length_of_mem (by simpa using ha)
  have hget := List.getElem_idxOf hr
  rw [List.getElem_reverse] at hget
  rw [List.length_reverse] at hr
  rw [List.getElem?_eq_some_iff]
  exact ⟨by omega,hget⟩

theorem insert_pairwise {R : α → α → Prop} : (insert l a i).Pairwise R ↔
    l.Pairwise R ∧ (∀ b ∈ l.take i, R b a) ∧ ∀ b ∈ l.drop i, R a b := by
  conv_rhs => rw [← List.take_append_drop i l]
  rw [insert,List.pairwise_append,List.pairwise_append,List.pairwise_cons,List.take_append_drop]
  simp only [List.mem_cons,forall_eq_or_imp]
  exact ⟨fun ⟨h1,⟨h2,h3⟩,h4⟩ => ⟨⟨h1,h3,fun b hb => (h4 b hb).2⟩,fun b hb => (h4 b hb).1,h2⟩,
    fun ⟨⟨h1,h3,h4⟩,h5,h2⟩ => ⟨h1,⟨h2,h3⟩,fun b hb => ⟨h5 b hb,h4 b hb⟩⟩⟩

theorem remove_pairwise {R : α → α → Prop} (h : l.Pairwise R) : (remove l i).Pairwise R := by
  rw [remove,← List.eraseIdx_eq_take_drop_succ]
  exact h.sublist (List.eraseIdx_sublist l i)

theorem getElem?_move_self (h : l[old]? = some a) (hnew : new < l.length) :
    (move l old new)[new]? = some a := by
  have hlength := length_remove (lt_of_getElem? h)
  rw [move_eq h hnew,getElem?_insert_self (by omega)]

theorem getElem?_move_of_lt (h : l[old]? = some a) (hnew : new < l.length) (hj : j < min new old) :
    (move l old new)[j]? = l[j]? := by
  have hold := lt_of_getElem? h
  have hlength := length_remove hold
  rw [move_eq h hnew,getElem?_insert_of_lt (by omega) (by omega),
    getElem?_remove_of_lt (by omega) hold]

end FusionVector
