import DirectFB.Probing

/-! When a walk over a table ends, by the numbers of its entries and tombstones alone: the table may
hold the same entry more than once. -/
namespace Probing

variable {α : Type*} {home : α → ℕ} {t old : List (Slot α)} {count removed : ℕ}

structure Counted (home : α → ℕ) (t : List (Slot α)) (count removed : ℕ) : Prop where
  reach : Table home (fun _ _ => False) t
  count_eq : t.countP Slot.isLive = count
  removed_eq : t.countP Slot.isRemoved = removed

theorem lt_length_of_empty_mem (h : Slot.empty ∈ t) :
    t.countP Slot.isLive+t.countP Slot.isRemoved < t.length := by
  induction t with
  | nil => cases h
  | cons s t ih =>
    have hle : t.countP Slot.isLive+t.countP Slot.isRemoved ≤ t.length := by
      clear ih h
      induction t with
      | nil => simp
      | cons s t ih => cases s <;> simp [List.countP_cons] <;> omega
    cases s with
    | empty =>
      simp
      omega
    | removed =>
      have := ih (by simpa using h)
      simp [List.countP_cons]
      omega
    | live a =>
      have := ih (by simpa using h)
      simp [List.countP_cons]
      omega

theorem Counted.empty_mem_iff (h : Counted home t count removed) :
    Slot.empty ∈ t ↔ count+removed < t.length := by
  rw [← h.count_eq,← h.removed_eq]
  exact ⟨lt_length_of_empty_mem,Probing.empty_mem⟩

theorem Counted.replicate (home : α → ℕ) (n : ℕ) : Counted home (List.replicate n .empty) 0 0 where
  reach := .replicate_empty home _ n
  count_eq := by simp [List.countP_replicate]
  removed_eq := by simp [List.countP_replicate]

theorem Counted.mark (h : Counted home t count removed) {q : ℕ} {a : α}
    (hq : t[q]? = some (.live a)) : Counted home (t.set q .removed) (count-1) (removed+1) where
  reach := h.reach.set_removed q
  count_eq := by simp [countP_set hq,h.count_eq]
  removed_eq := by simp [countP_set hq,h.removed_eq]

section Store

variable {p : α → Bool} {a : α} {q : ℕ}

theorem Counted.fill (h : Counted home t count removed)
    (hq : find t (Slot.stopsInsert p) (home a) = some q) (hs : t[q]? = some .empty) :
    Counted home (t.set q (.live a)) (count+1) removed where
  reach := h.reach.set_live hq (.inl hs) fun _ _ => ⟨id,id⟩
  count_eq := by simp [countP_set hs,h.count_eq]
  removed_eq := by simp [countP_set hs,h.removed_eq]

theorem Counted.refill (h : Counted home t count removed)
    (hq : find t (Slot.stopsInsert p) (home a) = some q) (hs : t[q]? = some .removed) :
    Counted home (t.set q (.live a)) (count+1) (removed-1) where
  reach := h.reach.set_live hq (.inr hs) fun _ _ => ⟨id,id⟩
  count_eq := by simp [countP_set hs,h.count_eq]
  removed_eq := by simp [countP_set hs,h.removed_eq]

end Store

section Rehash

variable {t' : List (Slot α)} {a : α} {n : ℕ}

theorem place_room (h : place home a t = some t') : t.countP Slot.isLive < t.length := by
  obtain ⟨q,hq,-⟩ := Option.map_eq_some_iff.mp h
  obtain ⟨-,-,-,⟨s,hs,hstop⟩,-⟩ := find_eq_some.mp hq
  refine List.countP_lt_length_iff.mpr ⟨s,List.mem_of_getElem? hs,?_⟩
  cases s <;> simp_all [Slot.stopsInsert]

/-- What was moved had room. -/
theorem rehash_room (ht : Table home (fun _ _ => False) t) (h : rehash home old t = some t') :
    old.countP Slot.isLive+t.countP Slot.isLive ≤ t.length := by
  induction old generalizing t with
  | nil => simpa using List.countP_le_length
  | cons s old ih =>
    cases s with
    | empty => simpa using ih ht h
    | removed => simpa using ih ht h
    | live a =>
      obtain ⟨u,hu,h⟩ := Option.bind_eq_some_iff.mp h
      obtain ⟨u',hu',htab,hlen,-,hcount,-⟩ := ht.place a (place_room hu) fun _ _ => ⟨id,id⟩
      obtain rfl : u = u' := Option.some.inj (hu.symm.trans hu')
      have := ih htab h
      rw [List.countP_cons,Slot.isLive_live,if_pos rfl]
      omega

theorem Counted.rehash_iff (h : Counted home old count removed) :
    (∃ t', rehash home old (List.replicate n .empty) = some t') ↔ count ≤ n := by
  have hnew := Counted.replicate home n
  constructor
  · rintro ⟨t',ht'⟩
    have := rehash_room hnew.reach ht'
    rwa [h.count_eq,hnew.count_eq,List.length_replicate] at this
  · intro hle
    obtain ⟨t',ht',-⟩ := hnew.reach.rehash old
      (by rw [h.count_eq,hnew.count_eq,List.length_replicate]; exact hle)
      (List.pairwise_of_forall fun _ _ _ _ _ _ => ⟨id,id⟩) fun _ _ _ _ => ⟨id,id⟩
    exact ⟨t',ht'⟩

theorem Counted.rehash (h : Counted home old count removed)
    (ht' : rehash home old (List.replicate n .empty) = some t') :
    Counted home t' count 0 ∧ t'.length = n ∧ ∀ b, Slot.live b ∈ t' ↔ Slot.live b ∈ old := by
  have hnew := Counted.replicate home n
  have hroom := rehash_room hnew.reach ht'
  obtain ⟨u,hu,htab,hlen,hmem,hcount,hrem⟩ := hnew.reach.rehash old hroom
    (List.pairwise_of_forall fun _ _ _ _ _ _ => ⟨id,id⟩) fun _ _ _ _ => ⟨id,id⟩
  obtain rfl : t' = u := Option.some.inj (ht'.symm.trans hu)
  refine ⟨⟨htab,?_,?_⟩,by simpa using hlen,fun b => ?_⟩
  · rw [hcount,h.count_eq,hnew.count_eq,add_zero]
  · exact Nat.le_zero.mp (hrem.trans_eq hnew.removed_eq)
  · simp [hmem,List.mem_replicate]

end Rehash

end Probing
