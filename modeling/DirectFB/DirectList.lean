import DirectFB.DoublyLinked

/-! The lists of the repository: each node has the next one or NULL, and the previous one, which for
the first is the last. Reading or writing a node that was freed is an error. -/
namespace DirectFB.DirectList
open Function (update update_of_ne update_self)
open DoublyLinked

variable {D : Type*}

/-- `direct_list_append` -/
def append (m : Memory D) (list : Option ℕ) (link : ℕ) : Option (Memory D × Option ℕ) :=
  let m := setNext m link none
  match list with
  | none => some (setPrev m (some link) (some link),some link)
  | some first => (m first).bind fun n => n.prev.bind fun last =>
    if (m last).isNone then none
    else
      let m := setPrev m (some link) (some last)
      some (setNext (setPrev m (some first) (some link)) last (some link),list)

/-- `direct_list_remove` -/
def remove (m : Memory D) (list : Option ℕ) (link : ℕ) : Option (Memory D × Option ℕ) :=
  (m link).bind fun n => (n.next.or list).bind fun q =>
  if (m q).isNone then none
  else
    let m := setPrev m (some q) n.prev
    (if list = some link then some (m,n.next)
    else n.prev.bind fun prev =>
      if (m prev).isNone then none else some (setNext m prev n.next,list)).map
        fun (r : Memory D × Option ℕ) => (setPrev (setNext r.1 link none) (some link) none,r.2)

structure Ring (m : Memory D) (list : Option ℕ) (l : List (ℕ × D)) : Prop where
  first_eq : list = first l none
  seg : Seg m (last none l) l none

structure Allocated (m : Memory D) (l : List (ℕ × D)) : Prop where
  nodup : (l.map Prod.fst).Nodup
  only : ∀ p, m p ≠ none ↔ p ∈ l.map Prod.fst

section Spec

variable {m m' : Memory D} {list prev next : Option ℕ} {l pre post : List (ℕ × D)} {p q r : ℕ}
  {d e f : D}

theorem Allocated.fresh (h : Allocated m l) (hp : m p = none) : p ∉ l.map Prod.fst :=
  fun hmem => (h.only p).mpr hmem hp

theorem Allocated.add (h : Allocated m l) (hp : m p = none) {n : Node D}
    (hm : ∀ r, m' r = none ↔ update m p (some n) r = none) : Allocated m' (l++[(p,d)]) := by
  refine ⟨?_,fun r => ?_⟩
  · rw [List.map_append,List.nodup_append]
    exact ⟨h.nodup,by simp,fun a ha b hb => by
      obtain rfl : b = p := by simpa using hb
      rintro rfl
      exact h.fresh hp ha⟩
  · rw [Ne,hm,List.map_append,List.mem_append,← h.only]
    by_cases hr : r = p <;> simp [hr]

theorem Allocated.free (h : Allocated m (pre++(p,d)::post)) (hm : ∀ r, m' r = none ↔ m r = none) :
    Allocated (update m' p none) (pre++post) := by
  have hnodup := h.nodup
  simp only [List.map_append,List.map_cons,List.nodup_middle,List.nodup_cons] at hnodup
  refine ⟨by simpa using hnodup.2,fun r => ?_⟩
  by_cases hr : r = p
  · simpa [hr] using hnodup.1
  · rw [update_of_ne hr,Ne,hm,← Ne,h.only]
    simp [hr]

theorem Allocated.free_first (h : Allocated m ((p,d)::l)) : Allocated (update m p none) l := by
  rw [← List.nil_append ((p,d)::l)] at h
  exact h.free fun _ => Iff.rfl

theorem last_append (prev : Option ℕ) (l : List (ℕ × D)) (p : ℕ) (d : D) :
    last prev (l++[(p,d)]) = some p := by
  simp [last]

theorem last_cons_none (a : ℕ × D) (l : List (ℕ × D)) (prev : Option ℕ) :
    last none (a::l) = last prev (a::l) := by
  cases h : l.getLast? <;> simp [last,List.getLast?_cons,h]

theorem setPrev_of_ne (h : r ≠ p) (prev : Option ℕ) : setPrev m (some p) prev r = m r :=
  update_of_ne h _ _

theorem Seg.clear (h : Seg m prev l next) (hp : p ∉ l.map Prod.fst) :
    Seg (setPrev (setNext m p none) (some p) none) prev l next :=
  h.congr fun r hr => by
    have hne : r ≠ p := by rintro rfl; exact hp hr
    rw [setPrev_of_ne hne,setNext_of_ne hne]

theorem Seg.first_node (h : Seg m prev l next) (hp : first l none = some p) :
    p ∈ l.map Prod.fst ∧ ∃ d next', m p = some ⟨d,prev,next'⟩ := by
  cases l with
  | nil => contradiction
  | cons a l =>
    obtain ⟨q,d⟩ := a
    obtain rfl := Option.some.inj hp
    exact ⟨by simp,_,_,h.1⟩

theorem exists_first (l : List (ℕ × D)) (a : ℕ × D) :
    ∃ p ∈ (l++[a]).map Prod.fst, ∀ post next, first (l++a::post) next = some p := by
  cases l <;> simp [first]

/-- A node is appended. -/
theorem Ring.append (h : Ring m list l) (hl : (l.map Prod.fst).Nodup) {n : Node D}
    (hp : m p = some n) (hnot : p ∉ l.map Prod.fst) :
    ∃ m', append m list p = some (m',first (l++[(p,n.data)]) none) ∧
      Ring m' (first (l++[(p,n.data)]) none) (l++[(p,n.data)]) ∧
      ∀ r, m' r = none ↔ m r = none := by
  obtain ⟨rfl,hseg⟩ := h
  rcases List.eq_nil_or_concat l with rfl | ⟨pre,⟨q,e⟩,rfl⟩
  · refine ⟨_,rfl,⟨rfl,?_,trivial⟩,fun r => by simp⟩
    simp [setPrev,setNext,hp]
  · rw [List.concat_eq_append] at *
    have hqp : q ≠ p := by rintro rfl; simp at hnot
    have hqpre : q ∉ pre.map Prod.fst := by
      simp only [List.map_append,List.nodup_append] at hl
      exact fun hmem => hl.2.2 q hmem q (by simp) rfl
    obtain ⟨c,hcl,hc⟩ := exists_first pre (q,e)
    rw [last_append] at hseg
    obtain ⟨-,d,next,hcnode⟩ := Seg.first_node hseg (hc [] none)
    have hcp : c ≠ p := by rintro rfl; exact hnot hcl
    have hframe : ∀ r, r ≠ p → setPrev (setNext m p none) (some p) (some q) r = m r := fun r hr => by
      rw [setPrev_of_ne hr,setNext_of_ne hr]
    have hseg₁ : Seg (setPrev (setNext m p none) (some p) (some q)) (some q) (pre++[(q,e)]) none :=
      hseg.congr fun r hr => hframe r (by rintro rfl; exact hnot hr)
    have hseg₂ := hseg₁.setPrev hl (some p)
    rw [hc] at hseg₂ ⊢
    refine ⟨setNext (setPrev (setPrev (setNext m p none) (some p) (some q)) (some c) (some p)) q
      (some p),?_,⟨?_,?_⟩,?_⟩
    · have hfirst : first (pre++[(q,e)]++[(p,n.data)]) none = some c := by rw [first_append,hc]
      have hm : (m q).isSome := by simp [(seg_append.mp hseg).2.1]
      rw [hfirst]
      simp [DirectList.append,setNext_of_ne hcp,hcnode,Option.isSome_iff_ne_none.mp hm]
    · rw [first_append,hc]
    · rw [last_append,seg_append]
      refine ⟨hseg₂.setNext hqpre _,?_,trivial⟩
      rw [setNext_of_ne hqp.symm,setPrev_of_ne hcp.symm,last_append]
      simp [setPrev,setNext,hp]
    · intro r
      simp

/-- A node is taken out from between two others, whatever the list starts with. -/
theorem remove_inner (h : Seg m prev (pre++(q,e)::(p,d)::(r,f)::post) none)
    (hnodup : ((pre++(q,e)::(p,d)::(r,f)::post).map Prod.fst).Nodup) (hlist : list ≠ some p) :
    ∃ m', remove m list p = some (m',list) ∧ Seg m' prev (pre++(q,e)::(r,f)::post) none ∧
      ∀ r, m' r = none ↔ m r = none := by
  rw [List.append_cons] at h hnodup ⊢
  obtain ⟨hpre,hnode,hpost⟩ := seg_append.mp h
  have hq := (seg_append.mp hpre).2.1
  rw [last_append] at hnode
  simp only [List.map_append,List.map_cons,List.map_nil,List.nodup_append,List.nodup_cons,
    List.mem_cons,List.mem_append,List.not_mem_nil,or_false,not_or] at hnodup
  obtain ⟨⟨hprenodup,-,hqpre⟩,⟨⟨hpr,hppost⟩,⟨hrpost,hpostnodup⟩⟩,hapart⟩ := hnodup
  have hqp : q ≠ p := hapart q (by simp) p (by simp)
  have hprer : Seg (setPrev m (some r) (some q)) prev (pre++[(q,e)]) (some p) :=
    hpre.congr fun s hs => setPrev_of_ne (hapart s (by simpa using hs) r (by simp)) _
  have hleft : Seg (setNext (setPrev m (some r) (some q)) q (some r)) prev (pre++[(q,e)]) (some r) :=
    hprer.setNext (fun hmem => hqpre q hmem q rfl rfl) _
  have hright : Seg (setNext (setPrev m (some r) (some q)) q (some r)) (some q) ((r,f)::post) none :=
    (hpost.setPrev (by simp [hrpost,hpostnodup]) _).congr fun s hs => setNext_of_ne
      (fun heq => hapart q (by simp) s (by simp only [List.map_cons,List.mem_cons] at hs; tauto)
        heq.symm) _
  refine ⟨_,?_,Seg.clear (p := p) (seg_append.mpr ⟨hleft,?_⟩) ?_,fun r => by simp⟩
  · simp [remove,hnode,hpost.1,hlist,hq]
  · rwa [last_append]
  · have hppre : p ∉ pre.map Prod.fst := fun hmem => hapart p (by simp [hmem]) p (by simp) rfl
    simp only [List.map_append,List.map_cons,List.map_nil,List.mem_append,List.mem_cons,
      List.not_mem_nil,or_false,not_or]
    exact ⟨⟨hppre,hqp.symm⟩,hpr,hppost⟩

/-- A node is taken out of the list. -/
theorem Ring.remove (h : Ring m list (pre++(p,d)::post))
    (hnodup : ((pre++(p,d)::post).map Prod.fst).Nodup) :
    ∃ m', remove m list p = some (m',first (pre++post) none) ∧
      Ring m' (first (pre++post) none) (pre++post) ∧ ∀ r, m' r = none ↔ m r = none := by
  obtain ⟨rfl,hseg⟩ := h
  rcases List.eq_nil_or_concat pre with rfl | ⟨pre,⟨q,e⟩,rfl⟩
  · rw [List.nil_append] at *
    rw [List.map_cons,List.nodup_cons] at hnodup
    cases post with
    | nil =>
      refine ⟨setPrev (setNext (setPrev m (some p) (some p)) p none) (some p) none,?_,⟨rfl,trivial⟩,
        fun r => by simp⟩
      simp [DirectList.remove,hseg.1]
    | cons a post =>
      obtain ⟨r,f⟩ := a
      have hmoved := hseg.2.setPrev hnodup.2 (last none ((r,f)::post))
      refine ⟨_,?_,⟨rfl,Seg.clear (p := p) hmoved hnodup.1⟩,fun s => by simp⟩
      rw [last_cons_none _ _ (some p),last_cons] at hseg
      simp [DirectList.remove,hseg.1,hseg.2.1]
  · rw [List.concat_eq_append,List.append_assoc,List.singleton_append] at *
    rw [List.append_assoc,List.singleton_append]
    obtain ⟨c,hcl,hc⟩ := exists_first pre (q,e)
    have hcp : c ≠ p := by
      rw [List.append_cons,List.map_append,List.nodup_append] at hnodup
      exact hnodup.2.2 c hcl p (by simp)
    rw [hc,hc]
    cases post with
    | nil =>
      rw [List.append_cons] at hseg hnodup
      rw [last_append,seg_append,first_cons,last_append] at hseg
      obtain ⟨hpre,hnode,-⟩ := hseg
      obtain ⟨-,d',next',hcnode⟩ := Seg.first_node hpre (hc [] _)
      have hq := (seg_append.mp hpre).2.1
      simp only [List.map_append,List.nodup_append] at hnodup
      obtain ⟨⟨hprenodup,-,hqpre⟩,-,hapart⟩ := hnodup
      have hmoved := hpre.setPrev
        (by rw [List.map_append]; exact List.nodup_append.mpr ⟨hprenodup,by simp,hqpre⟩) (some q)
      rw [hc] at hmoved
      have hcut := hmoved.setNext (fun hmem => hqpre q hmem q (by simp) rfl) none
      have hm : (setPrev m (some c) (some q) q).isSome := by
        rw [Option.isSome_iff_ne_none]
        simp [hq]
      refine ⟨setPrev (setNext (setNext (setPrev m (some c) (some q)) q none) p none) (some p) none,
        ?_,⟨(hc _ _).symm,?_⟩,fun r => by simp⟩
      · simp [DirectList.remove,hnode,hcnode,hcp,hq]
      · rw [last_append]
        refine Seg.clear hcut fun hmem => hapart p (by simpa using hmem) p (by simp) rfl
    | cons a post =>
      obtain ⟨r,f⟩ := a
      obtain ⟨m',hm',hseg',hnone⟩ := remove_inner hseg hnodup (by simpa using hcp : some c ≠ some p)
      refine ⟨m',hm',⟨(hc _ _).symm,?_⟩,hnone⟩
      have hlast : last none (pre++(q,e)::(r,f)::post) =
          last none (pre++(q,e)::(p,d)::(r,f)::post) := by
        simp [last,List.getLast?_append]
      rwa [hlast]

/-- A node that was allocated is appended. -/
theorem Ring.add (h : Ring m list l) (ha : Allocated m l) (hp : m p = none) (d : D) :
    ∃ m', DirectList.append (update m p (some ⟨d,none,none⟩)) list p =
        some (m',first (l++[(p,d)]) none) ∧
      Ring m' (first (l++[(p,d)]) none) (l++[(p,d)]) ∧ Allocated m' (l++[(p,d)]) := by
  have hnot := ha.fresh hp
  have hkept : Ring (update m p (some ⟨d,none,none⟩)) list l :=
    ⟨h.first_eq,h.seg.congr fun r hr => update_of_ne (by rintro rfl; exact hnot hr) _ _⟩
  obtain ⟨m',hm',hring,hnone⟩ := hkept.append ha.nodup (update_self p _ m) hnot
  exact ⟨m',hm',hring,ha.add hp hnone⟩

theorem Seg.free (h : Seg m prev l next) (ha : Allocated (update m p none) l) :
    Seg (update m p none) prev l next :=
  h.congr fun r hr => update_of_ne (by rintro rfl; exact (ha.only r).mpr hr (update_self r _ m)) _ _

theorem Ring.free (h : Ring m list (pre++(p,d)::post)) (ha : Allocated m (pre++(p,d)::post)) :
    ∃ m', DirectList.remove m list p = some (m',first (pre++post) none) ∧
      Ring (update m' p none) (first (pre++post) none) (pre++post) ∧
      Allocated (update m' p none) (pre++post) := by
  obtain ⟨m',hm',hring,hnone⟩ := h.remove ha.nodup
  have ha' := ha.free hnone
  exact ⟨m',hm',⟨rfl,Seg.free hring.seg ha'⟩,ha'⟩

/-- A node is taken out from the middle of the list and freed, whatever the list starts with. -/
theorem Seg.free_inner (h : Seg m prev (pre++(p,d)::post) none)
    (ha : Allocated m (pre++(p,d)::post)) (hpre : pre ≠ []) (hpost : post ≠ [])
    (hlist : list ≠ some p) :
    ∃ m', DirectList.remove m list p = some (m',list) ∧
      Seg (update m' p none) prev (pre++post) none ∧
      Allocated (update m' p none) (pre++post) := by
  obtain ⟨pre,⟨q,e⟩,rfl⟩ := (List.eq_nil_or_concat pre).resolve_left hpre
  obtain ⟨⟨r,f⟩,post,rfl⟩ := List.exists_cons_of_ne_nil hpost
  rw [List.concat_eq_append] at *
  have hnodup := ha.nodup
  rw [← List.append_cons] at h hnodup
  obtain ⟨m',hm',hseg,hnone⟩ := remove_inner h hnodup hlist
  rw [List.append_cons] at hseg
  have ha' := ha.free hnone
  exact ⟨m',hm',Seg.free hseg ha',ha'⟩

theorem Allocated.split (ha : Allocated m l) (h : Seg m prev l next) {n : Node D} (hp : m p = some n) :
    ∃ pre post, l = pre++(p,n.data)::post ∧ n.next = first post next := by
  obtain ⟨⟨p',d⟩,hmem,rfl⟩ := List.mem_map.mp ((ha.only p).mp (by simp [hp]))
  obtain ⟨pre,post,rfl⟩ := List.append_of_mem hmem
  obtain ⟨-,hnode,-⟩ := seg_append.mp h
  obtain rfl := Option.some.inj (hnode.symm.trans hp)
  exact ⟨pre,post,rfl,rfl⟩

end Spec

end DirectFB.DirectList
