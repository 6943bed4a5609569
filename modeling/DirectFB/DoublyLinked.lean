import Mathlib.Tactic

/-! Doubly linked lists in a memory of nodes, and the lists that they stand for.
Pointers are numbers, NULL is `none`. -/
namespace DoublyLinked
open Function (update update_of_ne update_self)

structure Node (D : Type*) where
  data : D
  prev : Option ℕ
  next : Option ℕ

/-- The nodes that are allocated. -/
abbrev Memory (D : Type*) := ℕ → Option (Node D)

variable {D : Type*}

def setData (m : Memory D) (p : ℕ) (f : D → D) : Memory D :=
  update m p ((m p).map fun n => {n with data := f n.data})

def setNext (m : Memory D) (p : ℕ) (next : Option ℕ) : Memory D :=
  update m p ((m p).map fun n => {n with next := next})

def setPrev (m : Memory D) (p : Option ℕ) (prev : Option ℕ) : Memory D :=
  match p with
  | none => m
  | some p => update m p ((m p).map fun n => {n with prev := prev})

def linkAfter (m : Memory D) (c new : ℕ) (d : D) : Memory D :=
  let next := (m c).bind Node.next
  let m := update m new (some ⟨d,some c,next⟩)
  setNext (setPrev m next (some new)) c (some new)

def unlinkAfter (m : Memory D) (p : ℕ) : Memory D :=
  match (m p).bind Node.next with
  | none => m
  | some q =>
    let next := (m q).bind Node.next
    update (setPrev (setNext m p next) next (some p)) q none

def first (l : List (ℕ × D)) (next : Option ℕ) : Option ℕ := (l.head?.map Prod.fst).or next

def last (prev : Option ℕ) (l : List (ℕ × D)) : Option ℕ := (l.getLast?.map Prod.fst).or prev

@[simp] theorem first_nil (next : Option ℕ) : first ([] : List (ℕ × D)) next = next := rfl
@[simp] theorem first_cons (p : ℕ) (d : D) (l : List (ℕ × D)) (next : Option ℕ) :
    first ((p,d)::l) next = some p := rfl
@[simp] theorem last_nil (prev : Option ℕ) : last prev ([] : List (ℕ × D)) = prev := rfl
@[simp] theorem last_cons (prev : Option ℕ) (p : ℕ) (d : D) (l : List (ℕ × D)) :
    last prev ((p,d)::l) = last (some p) l := by
  cases h : l.getLast? <;> simp_all [last,List.getLast?_cons]

theorem first_append (l₁ l₂ : List (ℕ × D)) (next : Option ℕ) :
    first (l₁++l₂) next = first l₁ (first l₂ next) := by
  cases l₁ <;> simp [first]

def Seg (m : Memory D) : Option ℕ → List (ℕ × D) → Option ℕ → Prop
  | _, [], _ => True
  | prev, (p,d)::l, next => m p = some ⟨d,prev,first l next⟩ ∧ Seg m (some p) l next

variable {prev next : Option ℕ} {r : ℕ}

theorem seg_append {m : Memory D} {l₁ l₂ : List (ℕ × D)} :
    Seg m prev (l₁++l₂) next ↔ Seg m prev l₁ (first l₂ next) ∧ Seg m (last prev l₁) l₂ next := by
  induction l₁ generalizing prev with
  | nil => simp [Seg]
  | cons a l₁ ih =>
    obtain ⟨p,d⟩ := a
    rw [List.cons_append,Seg,Seg,ih,first_append,last_cons,and_assoc]

theorem Seg.congr {m m' : Memory D} {l : List (ℕ × D)} (h : Seg m prev l next)
    (hm : ∀ p ∈ l.map Prod.fst, m' p = m p) : Seg m' prev l next := by
  induction l generalizing prev with
  | nil => trivial
  | cons a l ih =>
    obtain ⟨p,d⟩ := a
    exact ⟨(hm p (by simp)).trans h.1,ih h.2 fun q hq => hm q (List.mem_cons_of_mem _ hq)⟩

theorem setData_of_ne {m : Memory D} {p r : ℕ} (h : r ≠ p) (f : D → D) : setData m p f r = m r := by
  simp [setData,h]

theorem setNext_of_ne {m : Memory D} {p r : ℕ} (h : r ≠ p) (next : Option ℕ) :
    setNext m p next r = m r := by
  simp [setNext,h]

theorem setPrev_of_not_mem {m : Memory D} {l : List (ℕ × D)} (h : r ∉ l.map Prod.fst)
    (prev : Option ℕ) : setPrev m (first l none) prev r = m r := by
  cases l with
  | nil => rfl
  | cons a l =>
    obtain ⟨p,d⟩ := a
    rw [List.map_cons,List.mem_cons,not_or] at h
    simp [setPrev,h.1]

@[simp] theorem setData_eq_none {m : Memory D} {p r : ℕ} {f : D → D} :
    setData m p f r = none ↔ m r = none := by
  by_cases h : r = p <;> simp [setData,h]

@[simp] theorem setNext_eq_none {m : Memory D} {p r : ℕ} :
    setNext m p next r = none ↔ m r = none := by
  by_cases h : r = p <;> simp [setNext,h]

@[simp] theorem setPrev_eq_none {m : Memory D} {p prev : Option ℕ} :
    setPrev m p prev r = none ↔ m r = none := by
  cases p with
  | none => rfl
  | some p => by_cases h : r = p <;> simp [setPrev,h]

theorem linkAfter_eq_none {m : Memory D} {c new r : ℕ} {d : D} (hr : m r = none) (hne : r ≠ new) :
    linkAfter m c new d r = none := by
  simp [linkAfter,hne,hr]

theorem unlinkAfter_eq_none {m : Memory D} {p r : ℕ} (hr : m r = none) :
    unlinkAfter m p r = none := by
  cases hn : (m p).bind Node.next with
  | none => simpa [unlinkAfter,hn] using hr
  | some q => by_cases hq : r = q <;> simp [unlinkAfter,hn,hq,hr]

theorem Seg.setPrev {m : Memory D} {l : List (ℕ × D)}
    (h : Seg m prev l next) (hnodup : (l.map Prod.fst).Nodup) (prev' : Option ℕ) :
    Seg (setPrev m (first l none) prev') prev' l next := by
  cases l with
  | nil => trivial
  | cons a l =>
    obtain ⟨p,d⟩ := a
    rw [List.map_cons,List.nodup_cons] at hnodup
    refine ⟨by simp [DoublyLinked.setPrev,h.1],h.2.congr fun r hr => ?_⟩
    have hne : r ≠ p := by rintro rfl; exact hnodup.1 hr
    simp [DoublyLinked.setPrev,hne]

theorem Seg.setNext {m : Memory D} {l : List (ℕ × D)} {p : ℕ} {d : D}
    (h : Seg m prev (l++[(p,d)]) next) (hp : p ∉ l.map Prod.fst) (next' : Option ℕ) :
    Seg (setNext m p next') prev (l++[(p,d)]) next' := by
  rw [seg_append] at h ⊢
  obtain ⟨hl,hnode,-⟩ := h
  refine ⟨hl.congr fun r hr => ?_,by simp [DoublyLinked.setNext,hnode],trivial⟩
  have hne : r ≠ p := by rintro rfl; exact hp hr
  simp [DoublyLinked.setNext,hne]

structure Represents (m : Memory D) (head : Option ℕ) (l : List (ℕ × D)) : Prop where
  head_eq : head = first l none
  seg : Seg m none l none
  nodup : (l.map Prod.fst).Nodup
  only : ∀ p, m p ≠ none → p ∈ l.map Prod.fst

section Represents

variable {m : Memory D} {head : Option ℕ} {pre post l : List (ℕ × D)} {p q : ℕ} {d e : D}

theorem Represents.split (h : Represents m head (pre++(p,d)::post)) :
    Seg m none pre (some p) ∧ m p = some ⟨d,last none pre,first post none⟩ ∧
      Seg m (some p) post none := by
  simpa [seg_append,Seg] using h.seg

theorem Represents.node (h : Represents m head (pre++(p,d)::post)) :
    m p = some ⟨d,last none pre,first post none⟩ := h.split.2.1

theorem Represents.not_mem (h : Represents m head (pre++(p,d)::post)) :
    p ∉ pre.map Prod.fst ∧ p ∉ post.map Prod.fst := by
  have hnodup := h.nodup
  simp only [List.map_append,List.map_cons,List.nodup_middle,List.nodup_cons,List.mem_append,
    not_or] at hnodup
  exact hnodup.1

theorem Represents.exists_node (h : Represents m head l) (hd : (p,d) ∈ l) :
    ∃ n, m p = some n ∧ n.data = d := by
  obtain ⟨pre,post,rfl⟩ := List.append_of_mem hd
  exact ⟨_,h.node,rfl⟩

theorem Represents.exists_split (h : Represents m head l) {n : Node D} (hp : m p = some n) :
    ∃ pre post, l = pre++(p,n.data)::post := by
  obtain ⟨⟨p',d⟩,hmem,rfl⟩ := List.mem_map.mp (h.only p (by simp [hp]))
  obtain ⟨n',hn',rfl⟩ := h.exists_node hmem
  obtain rfl := Option.some.inj (hn'.symm.trans hp)
  exact List.append_of_mem hmem

theorem Represents.fresh (h : Represents m head l) (hp : m p = none) : p ∉ l.map Prod.fst := by
  intro hmap
  obtain ⟨⟨p',d⟩,hmem,rfl⟩ := List.mem_map.mp hmap
  obtain ⟨n,hn,-⟩ := h.exists_node hmem
  rw [hn] at hp
  contradiction

theorem Represents.setData (h : Represents m head (pre++(p,d)::post)) (f : D → D) :
    Represents (setData m p f) head (pre++(p,f d)::post) := by
  obtain ⟨hpre,hp,hpost⟩ := h.split
  obtain ⟨hppre,hppost⟩ := h.not_mem
  refine ⟨?_,?_,by simpa using h.nodup,fun r hr => by simpa using h.only r (by simpa using hr)⟩
  · rw [h.head_eq]
    simp [first_append]
  · rw [seg_append]
    exact ⟨hpre.congr fun r hr => setData_of_ne (by rintro rfl; exact hppre hr) f,
      by simp [DoublyLinked.setData,hp],
      hpost.congr fun r hr => setData_of_ne (by rintro rfl; exact hppost hr) f⟩

theorem Represents.linkAfter (h : Represents m head (pre++(p,d)::post)) (hq : m q = none) (e : D) :
    Represents (linkAfter m p q e) head (pre++(p,d)::(q,e)::post) := by
  obtain ⟨hpre,hp,hpost⟩ := h.split
  obtain ⟨hppre,hppost⟩ := h.not_mem
  have hfresh := h.fresh hq
  have hnodup := h.nodup
  simp only [List.map_append,List.map_cons,List.mem_append,List.mem_cons,not_or] at hfresh
  obtain ⟨hqpre,hqp,hqpost⟩ := hfresh
  have hpostnodup : (post.map Prod.fst).Nodup := by
    simp only [List.map_append,List.map_cons,List.nodup_append,List.nodup_cons] at hnodup
    exact hnodup.2.1.2
  have hapart : ∀ r ∈ pre.map Prod.fst, r ∉ post.map Prod.fst := by
    intro r hr hr'
    simp only [List.map_append,List.map_cons,List.nodup_append] at hnodup
    exact hnodup.2.2 r hr r (List.mem_cons_of_mem _ hr') rfl
  have hlink : DoublyLinked.linkAfter m p q e = setNext (DoublyLinked.setPrev
      (update m q (some ⟨e,some p,first post none⟩)) (first post none) (some q)) p
      (some q) := by
    simp [DoublyLinked.linkAfter,hp]
  rw [hlink]
  refine ⟨?_,?_,?_,?_⟩
  · rw [h.head_eq]
    simp [first_append]
  · rw [seg_append]
    refine ⟨hpre.congr fun r hr => ?_,?_,?_,?_⟩
    · have hrp : r ≠ p := by rintro rfl; exact hppre hr
      have hrq : r ≠ q := by rintro rfl; exact hqpre hr
      rw [setNext_of_ne hrp,setPrev_of_not_mem (hapart r hr),update_of_ne hrq]
    · simp [setNext,setPrev_of_not_mem hppost,Ne.symm hqp,hp]
    · rw [setNext_of_ne hqp,setPrev_of_not_mem hqpost,update_self]
    · have hmoved : Seg (update m q (some ⟨e,some p,first post none⟩)) (some p) post none :=
        hpost.congr fun r hr => update_of_ne (by rintro rfl; exact hqpost hr) _ _
      exact (hmoved.setPrev hpostnodup _).congr fun r hr =>
        setNext_of_ne (by rintro rfl; exact hppost hr) _
  · simp only [List.map_append,List.map_cons,List.nodup_middle,List.nodup_cons,List.mem_append,
      List.mem_cons,not_or] at hnodup ⊢
    exact ⟨⟨hppre,Ne.symm hqp,hppost⟩,⟨hqpre,hqpost⟩,hnodup.2⟩
  · intro r hr
    by_cases hrq : r = q
    · simp [hrq]
    · have hmem := h.only r (by simpa [hrq] using hr)
      simp only [List.map_append,List.map_cons,List.mem_append,List.mem_cons] at hmem ⊢
      tauto

theorem Represents.unlinkAfter (h : Represents m head (pre++(p,d)::(q,e)::post)) :
    Represents (unlinkAfter m p) head (pre++(p,d)::post) := by
  obtain ⟨hpre,hp,hpost⟩ := h.split
  obtain ⟨hppre,hppost⟩ := h.not_mem
  obtain ⟨hq,hpost⟩ := hpost
  have hnodup := h.nodup
  simp only [List.map_append,List.map_cons,List.nodup_append,List.nodup_cons,List.mem_cons,
    not_or] at hnodup hppost
  obtain ⟨hprenodup,⟨-,hqpost,hpostnodup⟩,hapart⟩ := hnodup
  have hunlink : DoublyLinked.unlinkAfter m p = update (DoublyLinked.setPrev
      (setNext m p (first post none)) (first post none) (some p)) q none := by
    simp [DoublyLinked.unlinkAfter,hp,hq]
  rw [hunlink]
  refine ⟨?_,?_,?_,?_⟩
  · rw [h.head_eq]
    simp [first_append]
  · rw [seg_append]
    refine ⟨hpre.congr fun r hr => ?_,?_,?_⟩
    · have hrp : r ≠ p := by rintro rfl; exact hppre hr
      have hrq : r ≠ q := fun heq => hapart r hr q (by simp) heq
      have hrpost : r ∉ post.map Prod.fst := fun hr' => hapart r hr r (by simp [hr']) rfl
      rw [update_of_ne hrq,setPrev_of_not_mem hrpost,setNext_of_ne hrp]
    · rw [update_of_ne hppost.1,setPrev_of_not_mem hppost.2]
      simp [setNext,hp]
    · have hmoved : Seg (setNext m p (first post none)) (some q) post none :=
        hpost.congr fun r hr => setNext_of_ne (by rintro rfl; exact hppost.2 hr) _
      exact (hmoved.setPrev hpostnodup _).congr fun r hr =>
        update_of_ne (by rintro rfl; exact hqpost hr) _ _
  · simp only [List.map_append,List.map_cons,List.nodup_append,List.nodup_cons]
    exact ⟨hprenodup,⟨hppost.2,hpostnodup⟩,fun a ha b hb => hapart a ha b (by
      simp only [List.mem_cons] at hb ⊢; tauto)⟩
  · intro r hr
    have hrq : r ≠ q := by rintro rfl; simp at hr
    have hmem := h.only r (by simpa [hrq] using hr)
    simp only [List.map_append,List.map_cons,List.mem_append,List.mem_cons] at hmem ⊢
    tauto

end Represents

end DoublyLinked
