import DirectFB.SurfaceManagerShared

/-! Which allocations are thrown out of the video memory for a new one. -/
namespace DirectFB.SurfaceManager.Displace
open DoublyLinked Transition Shared

variable {α : Type*}

/-- The heap with the sizes of its allocations (`allocation->size`), and how often a chunk was
found occupied. -/
structure Pool (α : Type*) where
  manager : SurfaceManager α
  size : α → ℤ
  tolerations : ℕ → ℤ

structure Search (α : Type*) where
  tolerations : ℕ → ℤ
  smallest : Option (ℕ × CoreSurfaceAllocation α) := none
  multiStart : Option ℕ := none
  multiSize : ℤ := 0
  multiTsize : ℤ := 0
  multiCount : ℤ := 0
  bestmStart : Option ℕ := none
  bestmCount : ℤ := 0
  bestmSize : ℤ := 0

/-- The values of `CoreSurfacePolicy`. -/
def rank : CoreSurfacePolicy → ℕ
  | .systemOnly => 0
  | .videoLow => 1
  | .videoHigh => 2
  | .videoOnly => 3

structure Request (α : Type*) where
  memory : Memory (Chunk α)
  locks : α → ℕ
  size : α → ℤ
  policy : CoreSurfacePolicy
  length : ℤ
  minToleration : ℤ

section Walk

variable (q : Request α)

def Request.freeLength : Option ℕ → ℤ
  | none => 0
  | some c => ((q.memory c).map fun n =>
      if n.data.allocation.isNone then n.data.length else 0).getD 0

def Search.record (s : Search α) : Search α :=
  if s.bestmStart.isNone ∨ s.bestmSize > (s.multiSize*s.multiCount).tdiv s.bestmCount then
    {s with bestmSize := s.multiSize, bestmStart := s.multiStart, bestmCount := s.multiCount}
  else s

def Search.leave (s : Search α) (start : Node (Chunk α)) : Search α :=
  {s with
    multiTsize := s.multiTsize-start.data.length
    multiSize := s.multiSize-(if start.data.allocation.isSome then start.data.length else 0)
    multiCount := s.multiCount-(if start.data.allocation.isSome then 1 else 0)
    multiStart := start.next}

/-- The row shrinks from its start while it is long enough; a free chunk goes together with the
allocation after it. -/
def Request.narrow : ℕ → Search α → Option (Search α)
  | 0, _ => none
  | fuel+1, s =>
    if q.length ≤ s.multiTsize ∧ 1 < s.multiCount then
      let s := s.record
      if s.multiCount ≤ 2 then some s
      else
        (s.multiStart.bind q.memory).bind fun start =>
          let s := if start.data.allocation.isNone then s.leave start else s
          (s.multiStart.bind q.memory).bind fun start => narrow fuel (s.leave start)
    else some s

/-- A chunk is added to the row, unless a single allocation will do. -/
def Request.widen (fuel : ℕ) (c : ℕ) (chunk : Chunk α) (s : Search α) : Option (Search α) :=
  let length := if chunk.allocation.isSome then chunk.length else 0
  let count := if chunk.allocation.isSome then 1 else 0
  if s.smallest.isSome then some s
  else if s.multiStart.isNone then
    some {s with
      multiStart := some c, multiTsize := chunk.length, multiSize := length, multiCount := count}
  else
    q.narrow fuel {s with
      multiTsize := s.multiTsize+chunk.length
      multiSize := s.multiSize+length
      multiCount := s.multiCount+count}

def Request.single (c : ℕ) (chunk : Node (Chunk α)) (allocation : CoreSurfaceAllocation α)
    (s : Search α) : Search α :=
  let size := q.size allocation.object+q.freeLength chunk.prev+q.freeLength chunk.next
  if q.length ≤ size ∧
      s.smallest.all (fun smallest => q.size smallest.2.object > q.size allocation.object) then
    {s with smallest := some (c,allocation)}
  else s

def Search.tolerate (s : Search α) (c : ℕ) : Search α :=
  {s with tolerations := Function.update s.tolerations c (min (s.tolerations c+1) 0xff)}

/-- `next_reset`. -/
def Search.reset (s : Search α) : Search α := {s with multiStart := none}

def Request.visit (fuel : ℕ) (c : ℕ) (chunk : Node (Chunk α)) (s : Search α) : Option (Search α) :=
  match chunk.data.allocation with
  | none => q.widen fuel c chunk.data s
  | some allocation =>
    if q.locks allocation.object ≠ 0 then some s.reset
    else if rank allocation.buffer.policy > rank q.policy then some s.reset
    else if allocation.buffer.policy = .videoOnly then some s.reset
    else
      let s := s.tolerate c
      if allocation.buffer.policy = q.policy ∧ s.tolerations c < q.minToleration then some s.reset
      else q.widen fuel c chunk.data (q.single c chunk allocation s)

def Request.walk (n : ℕ) : ℕ → Option ℕ → Search α → Option (Search α)
  | _, none, s => some s
  | 0, some _, _ => none
  | fuel+1, some c, s =>
    (q.memory c).bind fun chunk => (q.visit n c chunk s).bind (walk n fuel chunk.next)

/-- The chunks from the start of the row whose allocations get `CSALF_MUCKOUT`. -/
def mark (memory : Memory (Chunk α)) : ℕ → Option ℕ → ℤ → Option (List ℕ)
  | fuel, c, count =>
    if count = 0 then some []
    else match fuel,c with
      | 0,_ => none
      | _,none => none
      | fuel+1,some c => (memory c).bind fun chunk =>
        if chunk.data.allocation.isSome then
          (mark memory fuel chunk.next (count-1)).map fun marked => c::marked
        else mark memory fuel chunk.next count

end Walk

def Pool.request (p : Pool α) (locks : α → ℕ) (policy : CoreSurfacePolicy) (length : ℤ) :
    Request α :=
  ⟨p.manager.memory,locks,p.size,policy,length,p.manager.minToleration.tdiv 8+2⟩

/-- The chunks of the allocations that are marked are returned beside the result. -/
def displace (p : Pool α) (locks : α → ℕ) (policy : CoreSurfacePolicy) (length : ℤ) :
    Option (DirectResult × Pool α × List ℕ) :=
  let fuel := p.manager.nextChunk+1
  ((p.request locks policy length).walk fuel fuel (some p.manager.chunks) {tolerations := p.tolerations}).bind fun s =>
    let pool := {p with tolerations := s.tolerations}
    match s.smallest with
    | some smallest => some (.ok,pool,[smallest.1])
    | none =>
      if s.bestmStart.isSome then
        (mark p.manager.memory fuel s.bestmStart s.bestmCount).map fun marked => (.ok,pool,marked)
      else some (.noVideoMemory,pool,[])

/-! Rows of chunks. -/
section Rows

def used (l : List (ℕ × Chunk α)) : List (ℕ × Chunk α) := l.filter fun a => a.2.allocation.isSome

def total (l : List (ℕ × Chunk α)) : ℤ := (l.map fun a => a.2.length).sum

theorem used_append (l₁ l₂ : List (ℕ × Chunk α)) : used (l₁++l₂) = used l₁++used l₂ :=
  List.filter_append ..

theorem used_cons (a : ℕ × Chunk α) (l : List (ℕ × Chunk α)) :
    used (a::l) = if a.2.allocation.isSome then a::used l else used l := by
  simp only [used,List.filter_cons]

theorem total_append (l₁ l₂ : List (ℕ × Chunk α)) : total (l₁++l₂) = total l₁+total l₂ := by
  simp [total]

theorem total_cons (a : ℕ × Chunk α) (l : List (ℕ × Chunk α)) :
    total (a::l) = a.2.length+total l := by
  simp [total]

def Evictable (q : Request α) (tolerations : ℕ → ℤ) (a : ℕ × Chunk α) : Prop :=
  ∃ x, a.2.allocation = some x ∧ q.locks x.object = 0 ∧ rank x.buffer.policy ≤ rank q.policy ∧
    x.buffer.policy ≠ .videoOnly ∧ (x.buffer.policy = q.policy → q.minToleration ≤ tolerations a.1)

def Open (q : Request α) (tolerations : ℕ → ℤ) (l : List (ℕ × Chunk α)) : Prop :=
  ∀ a ∈ l, a.2.allocation.isSome → Evictable q tolerations a

theorem Open.congr {q : Request α} {t t' : ℕ → ℤ} {l : List (ℕ × Chunk α)} (h : Open q t l)
    (ht : ∀ a ∈ l, t' a.1 = t a.1) : Open q t' l := by
  intro a ha hs
  obtain ⟨x,hx,hlocks,hle,hne,htol⟩ := h a ha hs
  exact ⟨x,hx,hlocks,hle,hne,fun heq => (htol heq).trans_eq (ht a ha).symm⟩

theorem Open.append {q : Request α} {t : ℕ → ℤ} {l₁ l₂ : List (ℕ × Chunk α)} (h₁ : Open q t l₁)
    (h₂ : Open q t l₂) : Open q t (l₁++l₂) := by
  intro a ha
  rcases List.mem_append.mp ha with ha | ha
  · exact h₁ a ha
  · exact h₂ a ha

theorem open_single {q : Request α} {t : ℕ → ℤ} {a : ℕ × Chunk α}
    (h : a.2.allocation.isSome → Evictable q t a) : Open q t [a] := by
  intro b hb
  obtain rfl := List.mem_singleton.mp hb
  exact h

structure Enough (q : Request α) (t : ℕ → ℤ) (l : List (ℕ × Chunk α)) : Prop where
  evictable : Open q t l
  length_le : q.length ≤ total l

structure Row (q : Request α) (s : Search α) (l : List (ℕ × Chunk α)) : Prop where
  evictable : Open q s.tolerations l
  start : l ≠ [] → s.multiStart = first l none
  tsize : s.multiTsize = total l
  count : s.multiCount = (used l).length

structure Found (q : Request α) (done rest : List (ℕ × Chunk α)) (s : Search α) : Prop where
  smallest : ∀ c x, s.smallest = some (c,x) → ∃ pre d post, done++rest = pre++(c,d)::post ∧
    (c,d) ∈ done ∧ d.allocation = some x ∧ Evictable q s.tolerations (c,d) ∧
    q.length ≤ q.size x.object+q.freeLength (last none pre)+q.freeLength (first post none)
  best : s.bestmStart.isSome → ∃ pre row post, done = pre++row++post ∧ row ≠ [] ∧
    s.bestmStart = first row none ∧ s.bestmCount = (used row).length ∧
    Enough q s.tolerations row

end Rows

section Narrow

variable {q : Request α} {head : Option ℕ} {pre row post : List (ℕ × Chunk α)}

theorem Row.leave {s : Search α} {a : ℕ × Chunk α} (pre post : List (ℕ × Chunk α))
    (h : Row q s (a::row)) (hrep : Represents q.memory head (pre++a::(row++post))) :
    ∃ n, s.multiStart.bind q.memory = some n ∧ n.data = a.2 ∧ Row q (s.leave n) row := by
  obtain ⟨c,d⟩ := a
  refine ⟨⟨d,last none pre,first (row++post) none⟩,?_,rfl,
    fun b hb => h.evictable b (List.mem_cons_of_mem _ hb),fun hne => ?_,?_,?_⟩
  · rw [h.start (List.cons_ne_nil _ _),first_cons,Option.bind_some]
    exact hrep.node
  · rw [Search.leave]
    cases row with
    | nil => exact absurd rfl hne
    | cons b row => rfl
  · have htsize := h.tsize
    rw [total_cons] at htsize
    simp only [Search.leave] at htsize ⊢
    omega
  · have hcount := h.count
    rw [used_cons] at hcount
    simp only [Search.leave]
    split_ifs at hcount ⊢
    · rw [List.length_cons] at hcount
      push_cast at hcount
      omega
    · omega

theorem Search.record_smallest (s : Search α) : s.record.smallest = s.smallest := by
  unfold Search.record
  split_ifs <;> rfl

theorem Search.record_tolerations (s : Search α) : s.record.tolerations = s.tolerations := by
  unfold Search.record
  split_ifs <;> rfl

theorem Row.record {s : Search α} (h : Row q s row) : Row q s.record row := by
  unfold Search.record
  split_ifs
  · exact ⟨h.evictable,h.start,h.tsize,h.count⟩
  · exact h

/-- A row that is recorded is long enough. -/
theorem Found.record {s : Search α} (h : Found q (pre++row) post s) (hrow : Row q s row)
    (hne : row ≠ []) (hlen : q.length ≤ s.multiTsize) : Found q (pre++row) post s.record := by
  refine ⟨?_,fun hsome => ?_⟩
  · rw [s.record_smallest,s.record_tolerations]
    exact h.smallest
  · rw [s.record_tolerations]
    by_cases hb : s.bestmStart.isNone ∨ s.bestmSize > (s.multiSize*s.multiCount).tdiv s.bestmCount
    · rw [Search.record,if_pos hb]
      exact ⟨pre,row,[],by simp,hne,hrow.start hne,hrow.count,hrow.evictable,
        hlen.trans_eq hrow.tsize⟩
    · rw [Search.record,if_neg hb] at hsome ⊢
      exact h.best hsome

theorem Found.leave {done rest : List (ℕ × Chunk α)} {s : Search α} (h : Found q done rest s)
    (n : Node (Chunk α)) : Found q done rest (s.leave n) := ⟨h.smallest,h.best⟩

/-- A free chunk at the start of a row is left out. -/
theorem Row.skip {s : Search α} (h : Row q s row)
    (hrep : Represents q.memory head (pre++row++post)) (hused : used row ≠ []) :
    ∃ n pre' row', s.multiStart.bind q.memory = some n ∧ pre'++row' = pre++row ∧
      used row' = used row ∧ row'.length ≤ row.length ∧
      Row q (if n.data.allocation.isNone then s.leave n else s) row' := by
  cases row with
  | nil => exact absurd rfl hused
  | cons a row =>
    obtain ⟨n,hn,hdata,hleave⟩ := Row.leave pre post h (by simpa using hrep)
    cases ha : a.2.allocation with
    | none =>
      refine ⟨n,pre++[a],row,hn,by simp,by simp [used_cons,ha],by simp,?_⟩
      rw [hdata,ha,Option.isNone_none,if_pos rfl]
      exact hleave
    | some x =>
      refine ⟨n,pre,a::row,hn,rfl,rfl,le_rfl,?_⟩
      rw [hdata,ha,Option.isNone_some,if_neg Bool.false_ne_true]
      exact h

theorem narrow_found (fuel : ℕ) {s : Search α} (hfuel : row.length < fuel)
    (hrep : Represents q.memory head (pre++row++post)) (hrow : Row q s row)
    (h : Found q (pre++row) post s) (hne : row ≠ []) (hsmall : s.smallest = none) :
    ∃ s' pre' row', q.narrow fuel s = some s' ∧ pre'++row' = pre++row ∧ row' ≠ [] ∧
      Row q s' row' ∧ Found q (pre++row) post s' ∧ s'.smallest = none ∧
      s'.tolerations = s.tolerations := by
  induction fuel generalizing pre row s with
  | zero => exact absurd hfuel (Nat.not_lt_zero _)
  | succ fuel ih =>
    rw [Request.narrow]
    by_cases hlong : q.length ≤ s.multiTsize ∧ 1 < s.multiCount
    · rw [if_pos hlong]
      have hrec := hrow.record
      have hfound := h.record hrow hne hlong.1
      have hcount : s.record.multiCount = (used row).length := hrec.count
      by_cases hfew : s.record.multiCount ≤ 2
      · simp only [if_pos hfew]
        exact ⟨_,pre,row,rfl,rfl,hne,hrec,hfound,s.record_smallest.trans hsmall,
          s.record_tolerations⟩
      · simp only [if_neg hfew]
        have hmany : 2 < (used row).length := by omega
        have hused : used row ≠ [] := List.ne_nil_of_length_pos (by omega)
        obtain ⟨n,pre₁,row₁,hn,heq,hused₁,hlen₁,hskip⟩ := hrec.skip hrep hused
        rw [hn,Option.bind_some]
        cases row₁ with
        | nil => exact absurd hused₁.symm hused
        | cons b row₂ =>
          rw [← heq] at hrep
          obtain ⟨m,hm,-,hleave⟩ := Row.leave pre₁ post hskip (by simpa using hrep)
          rw [hm,Option.bind_some]
          have hne₂ : row₂ ≠ [] := by
            rintro rfl
            rw [← hused₁] at hmany
            have := List.length_filter_le (fun a : ℕ × Chunk α => a.2.allocation.isSome) [b]
            simp only [used,List.length_singleton] at hmany this
            omega
          have hfound₂ : Found q ((pre₁++[b])++row₂) post ((if n.data.allocation.isNone then
              s.record.leave n else s.record).leave m) := by
            rw [List.append_assoc,List.singleton_append,heq]
            split_ifs
            · exact (hfound.leave n).leave m
            · exact hfound.leave m
          have hkept : ((if n.data.allocation.isNone then s.record.leave n else
              s.record).leave m).tolerations = s.tolerations ∧
              ((if n.data.allocation.isNone then s.record.leave n else
              s.record).leave m).smallest = none := by
            split_ifs <;> exact ⟨s.record_tolerations,s.record_smallest.trans hsmall⟩
          obtain ⟨s',pre',row',hs',heq',hne',hrow',hfound',hsmall',htol'⟩ := ih
            (by rw [List.length_cons] at hlen₁; omega) (by simpa using hrep) hleave hfound₂ hne₂
            hkept.2
          rw [List.append_assoc,List.singleton_append,heq] at heq' hfound'
          exact ⟨s',pre',row',hs',heq',hne',hrow',hfound',hsmall',htol'.trans hkept.1⟩
    · rw [if_neg hlong]
      exact ⟨s,pre,row,rfl,rfl,hne,hrow,h,hsmall,rfl⟩

end Narrow

section Visit

variable {q : Request α} {head : Option ℕ} {done rest : List (ℕ × Chunk α)} {a : ℕ × Chunk α}
variable {s : Search α} {c : ℕ} {d : Chunk α}

theorem Found.extend (h : Found q done (a::rest) s) : Found q (done++[a]) rest s := by
  refine ⟨fun c x hs => ?_,fun hs => ?_⟩
  · obtain ⟨pre,d,post,heq,hmem,hd⟩ := h.smallest c x hs
    exact ⟨pre,d,post,by simpa using heq,List.mem_append_left _ hmem,hd⟩
  · obtain ⟨pre,row,post,rfl,hrow⟩ := h.best hs
    exact ⟨pre,row,post++[a],by simp,hrow⟩

theorem tolerate_other {a : ℕ × Chunk α} (s : Search α) (h : a.1 ≠ c) :
    (s.tolerate c).tolerations a.1 = s.tolerations a.1 := Function.update_of_ne h ..

theorem ne_of_not_mem {l : List (ℕ × Chunk α)} (h : c ∉ l.map Prod.fst) (ha : a ∈ l) : a.1 ≠ c :=
  fun hac => h (hac ▸ List.mem_map_of_mem ha)

theorem Found.tolerate (h : Found q done rest s) (hc : c ∉ done.map Prod.fst) :
    Found q done rest (s.tolerate c) := by
  refine ⟨fun c' x hs => ?_,fun hs => ?_⟩
  · obtain ⟨pre,d,post,heq,hmem,hd,⟨y,hy,h₁,h₂,h₃,h₄⟩,hlen⟩ := h.smallest c' x hs
    refine ⟨pre,d,post,heq,hmem,hd,⟨y,hy,h₁,h₂,h₃,fun he => ?_⟩,hlen⟩
    exact (h₄ he).trans_eq (tolerate_other s (ne_of_not_mem hc hmem)).symm
  · obtain ⟨pre,row,post,rfl,hne,hstart,hcount,hopen,hlen⟩ := h.best hs
    refine ⟨pre,row,post,rfl,hne,hstart,hcount,hopen.congr fun b hb => ?_,hlen⟩
    exact tolerate_other s (ne_of_not_mem hc (by simp [hb]))

/-- What was found, and the row at the end unless there is a single allocation that will do. -/
structure Walked (q : Request α) (done rest : List (ℕ × Chunk α)) (s : Search α) : Prop where
  found : Found q done rest s
  row : s.smallest = none → s.multiStart.isSome → ∃ pre row, done = pre++row ∧ row ≠ [] ∧ Row q s row

theorem Walked.reset (h : Found q done rest s) : Walked q done rest s.reset :=
  ⟨⟨h.smallest,h.best⟩,fun _ hs => nomatch hs⟩

theorem widen_walked {n : ℕ} (hrep : Represents q.memory head (done++(c,d)::rest))
    (hn : done.length+1 < n) (h : Found q (done++[(c,d)]) rest s)
    (hrow : s.smallest = none → s.multiStart.isSome →
      ∃ pre row, done = pre++row ∧ row ≠ [] ∧ Row q s row)
    (hopen : d.allocation.isSome → Evictable q s.tolerations (c,d)) :
    ∃ s', q.widen n c d s = some s' ∧ Walked q (done++[(c,d)]) rest s' := by
  unfold Request.widen
  dsimp only
  cases hsmall : s.smallest with
  | some x =>
    exact ⟨s,by simp,h,fun hnone => by rw [hsmall] at hnone; cases hnone⟩
  | none =>
    rw [Option.isSome_none,if_neg Bool.false_ne_true]
    cases hstart : s.multiStart with
    | none =>
      rw [Option.isNone_none,if_pos rfl]
      refine ⟨_,rfl,⟨fun c x hs => h.smallest c x (hsmall.trans hs),h.best⟩,fun _ _ => ?_⟩
      refine ⟨done,[(c,d)],rfl,List.cons_ne_nil _ _,open_single hopen,fun _ => rfl,?_,?_⟩
      · simp [total]
      · rw [used_cons]
        split_ifs <;> rfl
    | some b =>
      rw [Option.isNone_some,if_neg Bool.false_ne_true]
      obtain ⟨pre,row,rfl,hne,hr⟩ := hrow hsmall (by rw [hstart]; rfl)
      have hwide : Row q {s with
          multiTsize := s.multiTsize+d.length
          multiSize := s.multiSize+(if d.allocation.isSome then d.length else 0)
          multiCount := s.multiCount+(if d.allocation.isSome then 1 else 0)} (row++[(c,d)]) := by
        refine ⟨hr.evictable.append (open_single hopen),fun _ => ?_,?_,?_⟩
        · rw [first_append]
          cases row with
          | nil => exact absurd rfl hne
          | cons a row => exact hr.start hne
        · simp [hr.tsize,total]
        · rw [used_append,used_cons]
          have := hr.count
          split_ifs <;> simp [used,this]
      have hfound : Found q (pre++(row++[(c,d)])) rest {s with
          multiTsize := s.multiTsize+d.length
          multiSize := s.multiSize+(if d.allocation.isSome then d.length else 0)
          multiCount := s.multiCount+(if d.allocation.isSome then 1 else 0)} := by
        rw [← List.append_assoc]
        exact ⟨h.smallest,h.best⟩
      obtain ⟨s',pre',row',hs',heq,hne',hrow',hfound',-,-⟩ := narrow_found n
        (by simp at hn ⊢; omega) (by simpa using hrep) hwide hfound (by simp) hsmall
      rw [hsmall,hstart] at hs'
      refine ⟨s',hs',by simpa using hfound',fun _ _ => ⟨pre',row',?_,hne',hrow'⟩⟩
      rw [heq,List.append_assoc]

theorem single_tolerations (n : Node (Chunk α)) (x : CoreSurfaceAllocation α) :
    (q.single c n x s).tolerations = s.tolerations := by
  unfold Request.single
  dsimp only
  split_ifs <;> rfl

theorem single_of_none {n : Node (Chunk α)} {x : CoreSurfaceAllocation α}
    (h : (q.single c n x s).smallest = none) : q.single c n x s = s := by
  unfold Request.single at h ⊢
  dsimp only at h ⊢
  split_ifs with hlong
  · rw [if_pos hlong] at h
    cases h
  · rfl

theorem visit_walked {n : ℕ} (hrep : Represents q.memory head (done++(c,d)::rest))
    (hn : done.length+1 < n) (h : Walked q done ((c,d)::rest) s) :
    ∃ s', q.visit n c ⟨d,last none done,first rest none⟩ s = some s' ∧
      Walked q (done++[(c,d)]) rest s' := by
  have hext := h.found.extend
  unfold Request.visit
  dsimp only
  cases ha : d.allocation with
  | none => exact widen_walked hrep hn hext h.row (by simp [ha])
  | some x =>
    dsimp only
    by_cases hlocks : q.locks x.object ≠ 0
    · rw [if_pos hlocks]
      exact ⟨_,rfl,.reset hext⟩
    by_cases hrank : rank x.buffer.policy > rank q.policy
    · rw [if_neg hlocks,if_pos hrank]
      exact ⟨_,rfl,.reset hext⟩
    by_cases honly : x.buffer.policy = .videoOnly
    · rw [if_neg hlocks,if_neg hrank,if_pos honly]
      exact ⟨_,rfl,.reset hext⟩
    have hc := hrep.not_mem.1
    have htol := (h.found.tolerate hc).extend
    rw [if_neg hlocks,if_neg hrank,if_neg honly]
    by_cases hequal : x.buffer.policy = q.policy ∧ (s.tolerate c).tolerations c < q.minToleration
    · rw [if_pos hequal]
      exact ⟨_,rfl,.reset htol⟩
    rw [if_neg hequal]
    have hevict : Evictable q (s.tolerate c).tolerations (c,d) :=
      ⟨x,ha,not_not.mp hlocks,not_lt.mp hrank,honly,fun he => not_lt.mp fun hl => hequal ⟨he,hl⟩⟩
    have hsingle : Found q (done++[(c,d)]) rest
        (q.single c ⟨d,last none done,first rest none⟩ x (s.tolerate c)) := by
      unfold Request.single
      dsimp only
      split_ifs with hlong
      · refine ⟨fun c' y hs => ?_,htol.best⟩
        obtain ⟨rfl,rfl⟩ := Prod.mk.inj (Option.some.inj hs)
        exact ⟨done,d,rest,by simp,by simp,ha,hevict,hlong.1⟩
      · exact htol
    refine widen_walked hrep hn hsingle (fun hs hstart => ?_) fun _ => ?_
    · have heq := single_of_none hs
      rw [heq] at hs hstart ⊢
      obtain ⟨pre,row,rfl,hne,hr⟩ := h.row hs hstart
      refine ⟨pre,row,rfl,hne,hr.evictable.congr fun b hb => ?_,hr.start,hr.tsize,hr.count⟩
      exact tolerate_other s (ne_of_not_mem hc (List.mem_append_right _ hb))
    · rw [single_tolerations]
      exact hevict

theorem walk_walked {n : ℕ} (fuel : ℕ) (hfuel : rest.length ≤ fuel)
    (hrep : Represents q.memory head (done++rest)) (hn : done.length+rest.length < n)
    (h : Walked q done rest s) :
    ∃ s', q.walk n fuel (first rest none) s = some s' ∧ Walked q (done++rest) [] s' := by
  induction rest generalizing done fuel s with
  | nil =>
    refine ⟨s,by cases fuel <;> rfl,?_⟩
    rwa [List.append_nil]
  | cons a rest ih =>
    obtain ⟨c,d⟩ := a
    cases fuel with
    | zero => exact absurd hfuel (by simp)
    | succ fuel =>
      rw [List.length_cons] at hn
      have hdone : done.length+1 < n := by omega
      obtain ⟨s',hs',hw⟩ := visit_walked hrep hdone h
      rw [first_cons,Request.walk,hrep.node,Option.bind_some,hs',Option.bind_some]
      obtain ⟨s'',hs'',hw'⟩ := ih fuel (by simpa using hfuel) (by simpa using hrep)
        (by simp only [List.length_append,List.length_singleton]; omega) hw
      exact ⟨s'',hs'',by simpa using hw'⟩

theorem mark_row {memory : Memory (Chunk α)} {pre row post : List (ℕ × Chunk α)} (fuel : ℕ)
    (hfuel : row.length ≤ fuel) (hrep : Represents memory head (pre++row++post)) :
    mark memory fuel (first (row++post) none) (used row).length =
      some ((used row).map Prod.fst) := by
  induction row generalizing pre fuel with
  | nil =>
    unfold mark
    exact if_pos rfl
  | cons a row ih =>
    obtain ⟨c,d⟩ := a
    cases fuel with
    | zero => exact absurd hfuel (by simp)
    | succ fuel =>
      have hrep' : Represents memory head (pre++(c,d)::(row++post)) := by simpa using hrep
      have hrest : Represents memory head ((pre++[(c,d)])++row++post) := by simpa using hrep
      have hnext := ih fuel (by simpa using hfuel) hrest
      unfold mark
      by_cases hnone : ((used ((c,d)::row)).length : ℤ) = 0
      · have hnil : used ((c,d)::row) = [] := List.length_eq_zero_iff.mp (by exact_mod_cast hnone)
        rw [if_pos hnone,hnil]
        rfl
      rw [if_neg hnone,List.cons_append,first_cons]
      simp only [hrep'.node,Option.bind_some]
      rw [used_cons]
      by_cases hd : d.allocation.isSome
      · simp only [if_pos hd]
        rw [List.length_cons,Nat.cast_succ,add_sub_cancel_right,hnext]
        rfl
      · simp only [if_neg hd]
        exact hnext

end Visit

section Displace

variable {p : Pool α} {l : List (ℕ × Chunk α)}

theorem freeLength_eq {q : Request α} {head : Option ℕ} {c : ℕ} {d : Chunk α}
    (h : Represents q.memory head l) (hd : (c,d) ∈ l) :
    q.freeLength (some c) = if d.allocation.isNone then d.length else 0 := by
  obtain ⟨n,hn,rfl⟩ := h.exists_node hd
  simp [Request.freeLength,hn]

theorem single_row {q : Request α} {head : Option ℕ} {pre post : List (ℕ × Chunk α)} {c : ℕ}
    {d : Chunk α} (h : Represents q.memory head (pre++(c,d)::post)) (hd : d.allocation.isSome) :
    ∃ pre' row post', pre++(c,d)::post = pre'++row++post' ∧ used row = [(c,d)] ∧
      total row = d.length+q.freeLength (last none pre)+q.freeLength (first post none) := by
  have hleft : ∃ pre' left, pre = pre'++left ∧ used left = [] ∧
      total left = q.freeLength (last none pre) := by
    rcases List.eq_nil_or_concat pre with rfl | ⟨pre',⟨b,e⟩,rfl⟩
    · exact ⟨[],[],rfl,rfl,rfl⟩
    · have hfree := freeLength_eq (c := b) (d := e) h (by simp)
      have hlast : last none (pre'.concat (b,e)) = some b := by simp [last]
      rw [hlast,hfree,List.concat_eq_append]
      cases he : e.allocation with
      | none => exact ⟨pre',[(b,e)],rfl,by simp [used,he],by simp [total]⟩
      | some x => exact ⟨pre'++[(b,e)],[],by simp,rfl,by simp [total]⟩
  have hright : ∃ right post', post = right++post' ∧ used right = [] ∧
      total right = q.freeLength (first post none) := by
    cases post with
    | nil => exact ⟨[],[],rfl,rfl,rfl⟩
    | cons b post =>
      obtain ⟨b,e⟩ := b
      have hfree := freeLength_eq (c := b) (d := e) h (by simp)
      rw [first_cons,hfree]
      cases he : e.allocation with
      | none => exact ⟨[(b,e)],post,rfl,by simp [used,he],by simp [total]⟩
      | some x => exact ⟨[],(b,e)::post,by simp,rfl,by simp [total]⟩
  obtain ⟨pre',left,rfl,hul,htl⟩ := hleft
  obtain ⟨right,post',rfl,hur,htr⟩ := hright
  refine ⟨pre',left++(c,d)::right,post',by simp,?_,?_⟩
  · rw [used_append,used_cons,if_pos hd,hul,hur]
    rfl
  · rw [total_append,total_cons,htl,htr]
    ring

/-- Either nothing is marked, or the allocations of a row which is long enough without them. -/
theorem displace_spec (h : Sound p.manager l)
    (hsize : ∀ a ∈ l, ∀ x ∈ a.2.allocation, p.size x.object ≤ a.2.length) (locks : α → ℕ)
    (policy : CoreSurfacePolicy) (length : ℤ) :
    ∃ r t marked, displace p locks policy length = some (r,{p with tolerations := t},marked) ∧
      (r = .noVideoMemory ∧ marked = [] ∨ r = .ok ∧ ∃ pre row post, l = pre++row++post ∧
        marked = (used row).map Prod.fst ∧ Open (p.request locks policy length) t row ∧
        length ≤ total row) := by
  have hlen := length_le h.represents h.fresh
  have hrep : Represents (p.request locks policy length).memory (some p.manager.chunks) ([]++l) :=
    h.represents
  have hfuel : ([] : List (ℕ × Chunk α)).length+l.length < p.manager.nextChunk+1 := by
    simpa using Nat.lt_succ_of_le hlen
  obtain ⟨s,hs,hw⟩ := walk_walked (s := {tolerations := p.tolerations}) (p.manager.nextChunk+1)
    (by omega) hrep hfuel ⟨⟨fun _ _ hn => (nomatch hn),fun hn => (nomatch hn)⟩,fun _ hn => (nomatch hn)⟩
  rw [← h.represents.head_eq] at hs
  rw [List.nil_append] at hw
  unfold displace
  dsimp only
  rw [hs,Option.bind_some]
  cases hsmall : s.smallest with
  | some cx =>
    obtain ⟨c,x⟩ := cx
    obtain ⟨pre,d,post,heq,-,hd,hev,hlong⟩ := hw.found.smallest c x hsmall
    rw [List.append_nil] at heq
    subst heq
    obtain ⟨pre',row,post',heq,hused,htotal⟩ := single_row (q := p.request locks policy length)
      h.represents (by rw [hd]; rfl)
    refine ⟨.ok,s.tolerations,[c],rfl,.inr ⟨rfl,pre',row,post',heq,by rw [hused]; rfl,?_,?_⟩⟩
    · intro a ha hused'
      have hmem : a ∈ used row := List.mem_filter.mpr ⟨ha,hused'⟩
      rw [hused,List.mem_singleton] at hmem
      exact hmem ▸ hev
    · have hx : p.size x.object ≤ d.length := hsize (c,d) (by simp) x hd
      have hlong' : length ≤ p.size x.object+(p.request locks policy length).freeLength
        (last none pre)+(p.request locks policy length).freeLength (first post none) := hlong
      omega
  | none =>
    by_cases hbest : s.bestmStart.isSome
    · obtain ⟨pre,row,post,heq,hne,hstart,hcount,hopen,hlong⟩ := hw.found.best hbest
      have hrep := heq ▸ h.represents
      have hrow : row.length ≤ p.manager.nextChunk+1 := by
        rw [heq,List.length_append,List.length_append] at hlen
        omega
      have hmark := mark_row _ hrow hrep
      have hfirst : first (row++post) none = first row none := by
        cases row with
        | nil => exact absurd rfl hne
        | cons a row => rfl
      rw [hfirst] at hmark
      refine ⟨.ok,s.tolerations,_,?_,.inr ⟨rfl,pre,row,post,heq,rfl,hopen,hlong⟩⟩
      simp only [if_pos hbest]
      rw [hstart,hcount,hmark,Option.map_some]
    · refine ⟨.noVideoMemory,s.tolerations,[],?_,.inl ⟨rfl,rfl⟩⟩
      simp only [if_neg hbest]

end Displace

end DirectFB.SurfaceManager.Displace
