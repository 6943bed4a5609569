import DirectFB.Types

/-! How a surface pool throws allocations out for a new one, backing them up in other pools. -/
namespace DirectFB.SurfacePool

/-- The codes that are told apart here, every other one by its number. -/
inductive DFBResult
  | ok | fusion | locked
  | error (code : ℕ)
  deriving DecidableEq, Repr

/-- What is read of an allocation. Its serial is compared with its buffer's only, so that the
outcome of `direct_serial_check` stands for it. -/
structure CoreSurfaceAllocation where
  buffer : ℕ
  pool : ℕ
  upToDate : Bool := false
  muckOut : Bool := false
  deriving DecidableEq, Repr

/-- The allocations by their addresses, with the vectors of the pools and of the buffers. -/
structure Core where
  allocation : ℕ → CoreSurfaceAllocation
  fresh : ℕ
  pools : ℕ → List ℕ
  buffers : ℕ → List ℕ
  inPool : ∀ p, ∀ x ∈ pools p, x < fresh ∧ (allocation x).pool = p
  inBuffer : ∀ b, ∀ x ∈ buffers b, x < fresh ∧ (allocation x).buffer = b
  poolNodup : ∀ p, (pools p).Nodup
  bufferNodup : ∀ b, (buffers b).Nodup

/-- A pool that is not the first one: `dfb_surface_pool_initialize2` gives it a backup pool. The
list goes on with the backup pool of that one. In the first pool, which has no `MuckOut`, nothing
is ever marked. -/
structure CoreSurfacePool where
  id : ℕ
  backup : List ℕ
  other : id ∉ backup
  backedUp : backup ≠ []

/-- What a call is answered: by the lock of the pool, by its own `MuckOut` with the allocations
that it marks, by the locks of the surfaces in each round, by the transfers into an allocation,
by the allocation of a buffer in a backup pool with the transfer that follows, and by the
allocation that was asked for. -/
structure Answers where
  prevail : DFBResult
  muckOut : DFBResult
  marks : ℕ → Bool
  trylock : ℕ → ℕ → DFBResult
  transfer : ℕ → DFBResult
  allocate : ℕ → ℕ → DFBResult
  transferNew : ℕ → ℕ → DFBResult
  request : DFBResult

namespace Core

def modify (c : Core) (f : ℕ → CoreSurfaceAllocation → CoreSurfaceAllocation)
    (h : ∀ x a, (f x a).buffer = a.buffer ∧ (f x a).pool = a.pool) : Core :=
  {c with
    allocation := fun x => f x (c.allocation x)
    inPool := fun p x hx => ⟨(c.inPool p x hx).1,(h x _).2.trans (c.inPool p x hx).2⟩
    inBuffer := fun b x hx => ⟨(c.inBuffer b x hx).1,(h x _).1.trans (c.inBuffer b x hx).2⟩}

/-- `direct_serial_update` of an allocation. -/
def takeSerial (c : Core) (y : ℕ) : Core :=
  c.modify (fun x a => if x = y then {a with upToDate := true} else a) fun x a => by
    split <;> exact ⟨rfl,rfl⟩

/-- What `MuckOut` marks among the allocations of a pool. -/
def mark (c : Core) (p : ℕ) (marks : ℕ → Bool) : Core :=
  c.modify (fun x a => if x ∈ c.pools p ∧ marks x then {a with muckOut := true} else a)
    fun x a => by split <;> exact ⟨rfl,rfl⟩

def unmark (c : Core) (p : ℕ) : Core :=
  c.modify (fun x a => if x ∈ c.pools p then {a with muckOut := false} else a)
    fun x a => by split <;> exact ⟨rfl,rfl⟩

/-- A new allocation enters the vectors of its buffer and of its pool. -/
def add (c : Core) (b p : ℕ) : Core where
  allocation x := if x = c.fresh then {buffer := b, pool := p} else c.allocation x
  fresh := c.fresh+1
  pools q := if q = p then c.pools q ++ [c.fresh] else c.pools q
  buffers d := if d = b then c.buffers d ++ [c.fresh] else c.buffers d
  inPool q x hx := by
    have hold := c.inPool q x
    grind
  inBuffer d x hx := by
    have hold := c.inBuffer d x
    grind
  poolNodup q := by
    have hnodup := c.poolNodup q
    have hold := c.inPool q c.fresh
    grind
  bufferNodup d := by
    have hnodup := c.bufferNodup d
    have hold := c.inBuffer d c.fresh
    grind

/-- `dfb_surface_allocation_decouple` of an allocation without locks. -/
def decouple (c : Core) (x : ℕ) : Core :=
  {c with
    pools := fun q => (c.pools q).erase x
    buffers := fun d => (c.buffers d).erase x
    inPool := fun q z hz => c.inPool q z (List.mem_of_mem_erase hz)
    inBuffer := fun d z hz => c.inBuffer d z (List.mem_of_mem_erase hz)
    poolNodup := fun q => (c.poolNodup q).erase x
    bufferNodup := fun d => (c.bufferNodup d).erase x}

end Core

/-- `dfb_surface_pool_allocate`, with the answer of the pool. -/
def poolAllocate (c : Core) (b p : ℕ) (answer : DFBResult) : DFBResult × Core :=
  if answer = .ok then (.ok,c.add b p) else (answer,c)

/-- `dfb_surface_allocation_update` without an access. The serial is taken over before the
transfer, and kept when that fails. -/
def allocationUpdate (c : Core) (y : ℕ) (answer : DFBResult) : DFBResult × Core :=
  if (c.allocation y).upToDate then (.ok,c) else (answer,c.takeSerial y)

section Call

variable (a : Answers) (pool : CoreSurfacePool)

def updateExisting : List ℕ → Core → Bool × Core
  | [], c => (false,c)
  | y::l, c =>
    if (c.allocation y).pool ≠ pool.id then
      match allocationUpdate c y (a.transfer y) with
      | (.ok,c) => (true,c)
      | (_,c) => updateExisting l c
    else updateExisting l c

def backupPools (b : ℕ) : List ℕ → DFBResult → Core → DFBResult × Core
  | [], ret, c => (ret,c)
  | p::l, _, c =>
    match poolAllocate c b p (a.allocate b p) with
    | (.ok,d) =>
      match allocationUpdate d c.fresh (a.transferNew b p) with
      | (.ok,e) => (.ok,e)
      | (ret,e) => backupPools b l ret (e.decouple c.fresh)
    | (ret,d) => backupPools b l ret d

/-- `backup_allocation`. -/
def backupAllocation (x : ℕ) (c : Core) : DFBResult × Core :=
  let b := (c.allocation x).buffer
  if (c.allocation x).upToDate then
    if (c.buffers b).any fun y => (c.allocation y).pool ≠ pool.id ∧ (c.allocation y).upToDate then
      (.ok,c)
    else
      match updateExisting a pool (c.buffers b) c with
      | (true,d) => (.ok,d)
      | (false,d) => backupPools a b pool.backup .ok d
  else (.ok,c)

/-- How far a call has come: each decoupled allocation stands with the state it was decoupled
in. -/
structure Progress where
  core : Core
  decoupled : List (ℕ × Core) := []
  retLock : DFBResult := .ok

def Progress.drop (s : Progress) (x : ℕ) (c : Core) : Progress :=
  {s with core := c.decouple x, decoupled := s.decoupled ++ [(x,c)]}

/-- The loop over the allocations of the pool in one round, from an index. A backup that fails
ends the call. -/
def round (r : ℕ) : ℕ → ℕ → Progress → DFBResult × Progress
  | 0, _, s => (.ok,s)
  | n+1, i, s =>
    match (s.core.pools pool.id)[i]? with
    | none => (.ok,s)
    | some x =>
      if (s.core.allocation x).muckOut then
        if a.trylock r x ≠ .ok then round r n (i+1) {s with retLock := a.trylock r x}
        else
          match backupAllocation a pool x s.core with
          | (.ok,c) => round r n i (s.drop x c)
          | (ret,c) => (ret,{s with core := c})
      else round r n (i+1) s

def fullRound (r : ℕ) (s : Progress) : DFBResult × Progress :=
  round a pool r (s.core.pools pool.id).length 0 s

/-- What a call comes to, and whether the allocation that was asked for was tried. -/
structure Outcome where
  ret : DFBResult
  core : Core
  decoupled : List (ℕ × Core)
  requested : Bool

/-- The exit `error_cleanup`. -/
def errorCleanup (ret : DFBResult) (s : Progress) : Outcome :=
  ⟨ret,s.core.unmark pool.id,s.decoupled,false⟩

/-- The rounds, of which `retries` more may follow this one. The lock error of a round is
remembered in the next one. -/
def rounds (b : ℕ) : ℕ → ℕ → Progress → Outcome
  | retries, r, s =>
    match fullRound a pool r s with
    | (.ok,s) =>
      if s.retLock ≠ .ok then
        match retries with
        | k+1 => rounds b k (r+1) s
        | 0 => errorCleanup pool .locked s
      else
        let (ret,c) := poolAllocate s.core b pool.id a.request
        ⟨ret,c,s.decoupled,true⟩
    | (ret,s) => errorCleanup pool ret s

/-- `dfb_surface_pool_displace` for a buffer. -/
def displace (c : Core) (b : ℕ) : Outcome :=
  if a.prevail ≠ .ok then ⟨.fusion,c,[],false⟩
  else if a.muckOut ≠ .ok then ⟨a.muckOut,c.mark pool.id a.marks,[],false⟩
  else rounds a pool b 3 0 {core := c.mark pool.id a.marks}

end Call


/-! ### What a backup leaves alone -/

section Backup

variable (a : Answers) (pool : CoreSurfacePool)

/-- What the backup of a buffer may change: allocations in other pools come up to date and new
ones come in. -/
structure Backing (b : ℕ) (c d : Core) : Prop where
  pools : d.pools pool.id = c.pools pool.id
  fresh : c.fresh ≤ d.fresh
  kept : ∀ x < c.fresh, d.allocation x = c.allocation x ∨
    (c.allocation x).pool ≠ pool.id ∧ d.allocation x = {c.allocation x with upToDate := true}
  stays : ∀ e, ∀ y ∈ c.buffers e, y ∈ d.buffers e
  origin : ∀ e, ∀ y ∈ d.buffers e, y ∈ c.buffers e ∨ c.fresh ≤ y
  others : ∀ e, e ≠ b → d.buffers e = c.buffers e ∧
    ∀ y ∈ c.buffers e, d.allocation y = c.allocation y

variable {pool} {b : ℕ} {c d e : Core}

theorem Backing.refl : Backing pool b c c :=
  ⟨rfl,le_rfl,fun _ _ => .inl rfl,fun _ _ h => h,fun _ _ h => .inl h,
    fun _ _ => ⟨rfl,fun _ _ => rfl⟩⟩

theorem Backing.trans (h : Backing pool b c d) (h' : Backing pool b d e) : Backing pool b c e where
  pools := h'.pools.trans h.pools
  fresh := h.fresh.trans h'.fresh
  kept x hx := by
    have h₁ := h.kept x hx
    have h₂ := h'.kept x (hx.trans_le h.fresh)
    grind
  stays k y hy := h'.stays k y (h.stays k y hy)
  origin k y hy := by
    rcases h'.origin k y hy with hd | hd
    · exact h.origin k y hd
    · exact .inr (h.fresh.trans hd)
  others k hk := by
    have h₁ := h.others k hk
    have h₂ := h'.others k hk
    exact ⟨h₂.1.trans h₁.1,fun y hy =>
      (h₂.2 y (h₁.1.symm ▸ hy)).trans (h₁.2 y hy)⟩

variable {x y : ℕ}

theorem Backing.place (h : Backing pool b c d) (hx : x < c.fresh) :
    (d.allocation x).pool = (c.allocation x).pool ∧
      (d.allocation x).buffer = (c.allocation x).buffer := by
  rcases h.kept x hx with hk | ⟨-,hk⟩ <;> rw [hk] <;> exact ⟨rfl,rfl⟩

theorem Backing.upToDate (h : Backing pool b c d) (hx : x < c.fresh)
    (hup : (c.allocation x).upToDate) : (d.allocation x).upToDate := by
  rcases h.kept x hx with hk | ⟨-,hk⟩ <;> rw [hk]
  exact hup

theorem Core.takeSerial_allocation (c : Core) (y x : ℕ) : (c.takeSerial y).allocation x =
    if x = y then {c.allocation x with upToDate := true} else c.allocation x := rfl

theorem backing_takeSerial (hy : y ∈ c.buffers b) (hp : (c.allocation y).pool ≠ pool.id) :
    Backing pool b c (c.takeSerial y) where
  pools := rfl
  fresh := le_rfl
  kept x _ := by
    rw [Core.takeSerial_allocation]
    split
    · next hxy => exact .inr ⟨hxy ▸ hp,rfl⟩
    · exact .inl rfl
  stays _ _ h := h
  origin _ _ h := .inl h
  others k hk := by
    refine ⟨rfl,fun z hz => ?_⟩
    rw [Core.takeSerial_allocation,if_neg]
    rintro rfl
    exact hk ((c.inBuffer k z hz).2.symm.trans (c.inBuffer b z hy).2)

theorem Core.mem_buffers_add (c : Core) (b p k y : ℕ) :
    y ∈ (c.add b p).buffers k ↔ y ∈ c.buffers k ∨ k = b ∧ y = c.fresh := by
  change y ∈ (if k = b then c.buffers k ++ [c.fresh] else c.buffers k) ↔ _
  split <;> simp [*]

theorem Core.add_allocation (c : Core) (b p x : ℕ) (hx : x < c.fresh) :
    (c.add b p).allocation x = c.allocation x :=
  if_neg hx.ne

theorem backing_add {p : ℕ} (hp : p ≠ pool.id) : Backing pool b c (c.add b p) where
  pools := if_neg (Ne.symm hp)
  fresh := Nat.le_succ _
  kept x hx := .inl (c.add_allocation b p x hx)
  stays k y hy := (c.mem_buffers_add b p k y).2 (.inl hy)
  origin k y hy := by
    rcases (c.mem_buffers_add b p k y).1 hy with h | ⟨-,rfl⟩
    · exact .inl h
    · exact .inr le_rfl
  others k hk :=
    ⟨if_neg hk,fun y hy => c.add_allocation b p y (c.inBuffer k y hy).1⟩

/-- A new allocation in another pool may go again. -/
theorem Backing.decouple (h : Backing pool b c d) (hy : c.fresh ≤ y)
    (hp : (d.allocation y).pool ≠ pool.id) : Backing pool b c (d.decouple y) where
  pools := by
    change (d.pools pool.id).erase y = _
    rw [List.erase_of_not_mem,h.pools]
    exact fun hmem => hp (d.inPool _ y hmem).2
  fresh := h.fresh
  kept := h.kept
  stays k z hz := by
    refine (List.mem_erase_of_ne ?_).2 (h.stays k z hz)
    rintro rfl
    exact absurd (c.inBuffer k z hz).1 (Nat.not_lt.2 hy)
  origin k z hz := h.origin k z (List.mem_of_mem_erase hz)
  others k hk := by
    obtain ⟨hb,hkeep⟩ := h.others k hk
    refine ⟨?_,hkeep⟩
    change (d.buffers k).erase y = _
    rw [hb,List.erase_of_not_mem]
    exact fun hmem => absurd (c.inBuffer k y hmem).1 (Nat.not_lt.2 hy)

/-! ### What a backup comes to -/

def Copy (pool : CoreSurfacePool) (b : ℕ) (c : Core) (y : ℕ) : Prop :=
  y ∈ c.buffers b ∧ (c.allocation y).pool ≠ pool.id ∧ (c.allocation y).upToDate

def Takes (a : Answers) (pool : CoreSurfacePool) (b p : ℕ) : Prop :=
  p ∈ pool.backup ∧ a.allocate b p = .ok ∧ a.transferNew b p = .ok

theorem updateExisting_spec {l : List ℕ} (hl : ∀ y ∈ l, y ∈ c.buffers b) (hn : l.Nodup)
    (hup : ∀ y ∈ l, (c.allocation y).pool ≠ pool.id → ¬(c.allocation y).upToDate) :
    ∃ r d, updateExisting a pool l c = (r,d) ∧ Backing pool b c d ∧ d.buffers = c.buffers ∧
      (r = true → ∃ y ∈ l, Copy pool b d y ∧ a.transfer y = .ok) ∧
      (r = false → ∀ y ∈ l, (c.allocation y).pool ≠ pool.id → a.transfer y ≠ .ok) := by
  induction l generalizing c with
  | nil => exact ⟨_,_,rfl,.refl,rfl,by simp,by simp⟩
  | cons y l ih =>
    rw [List.nodup_cons] at hn
    by_cases hp : (c.allocation y).pool = pool.id
    · obtain ⟨r,d,heq,hback,hbuf,htrue,hfalse⟩ := ih (fun z hz => hl z (.tail _ hz)) hn.2
        fun z hz => hup z (.tail _ hz)
      refine ⟨r,d,by rw [updateExisting,if_neg (by simpa using hp),heq],hback,hbuf,?_,?_⟩
      · intro hr
        obtain ⟨z,hz,hcopy⟩ := htrue hr
        exact ⟨z,.tail _ hz,hcopy⟩
      · intro hr z hz hzp
        rcases List.mem_cons.1 hz with rfl | hz
        · exact absurd hp hzp
        · exact hfalse hr z hz hzp
    · have hstep : allocationUpdate c y (a.transfer y) = (a.transfer y,c.takeSerial y) :=
        if_neg (hup y (.head _) hp)
      have hmem : y ∈ c.buffers b := hl y (.head _)
      have hfirst := backing_takeSerial hmem hp
      by_cases hok : a.transfer y = .ok
      · refine ⟨true,c.takeSerial y,?_,hfirst,rfl,fun _ => ⟨y,.head _,⟨hmem,?_,?_⟩,hok⟩,by simp⟩
        · rw [updateExisting,if_pos hp,hstep,hok]
        · rw [(hfirst.place (c.inBuffer b y hmem).1).1]
          exact hp
        · rw [Core.takeSerial_allocation,if_pos rfl]
      · have hrest : ∀ z ∈ l, (c.takeSerial y).allocation z = c.allocation z := fun z hz =>
          if_neg fun h : z = y => hn.1 (h ▸ hz)
        obtain ⟨r,d,heq,hback,hbuf,htrue,hfalse⟩ := ih (c := c.takeSerial y)
          (fun z hz => hl z (.tail _ hz)) hn.2
          fun z hz => by rw [hrest z hz]; exact hup z (.tail _ hz)
        refine ⟨r,d,?_,hfirst.trans hback,hbuf,?_,?_⟩
        · rw [updateExisting,if_pos hp,hstep]
          revert hok
          cases a.transfer y <;> simp [heq]
        · intro hr
          obtain ⟨z,hz,hcopy⟩ := htrue hr
          exact ⟨z,.tail _ hz,hcopy⟩
        · intro hr z hz hzp
          rcases List.mem_cons.1 hz with rfl | hz
          · exact hok
          · exact hfalse hr z hz (by rwa [hrest z hz])

/-- The backup pools are tried one after the other until one takes the buffer. What is left of
the attempts is the allocation that was filled. -/
theorem backupPools_spec {l : List ℕ} (hl : pool.id ∉ l) (ret : DFBResult) :
    ∃ r d, backupPools a b l ret c = (r,d) ∧ Backing pool b c d ∧
      (r = .ok ↔ l = [] ∧ ret = .ok ∨ ∃ p ∈ l, a.allocate b p = .ok ∧ a.transferNew b p = .ok) ∧
      (r = .ok → l = [] ∧ ret = .ok ∨ ∃ y, c.fresh ≤ y ∧ Copy pool b d y) ∧
      ∀ y ∈ d.buffers b, c.fresh ≤ y → (d.allocation y).upToDate ∧
        (d.allocation y).pool ∈ l ∧ a.allocate b (d.allocation y).pool = .ok ∧
        a.transferNew b (d.allocation y).pool = .ok := by
  induction l generalizing c ret with
  | nil =>
    refine ⟨ret,c,rfl,.refl,by simp,fun h => .inl ⟨rfl,h⟩,fun y hy hfresh => ?_⟩
    exact absurd (c.inBuffer b y hy).1 (Nat.not_lt.2 hfresh)
  | cons p l ih =>
    rw [List.mem_cons,not_or] at hl
    by_cases hok : a.allocate b p = .ok
    · have hadd : Backing pool b c (c.add b p) := backing_add (Ne.symm hl.1)
      have hnew : (c.add b p).allocation c.fresh = {buffer := b, pool := p} := if_pos rfl
      have hmem : c.fresh ∈ (c.add b p).buffers b := (c.mem_buffers_add b p b _).2 (.inr ⟨rfl,rfl⟩)
      have hup : allocationUpdate (c.add b p) c.fresh (a.transferNew b p) =
          (a.transferNew b p,(c.add b p).takeSerial c.fresh) := if_neg (by simp [hnew])
      have htake := hadd.trans (backing_takeSerial hmem (by rw [hnew]; exact Ne.symm hl.1))
      have hfilled : ((c.add b p).takeSerial c.fresh).allocation c.fresh =
          {buffer := b, pool := p, upToDate := true} := by
        rw [Core.takeSerial_allocation,if_pos rfl,hnew]
      by_cases htr : a.transferNew b p = .ok
      · refine ⟨.ok,_,?_,htake,?_,fun _ => .inr ⟨c.fresh,le_rfl,hmem,?_,?_⟩,fun y hy hfresh => ?_⟩
        · simp only [backupPools,poolAllocate,if_pos hok,hup]
          rw [htr]
        · exact ⟨fun _ => .inr ⟨p,.head _,hok,htr⟩,fun _ => rfl⟩
        · rw [hfilled]
          exact Ne.symm hl.1
        · rw [hfilled]
        · rcases (c.mem_buffers_add b p b y).1 hy with hold | ⟨-,rfl⟩
          · exact absurd (c.inBuffer b y hold).1 (Nat.not_lt.2 hfresh)
          · rw [hfilled]
            exact ⟨rfl,.head _,hok,htr⟩
      · have hgone : Backing pool b c (((c.add b p).takeSerial c.fresh).decouple c.fresh) :=
          htake.decouple le_rfl (by rw [hfilled]; exact Ne.symm hl.1)
        have hrun : backupPools a b (p::l) ret c = backupPools a b l (a.transferNew b p)
              (((c.add b p).takeSerial c.fresh).decouple c.fresh) := by
          simp only [backupPools,poolAllocate,if_pos hok,hup]
        obtain ⟨r,d,heq,hback,hiff,hcopy,hmade⟩ := ih hl.2 (a.transferNew b p)
          (c := ((c.add b p).takeSerial c.fresh).decouple c.fresh)
        have herased : c.fresh ∉
            (((c.add b p).takeSerial c.fresh).decouple c.fresh).buffers b := fun h =>
          ((List.Nodup.mem_erase_iff ((c.add b p).bufferNodup b)).1 h).1 rfl
        refine ⟨r,d,hrun.trans heq,hgone.trans hback,?_,?_,fun y hy hfresh => ?_⟩
        · simp [hiff,htr]
        · intro hr
          obtain ⟨y,hy,hcopied⟩ := (hcopy hr).resolve_left fun h => htr h.2
          exact .inr ⟨y,(Nat.le_succ _).trans hy,hcopied⟩
        · have hlater : c.fresh+1 ≤ y := by
            refine Nat.succ_le_of_lt (hfresh.lt_of_ne ?_)
            rintro rfl
            rcases hback.origin b _ hy with h | h
            · exact herased h
            · exact absurd h (Nat.not_succ_le_self _)
          obtain ⟨hyup,hpool,hrest⟩ := hmade y hy hlater
          exact ⟨hyup,.tail _ hpool,hrest⟩
    · have hrun : backupPools a b (p::l) ret c = backupPools a b l (a.allocate b p) c := by
        simp only [backupPools,poolAllocate,if_neg hok]
      obtain ⟨r,d,heq,hback,hiff,hcopy,hmade⟩ := ih hl.2 (a.allocate b p) (c := c)
      refine ⟨r,d,hrun.trans heq,hback,?_,?_,fun y hy hfresh => ?_⟩
      · simp [hiff,hok]
      · intro hr
        exact .inr ((hcopy hr).resolve_left fun h => hok h.2)
      · obtain ⟨hyup,hpool,hrest⟩ := hmade y hy hfresh
        exact ⟨hyup,.tail _ hpool,hrest⟩

/-! ### Backups within a call -/

def CanBackup (a : Answers) (pool : CoreSurfacePool) (c : Core) (b : ℕ) : Prop :=
  (∃ y ∈ c.buffers b, (c.allocation y).pool ≠ pool.id ∧
    ((c.allocation y).upToDate ∨ a.transfer y = .ok)) ∨ ∃ p, Takes a pool b p

def Filled (a : Answers) (pool : CoreSurfacePool) (c d : Core) (b y : ℕ) : Prop :=
  Copy pool b d y ∧ (y < c.fresh ∧ ((c.allocation y).upToDate ∨ a.transfer y = .ok) ∨
      c.fresh ≤ y ∧ Takes a pool b (d.allocation y).pool)

structure Within (a : Answers) (pool : CoreSurfacePool) (c d : Core) : Prop where
  pools : d.pools pool.id ⊆ c.pools pool.id
  fresh : c.fresh ≤ d.fresh
  kept : ∀ x < c.fresh, d.allocation x = c.allocation x ∨
    (c.allocation x).pool ≠ pool.id ∧ d.allocation x = {c.allocation x with upToDate := true}
  stays : ∀ b, ∀ y ∈ c.buffers b, (c.allocation y).pool ≠ pool.id → y ∈ d.buffers b
  origin : ∀ b, ∀ y ∈ d.buffers b, y ∈ c.buffers b ∨ c.fresh ≤ y
  made : ∀ b, ∀ y ∈ d.buffers b, c.fresh ≤ y →
    (d.allocation y).upToDate ∧ Takes a pool b (d.allocation y).pool
  filled : ∀ b y, Copy pool b d y → ∃ z, Filled a pool c d b z

variable {a}

theorem Within.start : Within a pool c c where
  pools := List.Subset.refl _
  fresh := le_rfl
  kept _ _ := .inl rfl
  stays _ _ h _ := h
  origin _ _ h := .inl h
  made b y hy hfresh := absurd (c.inBuffer b y hy).1 (Nat.not_lt.2 hfresh)
  filled b y hcopy := ⟨y,hcopy,.inl ⟨(c.inBuffer b y hcopy.1).1,.inl hcopy.2.2⟩⟩

theorem Within.own (h : Within a pool c d) (hx : x ∈ c.pools pool.id) :
    d.allocation x = c.allocation x :=
  (h.kept x (c.inPool _ x hx).1).resolve_right fun hk => hk.1 (c.inPool _ x hx).2

theorem Within.place (h : Within a pool c d) (hx : x < c.fresh) :
    (d.allocation x).pool = (c.allocation x).pool := by
  rcases h.kept x hx with hk | ⟨-,hk⟩ <;> rw [hk]

theorem Within.canBackup (h : Within a pool c d) (hy : Copy pool b d y) : CanBackup a pool c b := by
  obtain ⟨z,⟨hz,hp,-⟩,⟨hold,hfill⟩ | ⟨-,htakes⟩⟩ := h.filled b y hy
  · refine .inl ⟨z,(h.origin b z hz).resolve_right (Nat.not_le.2 hold),?_,hfill⟩
    rwa [← h.place hold]
  · exact .inr ⟨_,htakes⟩

/-- A decoupled allocation of the pool changes nothing for the others. -/
theorem Within.decouple (h : Within a pool c d) (hx : x ∈ d.pools pool.id) :
    Within a pool c (d.decouple x) where
  pools y hy := h.pools (List.mem_of_mem_erase hy)
  fresh := h.fresh
  kept := h.kept
  stays k y hy hp := by
    refine (List.mem_erase_of_ne ?_).2 (h.stays k y hy hp)
    rintro rfl
    exact hp (c.inPool _ y (h.pools hx)).2
  origin k y hy := h.origin k y (List.mem_of_mem_erase hy)
  made k y hy hfresh := h.made k y (List.mem_of_mem_erase hy) hfresh
  filled k y hy := by
    obtain ⟨z,⟨hz,hp,hup⟩,hfill⟩ := h.filled k y ⟨List.mem_of_mem_erase hy.1,hy.2⟩
    refine ⟨z,⟨(List.mem_erase_of_ne ?_).2 hz,hp,hup⟩,hfill⟩
    rintro rfl
    exact hp (d.inPool _ z hx).2

/-- A backup that leaves a filled copy keeps to what a call does. -/
theorem Within.backing (h : Within a pool c d) (hback : Backing pool b d e)
    (hmade : ∀ y ∈ e.buffers b, d.fresh ≤ y →
      (e.allocation y).upToDate ∧ Takes a pool b (e.allocation y).pool)
    (hfilled : ∃ z, Filled a pool c e b z) : Within a pool c e where
  pools := hback.pools ▸ h.pools
  fresh := h.fresh.trans hback.fresh
  kept x hx := by
    have h₁ := h.kept x hx
    have h₂ := hback.kept x (hx.trans_le h.fresh)
    grind
  stays k y hy hp := hback.stays k y (h.stays k y hy hp)
  origin k y hy := by
    rcases hback.origin k y hy with hd | hd
    · exact h.origin k y hd
    · exact .inr (h.fresh.trans hd)
  made k y hy hfresh := by
    by_cases hk : k = b
    · subst hk
      rcases hback.origin k y hy with hd | hd
      · have hlt := (d.inBuffer k y hd).1
        rw [(hback.place hlt).1]
        exact ⟨hback.upToDate hlt (h.made k y hd hfresh).1,(h.made k y hd hfresh).2⟩
      · exact hmade y hy hd
    · obtain ⟨hb,hkeep⟩ := hback.others k hk
      rw [hb] at hy
      rw [hkeep y hy]
      exact h.made k y hy hfresh
  filled k y hy := by
    by_cases hk : k = b
    · exact hk ▸ hfilled
    · obtain ⟨hb,hkeep⟩ := hback.others k hk
      obtain ⟨hmem,hp,hup⟩ := hy
      rw [hb] at hmem
      rw [hkeep y hmem] at hp hup
      obtain ⟨z,⟨hz,hzp⟩,hfill⟩ := h.filled k y ⟨hmem,hp,hup⟩
      refine ⟨z,⟨hb ▸ hz,?_⟩,?_⟩
      · rwa [hkeep z hz]
      · rwa [hkeep z hz]

/-- A backup succeeds if the buffer can be backed up, or need not. It then leaves a filled
copy. -/
theorem backupAllocation_spec (h : Within a pool c d) (hx : x ∈ d.pools pool.id)
    (hb : (c.allocation x).buffer = b) :
    ∃ r e, backupAllocation a pool x d = (r,e) ∧ Backing pool b d e ∧
      (r = .ok ↔ ((c.allocation x).upToDate → CanBackup a pool c b)) ∧
      (r = .ok → Within a pool c e ∧ ((c.allocation x).upToDate → ∃ y, Filled a pool c e b y)) := by
  have hown := h.own (h.pools hx)
  simp only [backupAllocation,hown,hb]
  by_cases hup : (c.allocation x).upToDate
  swap
  · rw [if_neg hup]
    exact ⟨.ok,d,rfl,.refl,by simp [hup],fun _ => ⟨h,fun h' => absurd h' hup⟩⟩
  rw [if_pos hup]
  by_cases hany : ((d.buffers b).any fun y =>
      decide ((d.allocation y).pool ≠ pool.id ∧ (d.allocation y).upToDate)) = true
  · rw [if_pos hany]
    simp only [List.any_eq_true,decide_eq_true_eq] at hany
    obtain ⟨y,hy,hp,hyup⟩ := hany
    have hcopy : Copy pool b d y := ⟨hy,hp,hyup⟩
    exact ⟨.ok,d,rfl,.refl,iff_of_true rfl fun _ => h.canBackup hcopy,
      fun _ => ⟨h,fun _ => h.filled b y hcopy⟩⟩
  rw [if_neg hany]
  have hnone : ∀ y, ¬Copy pool b d y := by
    intro y hy
    refine hany (List.any_eq_true.2 ⟨y,hy.1,?_⟩)
    simpa using hy.2
  -- without a copy, the buffer has no allocations of this call
  have hold : ∀ y ∈ d.buffers b, (d.allocation y).pool ≠ pool.id → y < c.fresh := by
    intro y hy hp
    by_contra hfresh
    exact hnone y ⟨hy,hp,(h.made b y hy (Nat.not_lt.1 hfresh)).1⟩
  have hstale : ∀ y ∈ d.buffers b, (d.allocation y).pool ≠ pool.id →
      ¬(d.allocation y).upToDate := fun y hy hp hyup => hnone y ⟨hy,hp,hyup⟩
  obtain ⟨r,f,heq,hback,hbuf,htrue,hfalse⟩ :=
    updateExisting_spec a (fun y hy => hy) (d.bufferNodup b) hstale
  rw [heq]
  cases r with
  | true =>
    obtain ⟨y,hy,hcopy,htr⟩ := htrue rfl
    have hlt := (d.inBuffer b y hy).1
    have hp : (d.allocation y).pool ≠ pool.id := (hback.place hlt).1 ▸ hcopy.2.1
    have hfirst := hold y hy hp
    have hfilled : Filled a pool c f b y := ⟨hcopy,.inl ⟨hfirst,.inr htr⟩⟩
    refine ⟨.ok,f,rfl,hback,iff_of_true rfl fun _ => .inl ⟨y,?_,?_,.inr htr⟩,
      fun _ => ⟨h.backing hback ?_ ⟨y,hfilled⟩,fun _ => ⟨y,hfilled⟩⟩⟩
    · exact (h.origin b y hy).resolve_right (Nat.not_le.2 hfirst)
    · rwa [← h.place hfirst]
    · intro z hz hfresh
      exact absurd (d.inBuffer b z (hbuf ▸ hz)).1 (Nat.not_lt.2 hfresh)
  | false =>
    obtain ⟨r,e,hrun,hmore,hiff,hcopy,hmade⟩ := backupPools_spec a (b := b) (c := f) pool.other .ok
    have hall := hback.trans hmore
    have hnew : ∀ y ∈ e.buffers b, d.fresh ≤ y →
        (e.allocation y).upToDate ∧ Takes a pool b (e.allocation y).pool := by
      intro y hy hfresh
      rcases hmore.origin b y hy with hf | hf
      · exact absurd (d.inBuffer b y (hbuf ▸ hf)).1 (Nat.not_lt.2 hfresh)
      · exact hmade y hy hf
    have hok : r = .ok ↔ ∃ p, Takes a pool b p := by
      simp [hiff,pool.backedUp,Takes]
    refine ⟨r,e,hrun,hall,hok.trans ⟨fun htakes _ => .inr htakes,fun hcan => ?_⟩,fun hr => ?_⟩
    · refine (hcan hup).resolve_left ?_
      rintro ⟨y,hy,hp,hyup | htr⟩
      · have hyd := h.stays b y hy hp
        have hlt := (c.inBuffer b y hy).1
        refine hnone y ⟨hyd,(h.place hlt).symm ▸ hp,?_⟩
        rcases h.kept y hlt with hk | ⟨-,hk⟩ <;> rw [hk]
        exact hyup
      · have hlt := (c.inBuffer b y hy).1
        exact hfalse rfl y (h.stays b y hy hp) ((h.place hlt).symm ▸ hp) htr
    · obtain ⟨y,hfresh,hy⟩ := (hcopy hr).resolve_left fun hnil => pool.backedUp hnil.1
      have hlater := hback.fresh.trans hfresh
      have hfilled : Filled a pool c e b y :=
        ⟨hy,.inr ⟨h.fresh.trans hlater,(hnew y hy.1 hlater).2⟩⟩
      exact ⟨h.backing hall hnew ⟨y,hfilled⟩,fun _ => ⟨y,hfilled⟩⟩

end Backup

/-! ### The rounds -/

section Rounds

variable (a : Answers) (pool : CoreSurfacePool)

def walk (r : ℕ) : List ℕ → Progress → DFBResult × Progress
  | [], s => (.ok,s)
  | x::l, s =>
    if (s.core.allocation x).muckOut then
      if a.trylock r x ≠ .ok then walk r l {s with retLock := a.trylock r x}
      else
        match backupAllocation a pool x s.core with
        | (.ok,c) => walk r l (s.drop x c)
        | (ret,c) => (ret,{s with core := c})
    else walk r l s

variable {a pool} {c : Core}

theorem drop_erase {l : List ℕ} (hl : l.Nodup) {i x : ℕ} (h : l[i]? = some x) :
    (l.erase x).drop i = l.drop (i+1) := by
  obtain ⟨hi,rfl⟩ := List.getElem?_eq_some_iff.1 h
  rw [hl.erase_getElem i hi,List.eraseIdx_eq_take_drop_succ,List.drop_append,List.drop_take]
  simp [Nat.min_eq_left hi.le]

theorem round_eq_walk {r n i : ℕ} {s : Progress} (h : Within a pool c s.core)
    (hn : (s.core.pools pool.id).length ≤ i+n) :
    round a pool r n i s = walk a pool r ((s.core.pools pool.id).drop i) s := by
  induction n generalizing i s with
  | zero => rw [List.drop_eq_nil_of_le (by simpa using hn),round,walk]
  | succ n ih =>
    rw [round]
    cases hx : (s.core.pools pool.id)[i]? with
    | none => rw [List.drop_eq_nil_of_le (List.getElem?_eq_none_iff.1 hx),walk]
    | some x =>
      have hmem := List.mem_of_getElem? hx
      have hlist : (s.core.pools pool.id).drop i = x::(s.core.pools pool.id).drop (i+1) := by
        obtain ⟨hi,rfl⟩ := List.getElem?_eq_some_iff.1 hx
        exact List.drop_eq_getElem_cons hi
      rw [hlist,walk]
      obtain ⟨ret,e,heq,hback,-,hok⟩ := backupAllocation_spec h hmem rfl
      simp only [heq]
      have hlater : (s.core.pools pool.id).length ≤ i+1+n := by omega
      split
      · split
        · exact ih h hlater
        · cases ret with
          | ok =>
            have hpools : (s.drop x e).core.pools pool.id = (s.core.pools pool.id).erase x :=
              congrArg (List.erase · x) hback.pools
            have hdrop := drop_erase (s.core.poolNodup _) hx
            have hin := (hok rfl).1.decouple (hback.pools.symm ▸ hmem)
            have hrun := ih (s := s.drop x e) hin (i := i) (by
              rw [hpools,List.length_erase_of_mem hmem]
              omega)
            rw [hpools,hdrop] at hrun
            exact hrun
          | _ => rfl
      · exact ih h hlater

def BackedUp (a : Answers) (pool : CoreSurfacePool) (c : Core) (x : ℕ) (t : Core) : Prop :=
  (t.allocation x).upToDate = false ∨ ∃ y, Filled a pool c t (t.allocation x).buffer y

def Marked (pool : CoreSurfacePool) (c : Core) (x : ℕ) : Prop :=
  x ∈ c.pools pool.id ∧ (c.allocation x).muckOut

def Backable (a : Answers) (pool : CoreSurfacePool) (c : Core) (x : ℕ) : Prop :=
  (c.allocation x).upToDate → CanBackup a pool c (c.allocation x).buffer

structure Walked (a : Answers) (pool : CoreSurfacePool) (c : Core) (r : ℕ) (l : List ℕ)
    (s : Progress) (ret : DFBResult) (q : Progress) : Prop where
  ends : ret = .ok ↔ ∀ x ∈ l, Marked pool c x → a.trylock r x = .ok → Backable a pool c x
  safe : ∀ e ∈ q.decoupled, e ∈ s.decoupled ∨ BackedUp a pool c e.1 e.2
  logged : s.decoupled ⊆ q.decoupled
  accounted : ∀ x ∈ s.core.pools pool.id, x ∈ q.core.pools pool.id ∨ ∃ t, (x,t) ∈ q.decoupled
  within : ret = .ok → Within a pool c q.core
  left : ret = .ok → ∀ x, x ∈ q.core.pools pool.id ↔
    x ∈ s.core.pools pool.id ∧ ¬(x ∈ l ∧ Marked pool c x ∧ a.trylock r x = .ok)
  locked : ret = .ok → (q.retLock = .ok ↔
    s.retLock = .ok ∧ ∀ x ∈ l, Marked pool c x → a.trylock r x = .ok)

theorem walk_spec {r : ℕ} {l : List ℕ} {s : Progress} (h : Within a pool c s.core)
    (hl : l ⊆ s.core.pools pool.id) (hn : l.Nodup) :
    ∃ ret q, walk a pool r l s = (ret,q) ∧ Walked a pool c r l s ret q := by
  induction l generalizing s with
  | nil =>
    exact ⟨_,_,rfl,by simp,fun _ h => .inl h,List.Subset.refl _,fun _ h => .inl h,fun _ => h,
      by simp,by simp⟩
  | cons x l ih =>
    rw [List.nodup_cons] at hn
    rw [List.cons_subset] at hl
    have hmem := h.pools hl.1
    have hown := h.own hmem
    by_cases hmark : Marked pool c x
    swap
    · have hflag : ¬(s.core.allocation x).muckOut := fun hm => hmark ⟨hmem,hown ▸ hm⟩
      obtain ⟨ret,q,heq,hq⟩ := ih h hl.2 hn.2
      refine ⟨ret,q,?_,?_,hq.safe,hq.logged,hq.accounted,hq.within,fun hr y => ?_,fun hr => ?_⟩
      · rw [walk,if_neg hflag,heq]
      · rw [hq.ends,List.forall_mem_cons,and_iff_right fun h => absurd h hmark]
      · rw [hq.left hr,List.mem_cons]
        grind
      · rw [hq.locked hr,List.forall_mem_cons,and_iff_right fun h => absurd h hmark]
    have hflag : (s.core.allocation x).muckOut = true := hown ▸ hmark.2
    by_cases hlock : a.trylock r x = .ok
    swap
    · obtain ⟨ret,q,heq,hq⟩ := ih (s := {s with retLock := a.trylock r x}) h hl.2 hn.2
      refine ⟨ret,q,?_,?_,hq.safe,hq.logged,hq.accounted,hq.within,fun hr y => ?_,fun hr => ?_⟩
      · rw [walk,if_pos hflag,if_pos hlock,heq]
      · rw [hq.ends,List.forall_mem_cons,and_iff_right fun _ h => absurd h hlock]
      · rw [hq.left hr,List.mem_cons]
        grind
      · rw [hq.locked hr,List.forall_mem_cons]
        exact iff_of_false (fun h => hlock h.1) fun h => hlock (h.2.1 hmark)
    obtain ⟨ret,e,heq,hback,hends,hok⟩ := backupAllocation_spec h hl.1 rfl
    by_cases hret : ret = .ok
    · subst hret
      obtain ⟨hin,hfill⟩ := hok rfl
      have hbackable : Backable a pool c x := hends.1 rfl
      have hxe : x ∈ e.pools pool.id := hback.pools.symm ▸ hl.1
      have hpools : (s.drop x e).core.pools pool.id = (s.core.pools pool.id).erase x :=
        congrArg (List.erase · x) hback.pools
      have hafter : ∀ y, y ∈ (s.drop x e).core.pools pool.id ↔
          y ≠ x ∧ y ∈ s.core.pools pool.id := by
        intro y
        rw [hpools,(s.core.poolNodup _).mem_erase_iff]
      obtain ⟨ret,q,hrun,hq⟩ := ih (s := s.drop x e) (hin.decouple hxe)
        (fun y hy => (hafter y).2 ⟨fun hyx => hn.1 (hyx ▸ hy),hl.2 hy⟩) hn.2
      have hlog : (x,e) ∈ q.decoupled := hq.logged (by simp [Progress.drop])
      refine ⟨ret,q,?_,?_,fun p hp => ?_,fun p hp => ?_,fun y hy => ?_,hq.within,
        fun hr y => ?_,fun hr => ?_⟩
      · rw [walk,if_pos hflag,if_neg (by simpa using hlock)]
        simp only [heq]
        exact hrun
      · rw [hq.ends,List.forall_mem_cons,and_iff_right fun _ _ => hbackable]
      · rcases hq.safe p hp with hmem' | hsafe
        · rcases List.mem_append.1 hmem' with hold | hnew
          · exact .inl hold
          · obtain rfl := List.mem_singleton.1 hnew
            refine .inr ?_
            have hxown := hin.own hmem
            unfold BackedUp
            simp only [hxown]
            by_cases hup : (c.allocation x).upToDate
            · exact .inr (hfill hup)
            · exact .inl (by simpa using hup)
        · exact .inr hsafe
      · exact hq.logged (List.mem_append_left _ hp)
      · by_cases hyx : y = x
        · exact .inr ⟨e,hyx ▸ hlog⟩
        · exact hq.accounted y ((hafter y).2 ⟨hyx,hy⟩)
      · rw [hq.left hr,hafter,List.mem_cons]
        grind
      · rw [hq.locked hr,List.forall_mem_cons,and_iff_right fun _ => hlock]
        rfl
    · refine ⟨ret,{s with core := e},?_,?_,fun p hp => .inl hp,List.Subset.refl _,
        fun y hy => .inl (hback.pools.symm ▸ hy),fun hr => absurd hr hret,
        fun hr => absurd hr hret,fun hr => absurd hr hret⟩
      · rw [walk,if_pos hflag,if_neg (by simpa using hlock)]
        simp only [heq]
      · exact iff_of_false hret fun hall => hret (hends.2 (hall x (.head _) hmark hlock))

structure Stage (a : Answers) (pool : CoreSurfacePool) (c : Core) (r : ℕ) (s : Progress) :
    Prop where
  within : Within a pool c s.core
  left : ∀ x, x ∈ s.core.pools pool.id ↔
    x ∈ c.pools pool.id ∧ ¬(Marked pool c x ∧ ∃ q < r, a.trylock q x = .ok)
  safe : ∀ e ∈ s.decoupled, BackedUp a pool c e.1 e.2
  accounted : ∀ x ∈ c.pools pool.id, x ∈ s.core.pools pool.id ∨ ∃ t, (x,t) ∈ s.decoupled
  locked : s.retLock = .ok ↔ (0 < r → ∀ x, Marked pool c x → a.trylock 0 x = .ok)
  backable : ∀ x, Marked pool c x → (∃ q < r, a.trylock q x = .ok) → Backable a pool c x

theorem stage_start : Stage a pool c 0 {core := c} where
  within := .start
  left := by simp
  safe := by simp
  accounted _ h := .inl h
  locked := by simp
  backable := by simp

variable {r : ℕ} {s : Progress}

theorem Stage.mem_marked (h : Stage a pool c r s) {x : ℕ} : x ∈ s.core.pools pool.id ∧
    Marked pool c x ↔ Marked pool c x ∧ ∀ q < r, a.trylock q x ≠ .ok := by
  rw [h.left]
  constructor
  · rintro ⟨⟨-,hnot⟩,hmark⟩
    exact ⟨hmark,fun q hq hok => hnot ⟨hmark,q,hq,hok⟩⟩
  · rintro ⟨hmark,hnot⟩
    exact ⟨⟨hmark.1,fun ⟨_,q,hq,hok⟩ => hnot q hq hok⟩,hmark⟩

theorem Stage.fullRound (h : Stage a pool c r s) :
    ∃ ret q, fullRound a pool r s = (ret,q) ∧ Walked a pool c r (s.core.pools pool.id) s ret q := by
  obtain ⟨ret,q,heq,hq⟩ := walk_spec (r := r) h.within (List.Subset.refl _) (s.core.poolNodup _)
  refine ⟨ret,q,?_,hq⟩
  rw [SurfacePool.fullRound,round_eq_walk h.within (by simp),List.drop_zero,heq]

theorem Stage.safe_walked (h : Stage a pool c r s) {ret : DFBResult} {q : Progress}
    (hq : Walked a pool c r (s.core.pools pool.id) s ret q) :
    ∀ e ∈ q.decoupled, BackedUp a pool c e.1 e.2 :=
  fun e he => (hq.safe e he).elim (h.safe e) id

theorem Stage.accounted_walked (h : Stage a pool c r s) {ret : DFBResult} {q : Progress}
    (hq : Walked a pool c r (s.core.pools pool.id) s ret q) :
    ∀ x ∈ c.pools pool.id, x ∈ q.core.pools pool.id ∨ ∃ t, (x,t) ∈ q.decoupled := by
  intro x hx
  rcases h.accounted x hx with hs | ⟨t,ht⟩
  · exact hq.accounted x hs
  · exact .inr ⟨t,hq.logged ht⟩

theorem Stage.next (h : Stage a pool c r s) {q : Progress}
    (hq : Walked a pool c r (s.core.pools pool.id) s .ok q) : Stage a pool c (r+1) q where
  within := hq.within rfl
  left x := by
    have hmark := h.mem_marked (x := x)
    rw [hq.left rfl,h.left]
    simp only [Nat.lt_succ_iff_lt_or_eq]
    grind
  safe := h.safe_walked hq
  accounted := h.accounted_walked hq
  locked := by
    rw [hq.locked rfl,h.locked]
    constructor
    · rintro ⟨hfirst,hround⟩ - x hx
      rcases Nat.eq_zero_or_pos r with rfl | hr
      · exact hround x ((h.mem_marked.2 ⟨hx,by simp⟩).1) hx
      · exact hfirst hr x hx
    · intro hall
      refine ⟨fun _ => hall (Nat.succ_pos r),fun x hx hmark => ?_⟩
      have hnot := (h.mem_marked.1 ⟨hx,hmark⟩).2
      rcases Nat.eq_zero_or_pos r with rfl | hr
      · exact hall Nat.one_pos x hmark
      · exact absurd (hall (Nat.succ_pos r) x hmark) (hnot 0 hr)
  backable x hx := by
    rintro ⟨k,hk,hok⟩
    by_cases hbefore : ∃ k < r, a.trylock k x = .ok
    · exact h.backable x hx hbefore
    · have hkr : k = r := by
        by_contra hne
        exact hbefore ⟨k,by omega,hok⟩
      have hleft := h.mem_marked.2 ⟨hx,fun k hk hok => hbefore ⟨k,hk,hok⟩⟩
      exact hq.ends.1 rfl x hleft.1 hx (hkr ▸ hok)

/-! ### A call -/

def before (a : Answers) (pool : CoreSurfacePool) (s : Progress) : ℕ → Option Progress
  | 0 => some s
  | r+1 => (before a pool s r).bind fun t =>
    match fullRound a pool r t with
    | (.ok,q) => if q.retLock ≠ .ok then some q else none
    | _ => none

def Settles (a : Answers) (pool : CoreSurfacePool) (r : ℕ) (t : Progress) : Prop :=
  (∀ x ∈ t.core.pools pool.id, (t.core.allocation x).muckOut → a.trylock r x = .ok) ∧
    (fullRound a pool r t).1 = .ok

/-- What the throwing out owes: nothing goes without a copy, no mark stays, and a round that
settles leads to the allocation that was asked for. -/
structure Honest (a : Answers) (pool : CoreSurfacePool) (c : Core) (b : ℕ) : Prop where
  backedUp : ∀ e ∈ (displace a pool c b).decoupled, BackedUp a pool c e.1 e.2
  cleared : ∀ x ∈ c.pools pool.id, (∀ t, (x,t) ∉ (displace a pool c b).decoupled) →
    ¬((displace a pool c b).core.allocation x).muckOut
  retried : a.prevail = .ok → a.muckOut = .ok →
    ∀ r ≤ 3, ∀ t, before a pool {core := c.mark pool.id a.marks} r = some t →
      Settles a pool r t → (displace a pool c b).requested

variable {b : ℕ}

/-- Without a lock error remembered, the next round leads to the allocation that was asked
for. -/
theorem rounds_requested (h : Stage a pool c r s) (k : ℕ) : (rounds a pool b k r s).requested ↔
      ∃ q, fullRound a pool r s = (.ok,q) ∧ q.retLock = .ok := by
  induction k generalizing r s with
  | zero =>
    obtain ⟨ret,q,heq,hq⟩ := h.fullRound
    rw [rounds,heq]
    cases ret with
    | ok => by_cases hlock : q.retLock = .ok <;> simp [hlock,errorCleanup]
    | _ => simp [errorCleanup]
  | succ k ih =>
    obtain ⟨ret,q,heq,hq⟩ := h.fullRound
    rw [rounds,heq]
    cases ret with
    | ok =>
      by_cases hlock : q.retLock = .ok
      · simp [hlock]
      · have hnext := h.next hq
        simp only [ne_eq,hlock,not_false_eq_true,if_true,ih hnext]
        refine iff_of_false ?_ (by simp [hlock])
        rintro ⟨u,hu,hfree⟩
        obtain ⟨ret,v,heq',hv⟩ := hnext.fullRound
        obtain ⟨rfl,rfl⟩ := Prod.mk.inj (heq'.symm.trans hu)
        exact hlock ((hv.locked rfl).1 hfree).1
    | _ => simp [errorCleanup]

/-- What a call owes whatever it comes to: copies of what it decoupled, and no marks. -/
structure Safe (a : Answers) (pool : CoreSurfacePool) (c : Core) (o : Outcome) : Prop where
  backedUp : ∀ e ∈ o.decoupled, BackedUp a pool c e.1 e.2
  cleared : ∀ x ∈ c.pools pool.id, (∀ t, (x,t) ∉ o.decoupled) → ¬(o.core.allocation x).muckOut

theorem errorCleanup_safe (ret : DFBResult)
    (hsafe : ∀ e ∈ s.decoupled, BackedUp a pool c e.1 e.2)
    (hleft : ∀ x ∈ c.pools pool.id, x ∈ s.core.pools pool.id ∨ ∃ t, (x,t) ∈ s.decoupled) :
    Safe a pool c (errorCleanup pool ret s) where
  backedUp := hsafe
  cleared x hx hlog := by
    have hmem := (hleft x hx).resolve_right fun ⟨t,ht⟩ => hlog t ht
    have hunmark : (s.core.unmark pool.id).allocation x =
        {s.core.allocation x with muckOut := false} := if_pos hmem
    simp [errorCleanup,hunmark]

/-- Without a lock error nothing marked is left for the allocation that was asked for. -/
theorem Stage.request_safe (h : Stage a pool c (r+1) s) (hlock : s.retLock = .ok)
    (ret : DFBResult) :
    Safe a pool c ⟨ret,(poolAllocate s.core b pool.id a.request).2,s.decoupled,true⟩ where
  backedUp := h.safe
  cleared x hx hlog := by
    have hmem := (h.accounted x hx).resolve_right fun ⟨t,ht⟩ => hlog t ht
    have hmark : ¬Marked pool c x := fun hm =>
      ((h.left x).1 hmem).2 ⟨hm,0,Nat.succ_pos r,h.locked.1 hlock (Nat.succ_pos r) x hm⟩
    have hsame : (poolAllocate s.core b pool.id a.request).2.allocation x = c.allocation x := by
      unfold poolAllocate
      split
      · exact (s.core.add_allocation b pool.id x (s.core.inPool _ x hmem).1).trans (h.within.own hx)
      · exact h.within.own hx
    change ¬((poolAllocate s.core b pool.id a.request).2.allocation x).muckOut
    rw [hsame]
    exact fun hm => hmark ⟨hx,hm⟩

theorem rounds_safe (h : Stage a pool c r s) (k : ℕ) : Safe a pool c (rounds a pool b k r s) := by
  induction k generalizing r s with
  | zero =>
    obtain ⟨ret,q,heq,hq⟩ := h.fullRound
    rw [rounds,heq]
    cases ret with
    | ok =>
      by_cases hlock : q.retLock = .ok
      · simpa [hlock] using (h.next hq).request_safe hlock _
      · simpa [hlock] using errorCleanup_safe .locked (h.next hq).safe (h.next hq).accounted
    | _ => exact errorCleanup_safe _ (h.safe_walked hq) (h.accounted_walked hq)
  | succ k ih =>
    obtain ⟨ret,q,heq,hq⟩ := h.fullRound
    rw [rounds,heq]
    cases ret with
    | ok =>
      by_cases hlock : q.retLock = .ok
      · simpa [hlock] using (h.next hq).request_safe hlock _
      · simpa [hlock] using ih (h.next hq)
    | _ => exact errorCleanup_safe _ (h.safe_walked hq) (h.accounted_walked hq)

/-! ### When a call is honest -/

/-- What is entered as a round is a stage, after a lock error in the first round. -/
theorem before_stage {t : Progress} (ht : before a pool {core := c} r = some t) :
    Stage a pool c r t ∧ (0 < r → t.retLock ≠ .ok) := by
  induction r generalizing t with
  | zero =>
    obtain rfl := Option.some.inj ht
    exact ⟨stage_start,fun h => absurd h (Nat.lt_irrefl 0)⟩
  | succ r ih =>
    obtain ⟨s,hs,hround⟩ := Option.bind_eq_some_iff.1 ht
    obtain ⟨ret,q,heq,hq⟩ := (ih hs).1.fullRound
    rw [heq] at hround
    cases ret with
    | ok =>
      by_cases hlock : q.retLock = .ok
      · simp [hlock] at hround
      · simp only [ne_eq,hlock,not_false_eq_true,if_true,Option.some.injEq] at hround
        exact hround ▸ ⟨(ih hs).1.next hq,fun _ => hlock⟩
    | _ => simp at hround

/-- If nothing marked fails to be backed up, a lock error in the first round leads from round
to round. -/
theorem before_enters (hfirst : ∃ x, Marked pool c x ∧ a.trylock 0 x ≠ .ok)
    (hback : ∀ x, Marked pool c x → Backable a pool c x) (r : ℕ) :
    ∃ t, before a pool {core := c} r = some t := by
  induction r with
  | zero => exact ⟨_,rfl⟩
  | succ r ih =>
    obtain ⟨s,hs⟩ := ih
    have hstage := (before_stage hs).1
    obtain ⟨ret,q,heq,hq⟩ := hstage.fullRound
    have hret : ret = .ok := hq.ends.2 fun x _ hmark _ => hback x hmark
    subst hret
    obtain ⟨x,hmark,hx⟩ := hfirst
    have hlock : q.retLock ≠ .ok := fun hok =>
      hx ((hstage.next hq).locked.1 hok (Nat.succ_pos r) x hmark)
    refine ⟨q,?_⟩
    rw [before,hs,Option.bind_some,heq]
    simp [hlock]

/-- A round settles if what could not be locked before can be now, and be backed up. -/
theorem Stage.settles (h : Stage a pool c r s) : Settles a pool r s ↔
    ∀ x, Marked pool c x → (∀ q < r, a.trylock q x ≠ .ok) →
      a.trylock r x = .ok ∧ Backable a pool c x := by
  obtain ⟨ret,q,heq,hq⟩ := h.fullRound
  have hleft : ∀ x, Marked pool c x → (∀ q < r, a.trylock q x ≠ .ok) →
      x ∈ s.core.pools pool.id ∧ (s.core.allocation x).muckOut := by
    intro x hx hbefore
    refine ⟨(h.mem_marked.2 ⟨hx,hbefore⟩).1,?_⟩
    rw [h.within.own hx.1]
    exact hx.2
  unfold Settles
  rw [heq]
  simp only [hq.ends]
  constructor
  · rintro ⟨hlock,hback⟩ x hx hbefore
    obtain ⟨hmem,hflag⟩ := hleft x hx hbefore
    have hok := hlock x hmem hflag
    exact ⟨hok,hback x hmem hx hok⟩
  · intro hall
    refine ⟨fun x hmem hflag => ?_,fun x hmem hx _ => ?_⟩
    · have hx : Marked pool c x := by
        have hc := h.within.pools hmem
        exact ⟨hc,h.within.own hc ▸ hflag⟩
      exact (hall x hx (h.mem_marked.1 ⟨hmem,hx⟩).2).1
    · exact (hall x hx (h.mem_marked.1 ⟨hmem,hx⟩).2).2

/-- The request is tried if everything is locked in the first round and backed up. -/
theorem requested_iff : (rounds a pool b 3 0 {core := c}).requested ↔
    ∀ x, Marked pool c x → a.trylock 0 x = .ok ∧ Backable a pool c x := by
  rw [rounds_requested stage_start]
  have hstart : Stage a pool c 0 {core := c} := stage_start
  obtain ⟨ret,q,heq,hq⟩ := hstart.fullRound
  constructor
  · rintro ⟨u,hu,hlock⟩ x hx
    obtain ⟨rfl,rfl⟩ := Prod.mk.inj (heq.symm.trans hu)
    have hok := ((hq.locked rfl).1 hlock).2 x hx.1 hx
    exact ⟨hok,hq.ends.1 rfl x hx.1 hx hok⟩
  · intro hall
    obtain rfl : ret = .ok := hq.ends.2 fun x _ hx _ => (hall x hx).2
    exact ⟨q,heq,(hq.locked rfl).2 ⟨rfl,fun x _ hx => (hall x hx).1⟩⟩

/-- Every round that settles leads to the request, unless the first one fails to lock something
and everything is locked and backed up in the end. -/
theorem retried_iff : (∀ k ≤ 3, ∀ t, before a pool {core := c} k = some t → Settles a pool k t →
      (rounds a pool b 3 0 {core := c}).requested) ↔
    (∀ x, Marked pool c x → a.trylock 0 x = .ok) ∨
    (∃ x, Marked pool c x ∧ ∀ q ≤ 3, a.trylock q x ≠ .ok) ∨
    ∃ x, Marked pool c x ∧ ¬Backable a pool c x := by
  constructor
  · intro h
    by_contra hnot
    simp only [not_or,not_forall,not_exists,not_and,not_not] at hnot
    obtain ⟨⟨x,hx,hfail⟩,hsoon,hback⟩ := hnot
    obtain ⟨t,ht⟩ := before_enters ⟨x,hx,hfail⟩ hback 3
    have hsettles : Settles a pool 3 t := by
      refine (before_stage ht).1.settles.2 fun y hy hbefore => ⟨?_,hback y hy⟩
      obtain ⟨q,hq,hok⟩ := hsoon y hy
      rcases hq.lt_or_eq with hlt | rfl
      · exact absurd hok (hbefore q hlt)
      · exact hok
    exact hfail (requested_iff.1 (h 3 le_rfl t ht hsettles) x hx).1
  · intro h k hk t ht hsettles
    obtain ⟨hstage,hlock⟩ := before_stage ht
    have hall := hstage.settles.1 hsettles
    -- what was locked in an earlier round was backed up there
    have hback : ∀ x, Marked pool c x → Backable a pool c x := by
      intro x hx
      by_cases hbefore : ∃ q < k, a.trylock q x = .ok
      · exact hstage.backable x hx hbefore
      · exact (hall x hx fun q hq hok => hbefore ⟨q,hq,hok⟩).2
    have hsoon : ∀ x, Marked pool c x → ∃ q ≤ 3, a.trylock q x = .ok := by
      intro x hx
      by_cases hbefore : ∃ q < k, a.trylock q x = .ok
      · obtain ⟨q,hq,hok⟩ := hbefore
        exact ⟨q,by omega,hok⟩
      · exact ⟨k,hk,(hall x hx fun q hq hok => hbefore ⟨q,hq,hok⟩).1⟩
    rcases h with hfirst | ⟨x,hx,hnever⟩ | ⟨x,hx,hnot⟩
    · exact requested_iff.2 fun x hx => ⟨hfirst x hx,hback x hx⟩
    · obtain ⟨q,hq,hok⟩ := hsoon x hx
      exact absurd hok (hnever q hq)
    · exact absurd (hback x hx) hnot

theorem filled_mark {marks : ℕ → Bool} {p y : ℕ} {d : Core} :
    Filled a pool (c.mark p marks) d b y ↔ Filled a pool c d b y := by
  have hup : ((c.mark p marks).allocation y).upToDate = (c.allocation y).upToDate := by
    change (if _ then _ else _ : CoreSurfaceAllocation).upToDate = _
    split <;> rfl
  unfold Filled
  rw [hup]
  rfl

theorem backedUp_mark {marks : ℕ → Bool} {p x : ℕ} {t : Core} :
    BackedUp a pool (c.mark p marks) x t ↔ BackedUp a pool c x t := by
  unfold BackedUp
  simp only [filled_mark]

/-- A call is honest but for marks that an early failure leaves standing, and for a lock that
fails at first where everything could be locked and backed up in a later round. -/
theorem displace_honest_iff (a : Answers) (pool : CoreSurfacePool) (c : Core) (b : ℕ) :
    Honest a pool c b ↔ (a.prevail ≠ .ok → ∀ x, ¬Marked pool c x) ∧
      (a.prevail = .ok → a.muckOut ≠ .ok → ∀ x, ¬Marked pool (c.mark pool.id a.marks) x) ∧
      (a.prevail = .ok → a.muckOut = .ok →
        (∀ x, Marked pool (c.mark pool.id a.marks) x → a.trylock 0 x = .ok) ∨
        (∃ x, Marked pool (c.mark pool.id a.marks) x ∧ ∀ q ≤ 3, a.trylock q x ≠ .ok) ∨
        ∃ x, Marked pool (c.mark pool.id a.marks) x ∧
          ¬Backable a pool (c.mark pool.id a.marks) x) := by
  by_cases hlock : a.prevail = .ok
  swap
  · have hrun : displace a pool c b = ⟨.fusion,c,[],false⟩ := if_pos hlock
    constructor
    · intro h
      refine ⟨fun _ x hx => ?_,fun h' => absurd h' hlock,fun h' => absurd h' hlock⟩
      exact h.cleared x hx.1 (by simp [hrun]) (by rw [hrun]; exact hx.2)
    · rintro ⟨hnone,-,-⟩
      refine ⟨by simp [hrun],fun x hx _ => ?_,fun h' => absurd h' hlock⟩
      rw [hrun]
      exact fun hm => hnone hlock x ⟨hx,hm⟩
  by_cases hmuck : a.muckOut = .ok
  swap
  · have hrun : displace a pool c b = ⟨a.muckOut,c.mark pool.id a.marks,[],false⟩ := by
      rw [displace,if_neg (by simpa using hlock),if_pos hmuck]
    constructor
    · intro h
      refine ⟨fun h' => absurd hlock h',fun _ _ x hx => ?_,fun _ h' => absurd h' hmuck⟩
      exact h.cleared x hx.1 (by simp [hrun]) (by rw [hrun]; exact hx.2)
    · rintro ⟨-,hnone,-⟩
      refine ⟨by simp [hrun],fun x hx _ => ?_,fun _ h' => absurd h' hmuck⟩
      rw [hrun]
      exact fun hm => hnone hlock hmuck x ⟨hx,hm⟩
  have hrun : displace a pool c b = rounds a pool b 3 0 {core := c.mark pool.id a.marks} := by
    rw [displace,if_neg (by simpa using hlock),if_neg (by simpa using hmuck)]
  have hstart : Stage a pool (c.mark pool.id a.marks) 0 {core := c.mark pool.id a.marks} :=
    stage_start
  obtain ⟨hsafe,hclear⟩ := rounds_safe (b := b) hstart 3
  rw [← retried_iff (b := b)]
  constructor
  · intro h
    refine ⟨fun h' => absurd hlock h',fun _ h' => absurd hmuck h',fun _ _ k hk t ht hsettles => ?_⟩
    exact hrun ▸ h.retried hlock hmuck k hk t ht hsettles
  · rintro ⟨-,-,h⟩
    refine ⟨fun e he => ?_,?_,fun _ _ k hk t ht hsettles => ?_⟩
    · exact backedUp_mark.1 (hsafe e (hrun ▸ he))
    · rw [hrun]
      exact hclear
    · rw [hrun]
      exact h hlock hmuck k hk t ht hsettles

end Rounds

def videoPool : CoreSurfacePool := ⟨1,[0],by decide,by decide⟩

def filledVideo : Core where
  allocation _ := {buffer := 0, pool := 1, upToDate := true}
  fresh := 1
  pools p := if p = 1 then [0] else []
  buffers b := if b = 0 then [0] else []
  inPool p x hx := by grind
  inBuffer b x hx := by grind
  poolNodup p := by grind
  bufferNodup b := by grind

def busyAtFirst : Answers where
  prevail := .ok
  muckOut := .ok
  marks _ := true
  trylock r _ := if r = 0 then .error 1 else .ok
  transfer _ := .ok
  allocate _ _ := .ok
  transferNew _ _ := .ok
  request := .ok

/-- The second round backs everything up and makes the room, and the call still ends locked. -/
theorem locked_after_all : ¬Honest busyAtFirst videoPool filledVideo 5 ∧
    (displace busyAtFirst videoPool filledVideo 5).ret = .locked ∧
    (displace busyAtFirst videoPool filledVideo 5).core.pools 1 = [] := by
  refine ⟨fun h => ?_,by decide,by decide⟩
  have hrequested := h.retried rfl rfl 1 (by decide) _ rfl ⟨fun _ _ _ => rfl,by decide⟩
  exact absurd hrequested (by decide)

end DirectFB.SurfacePool
