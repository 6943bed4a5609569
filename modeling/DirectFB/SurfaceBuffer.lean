import DirectFB.DirectSerial
import DirectFB.Reaches
import DirectFB.Types

/-! The allocations of a surface buffer. Serials tell which of them hold what was
written last, and the others are brought up to date before they are accessed. -/
namespace DirectFB
namespace SurfaceBuffer
open Transition

/-- What a `CoreSurfacePool` supports: the access of each accessor, and `CSPCAPS_READ`
and `CSPCAPS_WRITE`. -/
structure Pool where
  access : ℕ → CoreSurfaceAccessFlags
  capsRead : Bool
  capsWrite : Bool

/-- The flags `CSALF_VOLATILE`, `CSALF_PREALLOCATED` and `CSALF_MUCKOUT`. -/
structure AllocationFlags where
  volatile : Bool := false
  preallocated : Bool := false
  muckout : Bool := false

def AllocationFlags.spendable (flags : AllocationFlags) : Bool :=
  !(flags.preallocated || flags.muckout)

/-- `content` is not in the source: the number of the write whose content the
allocation holds, `none` if it is no write's. -/
structure Allocation where
  serial : DirectSerial
  pool : Pool
  flags : AllocationFlags
  content : Option ℕ

/-- `staticAlloc` stands for `CSTF_PREALLOCATED` with `DSCAPS_STATIC_ALLOC`; `writes`
is not in the source and counts the writes completed. -/
structure Buffer where
  serial : DirectSerial
  allocation : ℕ → Allocation
  nextAllocation : ℕ
  allocs : List ℕ
  written : Option ℕ
  read : Option ℕ
  staticAlloc : Bool
  identity : ℕ
  destroyed : Bool
  surface : Bool
  writes : ℕ

/-- How the pools, bridges and locks called by one access turn out. A transfer that
failed may have spoiled its target. -/
structure Outcome where
  allocate : Except DirectResult (Pool × AllocationFlags) := .error .failure
  bridges : DirectResult := .ok
  fallback : DirectResult := .ok
  spoiled : Bool := false
  prelock : DirectResult := .ok

def setSerial (s : Buffer) (a : ℕ) (serial : DirectSerial) : Buffer :=
  {s with allocation := Function.update s.allocation a {s.allocation a with serial := serial}}

def setContent (s : Buffer) (a : ℕ) (content : Option ℕ) : Buffer :=
  {s with allocation := Function.update s.allocation a {s.allocation a with content := content}}

/-- `direct_serial_check` of an allocation against the buffer. -/
def UpToDate (s : Buffer) (a : ℕ) : Prop :=
  DirectSerial.check (s.allocation a).serial s.serial = true

instance (s : Buffer) (a : ℕ) : Decidable (UpToDate s a) := inferInstanceAs (Decidable (_ = true))

/-- The loop of `dfb_surface_buffer_find_allocation`, with what it remembers. -/
def findLoop (s : Buffer) (caller accessor : ℕ) (flags : CoreSurfaceAccessFlags) (lock : Bool) :
    List ℕ → Option ℕ → Option ℕ → Option ℕ
  | [], uptodate, outdated => if lock then outdated else uptodate.or outdated
  | a::allocs, uptodate, outdated =>
    let access := (s.allocation a).pool.access accessor
    if lock ∧ (s.allocation a).flags.preallocated ∧ ¬access.shared ∧ s.identity ≠ caller then
      findLoop s caller accessor flags lock allocs uptodate outdated
    else if UpToDate s a then
      if access.areSet flags then some a
      else findLoop s caller accessor flags lock allocs (some a) outdated
    else if access.areSet flags then
      findLoop s caller accessor flags lock allocs uptodate (some a)
    else findLoop s caller accessor flags lock allocs uptodate outdated

def findStatic (s : Buffer) (caller accessor : ℕ) (flags : CoreSurfaceAccessFlags) : Option ℕ :=
  if s.staticAlloc ∧ s.identity = caller then
    s.allocs.head?.filter fun a => ((s.allocation a).pool.access accessor).areSet flags
  else none

/-- `dfb_surface_buffer_find_allocation`, called from the process `caller`. -/
def findAllocation (s : Buffer) (caller accessor : ℕ) (flags : CoreSurfaceAccessFlags)
    (lock : Bool) : Option ℕ :=
  match findStatic s caller accessor flags with
  | some a => some a
  | none => findLoop s caller accessor flags lock s.allocs none none

/-- `dfb_surface_allocation_decouple`. -/
def decouple (s : Buffer) (a : ℕ) : Buffer :=
  let allocs := s.allocs.erase a
  {s with
    allocs := allocs
    read := if s.read = some a then none else s.read
    written :=
      if s.written = some a then allocs.find? fun b => UpToDate s b
      else s.written}

/-- Decouples each allocation other than `a` that is to be zapped. -/
def zap (s : Buffer) (a : ℕ) (p : AllocationFlags → Bool) : Buffer :=
  (s.allocs.filter fun b => b ≠ a && p (s.allocation b).flags).foldl decouple s

def transfer (source target : Pool) (o : Outcome) : DirectResult :=
  if o.bridges = .ok then .ok
  else if (source.access csaidCPU).read ∧ (target.access csaidCPU).write then o.fallback
  else if (source.access csaidCPU).read then o.fallback
  else if (target.access csaidCPU).write then o.fallback
  else .unsupported

/-- The part of `dfb_surface_allocation_update` that brings an allocation up to date. -/
def synchronize (s : Buffer) (a : ℕ) (o : Outcome) : DirectResult × Buffer :=
  match DirectSerial.update (s.allocation a).serial s.serial, s.written with
  | (true,serial), some source =>
    let s' := setSerial s a serial
    match transfer (s.allocation source).pool (s.allocation a).pool o with
    | .ok => (.ok,setContent s' a (s.allocation source).content)
    | ret => (ret,if o.spoiled then setContent s' a none else s')
  | (_,serial), _ => (.ok,setSerial s a serial)

/-- The part of `dfb_surface_allocation_update` that notes which access is next. -/
def account (s : Buffer) (a : ℕ) (access : CoreSurfaceAccessFlags) : Buffer :=
  if access.write then
    let serial := s.serial.increase
    let s := {setSerial s a ((s.allocation a).serial.copy serial) with
      serial := serial
      written := some a
      read := none}
    zap s a AllocationFlags.volatile
  else {s with read := some a}

def setLast (s : Buffer) (a : ℕ) : Buffer :=
  {s with
    written := some a
    read := some a}

/-- `dfb_surface_allocation_update` under `thrifty_surface_buffers` or not. -/
def allocationUpdate (thrifty : Bool) (s : Buffer) (a : ℕ) (access : CoreSurfaceAccessFlags)
    (o : Outcome) : DirectResult × Buffer :=
  match synchronize s a o with
  | (.ok,s) =>
    let s := account s a access
    if thrifty then (.ok,zap (setLast s a) a AllocationFlags.spendable)
    else (.ok,s)
  | (ret,s) => (ret,s)

/-- `dfb_surface_pool_allocate`, when the pool has found the memory. -/
def poolAllocate (s : Buffer) (pool : Pool) (flags : AllocationFlags) : Buffer :=
  {s with
    allocation := Function.update s.allocation s.nextAllocation ⟨.init,pool,flags,none⟩
    nextAllocation := s.nextAllocation+1
    allocs := s.allocs++[s.nextAllocation]}

/-- `dfb_surface_pools_allocate`, up to the choice of the pool. -/
def poolsAllocate (accessor : ℕ) (access : CoreSurfaceAccessFlags) (o : Outcome) :
    Except DirectResult (Pool × AllocationFlags) :=
  if csaidAny ≤ accessor then .error .unimplemented
  else if csaidNum ≤ accessor then .error .invArg
  else o.allocate.bind fun x =>
    if (x.1.access accessor).areSet access then .ok x else .error .unsupported

/-- What follows the choice of the allocation, which is destroyed on an error if it is new. -/
def preAccess (thrifty : Bool) (s : Buffer) (a : ℕ) (allocated : Bool)
    (access : CoreSurfaceAccessFlags) (lock : Pool → Bool) (o : Outcome) :
    Except DirectResult ℕ × Buffer :=
  let out (ret : DirectResult) (s : Buffer) := (.error ret,if allocated then decouple s a else s)
  match allocationUpdate thrifty s a access o with
  | (.ok,s) =>
    if lock (s.allocation a).pool ∧ o.prelock ≠ .ok then out o.prelock s else (.ok a,s)
  | (ret,s) => out ret s

/-- The common course of the three calls below, which differ in the allocation they
look for and in the pools they lock. -/
def preBuffer (thrifty : Bool) (s : Buffer) (found : Option ℕ) (accessor : ℕ)
    (access : CoreSurfaceAccessFlags) (lock : Pool → Bool) (o : Outcome) :
    Except DirectResult ℕ × Buffer :=
  if s.destroyed then (.error .destroyed,s)
  else if !s.surface then (.error .bufferEmpty,s)
  else match found with
  | some a => preAccess thrifty s a false access lock o
  | none =>
    match poolsAllocate accessor access o with
    | .error ret => (.error ret,s)
    | .ok (pool,flags) =>
      preAccess thrifty (poolAllocate s pool flags) s.nextAllocation true access lock o

def lastUsed (s : Buffer) (last : Option ℕ) : Option ℕ := last.filter fun a => UpToDate s a

/-- `ISurface_Real::PreLockBuffer`. -/
def preLockBuffer (thrifty : Bool) (s : Buffer) (caller accessor : ℕ)
    (access : CoreSurfaceAccessFlags) (o : Outcome) : Except DirectResult ℕ × Buffer :=
  preBuffer thrifty s (findAllocation s caller accessor access true) accessor access
    (fun _ => true) o

/-- `ISurface_Real::PreReadBuffer`. -/
def preReadBuffer (thrifty : Bool) (s : Buffer) (caller : ℕ) (o : Outcome) :
    Except DirectResult ℕ × Buffer :=
  preBuffer thrifty s
    ((lastUsed s s.written).or (findAllocation s caller csaidCPU {read := true} false))
    csaidCPU {read := true} (fun pool => !pool.capsRead) o

/-- `ISurface_Real::PreWriteBuffer`. -/
def preWriteBuffer (thrifty : Bool) (s : Buffer) (caller : ℕ) (o : Outcome) :
    Except DirectResult ℕ × Buffer :=
  preBuffer thrifty s
    ((lastUsed s s.read).or (findAllocation s caller csaidCPU {write := true} false))
    csaidCPU {write := true} (fun pool => !pool.capsWrite) o

/-- What is called for a buffer, from any process and with the surface locked. -/
inductive Event
  | preLock (caller accessor : ℕ) (access : CoreSurfaceAccessFlags) (o : Outcome)
  | preRead (caller : ℕ) (o : Outcome)
  | preWrite (caller : ℕ) (o : Outcome)
  | update (a : ℕ) (access : CoreSurfaceAccessFlags) (o : Outcome)
  | decouple (a : ℕ)

def Event.access : Event → CoreSurfaceAccessFlags
  | .preLock _ _ access _ => access
  | .preRead _ _ => {read := true}
  | .preWrite _ _ => {write := true}
  | .update _ access _ => access
  | .decouple _ => {}

/-- The allocation that a call gives access to, or else its error, and the buffer it leaves.
Only an allocation of the buffer can be updated or decoupled. -/
def call (thrifty : Bool) (s : Buffer) : Event → Option (Except DirectResult (Option ℕ) × Buffer)
  | .preLock caller accessor access o =>
    let r := preLockBuffer thrifty s caller accessor access o
    some (r.1.map some,r.2)
  | .preRead caller o =>
    let r := preReadBuffer thrifty s caller o
    some (r.1.map some,r.2)
  | .preWrite caller o =>
    let r := preWriteBuffer thrifty s caller o
    some (r.1.map some,r.2)
  | .update a access o =>
    if a ∈ s.allocs then
      let r := allocationUpdate thrifty s a access o
      some (if r.1 = .ok then .ok (some a) else .error r.1,r.2)
    else none
  | .decouple a => if a ∈ s.allocs then some (.ok none,decouple s a) else none

def completeWrite (s : Buffer) (a : ℕ) : Buffer :=
  {setContent s a (some (s.writes+1)) with writes := s.writes+1}

def complete (e : Event) : Except DirectResult (Option ℕ) × Buffer → Buffer
  | (.ok (some a),s) => if e.access.write then completeWrite s a else s
  | (_,s) => s

def step (thrifty : Bool) (s : Buffer) (e : Event) : Option Buffer :=
  (call thrifty s e).map (complete e)

/-- The buffer as `dfb_surface_buffer_create` has initialised it. -/
def initial (pool : Pool) (staticAlloc : Bool) (identity : ℕ) (destroyed surface : Bool) :
    Buffer where
  serial := DirectSerial.init.increase
  allocation _ := ⟨.init,pool,{},none⟩
  nextAllocation := 0
  allocs := []
  written := none
  read := none
  staticAlloc := staticAlloc
  identity := identity
  destroyed := destroyed
  surface := surface
  writes := 0

/-- `dfb_surface_buffer_create`, which writes to the allocation of a preallocated surface. -/
inductive Created (thrifty : Bool) : Buffer → Prop
  | empty (pool : Pool) (identity : ℕ) (destroyed surface : Bool) :
      Created thrifty (initial pool false identity destroyed surface)
  | preallocated (pool : Pool) (staticAlloc : Bool) (identity : ℕ) (destroyed surface : Bool)
      (flags : AllocationFlags) (o : Outcome) :
      Created thrifty (completeWrite (allocationUpdate thrifty
        (poolAllocate (initial pool staticAlloc identity destroyed surface) pool flags) 0
        {write := true} o).2 0)

def Holds (s : Buffer) (a : ℕ) : Prop := (s.allocation a).content = some s.writes

instance (s : Buffer) (a : ℕ) : Decidable (Holds s a) := inferInstanceAs (Decidable (_ = _))

def Intact (s : Buffer) : Prop := ∃ a ∈ s.allocs, Holds s a

def Transferred (s : Buffer) (pool : Pool) (o : Outcome) : Prop :=
  ∀ w, s.written = some w → transfer (s.allocation w).pool pool o = .ok

def UpdateSafe (s : Buffer) (a : ℕ) (access : CoreSurfaceAccessFlags) (o : Outcome) : Prop :=
  (¬UpToDate s a → Transferred s (s.allocation a).pool o ∨ (Holds s a ∧ o.spoiled = false) ∨
    ∀ b ∈ s.allocs, Holds s b → b = a) ∧
  (access.write → s.serial.count+1 < 2^96)

def DecoupleSafe (s : Buffer) (a : ℕ) : Prop :=
  s.written = some a → (∃ b ∈ s.allocs, b ≠ a ∧ Holds s b) → ∃ b ∈ s.allocs, b ≠ a ∧ UpToDate s b

def Survives (thrifty : Bool) (access : CoreSurfaceAccessFlags) (flags : AllocationFlags) : Prop :=
  (access.write → flags.volatile = false) ∧ (thrifty → flags.preallocated ∨ flags.muckout)

def PrelockSafe (thrifty : Bool) (s : Buffer) (access : CoreSurfaceAccessFlags) : Prop :=
  (∃ b ∈ s.allocs, Survives thrifty access (s.allocation b).flags ∧ Holds s b) →
    access.write = false ∧
    (thrifty → ∃ b ∈ s.allocs, Survives thrifty access (s.allocation b).flags ∧ UpToDate s b)

def AccessSafe (thrifty : Bool) (s : Buffer) (found : Option ℕ) (accessor : ℕ)
    (access : CoreSurfaceAccessFlags) (lock : Pool → Bool) (o : Outcome) : Prop :=
  s.destroyed = false → s.surface = true →
  match found with
  | some a => UpdateSafe s a access o
  | none => ∀ pool flags, poolsAllocate accessor access o = .ok (pool,flags) →
    Transferred s pool o → (access.write → s.serial.count+1 < 2^96) ∧
      (lock pool → o.prelock ≠ .ok → PrelockSafe thrifty s access)

/-- The branches that break the coherence of a buffer are not taken. -/
def Meets (thrifty : Bool) (s : Buffer) : Event → Prop
  | .preLock caller accessor access o =>
    AccessSafe thrifty s (findAllocation s caller accessor access true) accessor access
      (fun _ => true) o
  | .preRead caller o =>
    AccessSafe thrifty s
      ((lastUsed s s.written).or (findAllocation s caller csaidCPU {read := true} false))
      csaidCPU {read := true} (fun pool => !pool.capsRead) o
  | .preWrite caller o =>
    AccessSafe thrifty s
      ((lastUsed s s.read).or (findAllocation s caller csaidCPU {write := true} false))
      csaidCPU {write := true} (fun pool => !pool.capsWrite) o
  | .update a access o => UpdateSafe s a access o
  | .decouple a => DecoupleSafe s a

/-- What the serials and the pointers of a buffer say, and that it is true as long as
the last written content exists. -/
structure Inv (s : Buffer) : Prop where
  nodup : s.allocs.Nodup
  below : ∀ a ∈ s.allocs, a < s.nextAllocation
  positive : 0 < s.serial.count
  behind : ∀ a ∈ s.allocs, (s.allocation a).serial.count ≤ s.serial.count
  written : ∀ w, s.written = some w → w ∈ s.allocs ∧ UpToDate s w
  read : ∀ r, s.read = some r → r ∈ s.allocs
  coherent : Intact s → ∀ a ∈ s.allocs, UpToDate s a → Holds s a
  writer : Intact s → s.written ≠ none

theorem upToDate_iff (s : Buffer) (a : ℕ) :
    UpToDate s a ↔ s.serial.count ≤ (s.allocation a).serial.count :=
  DirectSerial.check_iff _ _

section Decouple

@[simp] theorem decouple_allocation (s : Buffer) (a : ℕ) :
    (decouple s a).allocation = s.allocation := rfl

@[simp] theorem decouple_serial (s : Buffer) (a : ℕ) : (decouple s a).serial = s.serial := rfl

@[simp] theorem decouple_writes (s : Buffer) (a : ℕ) : (decouple s a).writes = s.writes := rfl

@[simp] theorem decouple_allocs (s : Buffer) (a : ℕ) :
    (decouple s a).allocs = s.allocs.erase a := rfl

theorem decouple_written {s : Buffer} {a : ℕ} (h : s.written ≠ some a) :
    (decouple s a).written = s.written := by
  simp [decouple,h]

@[simp] theorem upToDate_decouple (s : Buffer) (a b : ℕ) :
    UpToDate (decouple s a) b ↔ UpToDate s b := Iff.rfl

theorem intact_of_decouple {s : Buffer} {a : ℕ} (h : Intact (decouple s a)) : Intact s := by
  obtain ⟨b,hb,hh⟩ := h
  exact ⟨b,List.mem_of_mem_erase hb,hh⟩

theorem Inv.decouple {s : Buffer} (h : Inv s) {a : ℕ} (hs : DecoupleSafe s a) :
    Inv (decouple s a) := by
  have hmem : ∀ b ∈ s.allocs.erase a, b ≠ a ∧ b ∈ s.allocs := fun b hb =>
    (h.nodup.mem_erase_iff).mp hb
  refine ⟨h.nodup.erase a,fun b hb => h.below b (hmem b hb).2,h.positive,
    fun b hb => h.behind b (hmem b hb).2,?_,?_,?_,?_⟩
  · intro w hw
    by_cases hwa : s.written = some a
    · simp only [SurfaceBuffer.decouple,hwa,if_true] at hw
      exact ⟨List.mem_of_find?_eq_some hw,by simpa using List.find?_some hw⟩
    · rw [decouple_written hwa] at hw
      have hne : w ≠ a := fun he => hwa (he ▸ hw)
      exact ⟨(List.mem_erase_of_ne hne).mpr (h.written w hw).1,(h.written w hw).2⟩
  · intro r hr
    simp only [SurfaceBuffer.decouple] at hr
    split_ifs at hr with hra
    have hne : r ≠ a := fun he => hra (he ▸ hr)
    exact (List.mem_erase_of_ne hne).mpr (h.read r hr)
  · intro hi b hb hu
    exact h.coherent (intact_of_decouple hi) b (hmem b hb).2 hu
  · intro hi
    by_cases hwa : s.written = some a
    · obtain ⟨b,hb,hh⟩ := hi
      obtain ⟨c,hc,hne,hu⟩ := hs hwa ⟨b,(hmem b hb).2,(hmem b hb).1,hh⟩
      simp only [SurfaceBuffer.decouple,hwa,if_true]
      intro hnone
      have := List.find?_eq_none.mp hnone c ((List.mem_erase_of_ne hne).mpr hc)
      simp [hu] at this
    · rw [decouple_written hwa]
      exact h.writer (intact_of_decouple hi)

end Decouple

section Zap

@[simp] theorem zap_allocation (s : Buffer) (a : ℕ) (p : AllocationFlags → Bool) :
    (zap s a p).allocation = s.allocation := foldl_keeps _ decouple_allocation _ _

@[simp] theorem zap_serial (s : Buffer) (a : ℕ) (p : AllocationFlags → Bool) :
    (zap s a p).serial = s.serial := foldl_keeps _ decouple_serial _ _

@[simp] theorem zap_writes (s : Buffer) (a : ℕ) (p : AllocationFlags → Bool) :
    (zap s a p).writes = s.writes := foldl_keeps _ decouple_writes _ _

theorem mem_zap {s : Buffer} (h : s.allocs.Nodup) (a b : ℕ) (p : AllocationFlags → Bool) :
    b ∈ (zap s a p).allocs ↔ b ∈ s.allocs ∧ (b = a ∨ p (s.allocation b).flags = false) := by
  have hdiff : ∀ (l : List ℕ) (t : Buffer), (l.foldl decouple t).allocs = t.allocs.diff l := by
    intro l
    induction l with
    | nil => intro t; rfl
    | cons c l ih => intro t; rw [List.foldl_cons,ih,decouple_allocs,List.diff_cons]
  rw [zap,hdiff,h.mem_sdiff_iff,List.mem_filter]
  by_cases hba : b = a <;> by_cases hp : p (s.allocation b).flags <;> simp [hba,hp]

theorem foldl_decouple_inv {a : ℕ} {l : List ℕ} (ha : a ∉ l) {s : Buffer} (h : Inv s)
    (hw : s.written = some a) :
    Inv (l.foldl decouple s) ∧ (l.foldl decouple s).written = some a := by
  induction l generalizing s with
  | nil => exact ⟨h,hw⟩
  | cons b l ih =>
    have hba : s.written ≠ some b := by
      rw [hw]
      exact fun he => ha (by simp [Option.some.inj he])
    exact ih (fun hmem => ha (List.mem_cons_of_mem _ hmem))
      (h.decouple fun he => absurd he hba) ((decouple_written hba).trans hw)

theorem Inv.zap {s : Buffer} (h : Inv s) {a : ℕ} (hw : s.written = some a)
    (p : AllocationFlags → Bool) : Inv (zap s a p) ∧ (zap s a p).written = some a :=
  foldl_decouple_inv (by simp) h hw

end Zap

section Update

def refreshed (s : Buffer) (a : ℕ) (content : Option ℕ) : Buffer :=
  setContent (setSerial s a s.serial) a content

theorem refreshed_allocation (s : Buffer) (a b : ℕ) (content : Option ℕ) :
    (refreshed s a content).allocation b =
      if b = a then {s.allocation a with
        serial := s.serial
        content := content}
      else s.allocation b := by
  by_cases hb : b = a <;> simp [refreshed,setContent,setSerial,hb]

theorem upToDate_refreshed (s : Buffer) (a b : ℕ) (content : Option ℕ) :
    UpToDate (refreshed s a content) b ↔ b = a ∨ UpToDate s b := by
  rw [upToDate_iff,upToDate_iff,refreshed_allocation]
  split_ifs with hb
  · simp [hb,refreshed,setContent,setSerial]
  · simp [hb,refreshed,setContent,setSerial]

theorem holds_refreshed (s : Buffer) (a b : ℕ) (content : Option ℕ) :
    Holds (refreshed s a content) b ↔ if b = a then content = some s.writes else Holds s b := by
  simp only [Holds,refreshed_allocation]
  split_ifs <;> rfl

variable {a : ℕ}

/-- It is the new content that has to be right. -/
theorem Inv.refreshed {s : Buffer} (h : Inv s) {content : Option ℕ}
    (hc : Intact (refreshed s a content) → content = some s.writes ∧ Intact s) :
    Inv (refreshed s a content) := by
  refine ⟨h.nodup,h.below,h.positive,?_,?_,h.read,?_,fun hi => h.writer (hc hi).2⟩
  · intro b hb
    rw [refreshed_allocation]
    split_ifs
    · exact le_rfl
    · exact h.behind b hb
  · intro w hw
    exact ⟨(h.written w hw).1,(upToDate_refreshed ..).mpr (.inr (h.written w hw).2)⟩
  · intro hi b hb hu
    obtain ⟨hcontent,hint⟩ := hc hi
    rw [holds_refreshed]
    split_ifs with hba
    · exact hcontent
    · exact h.coherent hint b hb (((upToDate_refreshed ..).mp hu).resolve_left hba)

/-- All that bringing an allocation up to date can do. -/
theorem synchronize_cases (s : Buffer) (a : ℕ) (o : Outcome) :
    (UpToDate s a ∧ synchronize s a o = (.ok,s)) ∨
    (¬UpToDate s a ∧ s.written = none ∧
      synchronize s a o = (.ok,refreshed s a (s.allocation a).content)) ∨
    (∃ w, ¬UpToDate s a ∧ s.written = some w ∧
      transfer (s.allocation w).pool (s.allocation a).pool o = .ok ∧
      synchronize s a o = (.ok,refreshed s a (s.allocation w).content)) ∨
    ∃ w ret, ¬UpToDate s a ∧ s.written = some w ∧
      transfer (s.allocation w).pool (s.allocation a).pool o = ret ∧ ret ≠ .ok ∧
      synchronize s a o =
        (ret,refreshed s a (if o.spoiled then none else (s.allocation a).content)) := by
  have hupdate := DirectSerial.update_eq (s.allocation a).serial s.serial
  by_cases hu : UpToDate s a
  · rw [if_pos (by exact hu)] at hupdate
    refine .inl ⟨hu,?_⟩
    simp [synchronize,hupdate,setSerial]
  · rw [if_neg (by exact hu)] at hupdate
    cases hw : s.written with
    | none =>
      refine .inr (.inl ⟨hu,rfl,?_⟩)
      simp [synchronize,hupdate,hw,refreshed,setContent,setSerial]
    | some w =>
      by_cases ht : transfer (s.allocation w).pool (s.allocation a).pool o = .ok
      · exact .inr (.inr (.inl ⟨w,hu,rfl,ht,by simp [synchronize,hupdate,hw,ht,refreshed]⟩))
      · refine .inr (.inr (.inr ⟨w,_,hu,rfl,rfl,ht,?_⟩))
        cases hspoiled : o.spoiled <;>
          simp [synchronize,hupdate,hw,refreshed,hspoiled,setContent,setSerial]

/-- Bringing up to date is about one allocation, and about its serial and content. -/
theorem synchronize_frame (s : Buffer) (a : ℕ) (o : Outcome) :
    ∃ t, (synchronize s a o).2 = t ∧ t.serial = s.serial ∧ t.allocs = s.allocs ∧
      t.written = s.written ∧ t.read = s.read ∧ t.writes = s.writes ∧
      t.nextAllocation = s.nextAllocation ∧ (∀ b ≠ a, t.allocation b = s.allocation b) ∧
      (t.allocation a).flags = (s.allocation a).flags ∧
      (t.allocation a).pool = (s.allocation a).pool := by
  have hframe : ∀ content, (∀ b ≠ a, (refreshed s a content).allocation b = s.allocation b) ∧
      ((refreshed s a content).allocation a).flags = (s.allocation a).flags ∧
      ((refreshed s a content).allocation a).pool = (s.allocation a).pool := by
    intro content
    refine ⟨fun b hb => ?_,?_,?_⟩ <;> rw [refreshed_allocation]
    · rw [if_neg hb]
    · rw [if_pos rfl]
    · rw [if_pos rfl]
  obtain ⟨-,hs⟩ | ⟨-,-,hs⟩ | ⟨w,-,-,-,hs⟩ | ⟨w,ret,-,-,-,-,hs⟩ := synchronize_cases s a o
  · exact ⟨_,rfl,by simp [hs]⟩
  all_goals exact ⟨_,rfl,by rw [hs]; exact ⟨rfl,rfl,rfl,rfl,rfl,rfl,hframe _⟩⟩

theorem Inv.holds_synchronize {s : Buffer} (h : Inv s) (ha : a ∈ s.allocs) {o : Outcome}
    (hok : (synchronize s a o).1 = .ok) :
    UpToDate (synchronize s a o).2 a ∧ (Intact s → Holds (synchronize s a o).2 a) := by
  obtain ⟨hu,hs⟩ | ⟨-,hw,hs⟩ | ⟨w,-,hw,-,hs⟩ | ⟨w,ret,-,-,-,hret,hs⟩ := synchronize_cases s a o
  · rw [hs]
    exact ⟨hu,fun hi => h.coherent hi a ha hu⟩
  · rw [hs]
    exact ⟨(upToDate_refreshed ..).mpr (.inl rfl),fun hi => absurd hw (h.writer hi)⟩
  · rw [hs]
    refine ⟨(upToDate_refreshed ..).mpr (.inl rfl),fun hi => ?_⟩
    rw [holds_refreshed,if_pos rfl]
    exact h.coherent hi w (h.written w hw).1 (h.written w hw).2
  · rw [hs] at hok
    exact absurd hok hret

/-- Bringing up to date copies what is there already. -/
theorem Inv.intact_of_synchronize {s : Buffer} (h : Inv s) (ha : a ∈ s.allocs)
    {o : Outcome} (hok : (synchronize s a o).1 = .ok) (hi : Intact (synchronize s a o).2) :
    Intact s := by
  obtain ⟨-,he⟩ | ⟨-,-,he⟩ | ⟨w,-,hw,-,he⟩ | ⟨w,ret,-,-,-,hret,he⟩ := synchronize_cases s a o
  · rwa [he] at hi
  · rw [he] at hi
    obtain ⟨b,hb,hh⟩ := hi
    rw [holds_refreshed] at hh
    split_ifs at hh
    · exact ⟨a,ha,hh⟩
    · exact ⟨b,hb,hh⟩
  · rw [he] at hi
    obtain ⟨b,hb,hh⟩ := hi
    rw [holds_refreshed] at hh
    split_ifs at hh
    · exact ⟨w,(h.written w hw).1,hh⟩
    · exact ⟨b,hb,hh⟩
  · rw [he] at hok
    exact absurd hok hret

theorem Inv.synchronize {s : Buffer} (h : Inv s) (ha : a ∈ s.allocs) {o : Outcome}
    (hs : (synchronize s a o).1 = .ok ∨ (Holds s a ∧ o.spoiled = false) ∨
      ∀ b ∈ s.allocs, Holds s b → b = a) : Inv (synchronize s a o).2 := by
  have hkeep := h.intact_of_synchronize (o := o) ha
  obtain ⟨-,he⟩ | ⟨-,hw,he⟩ | ⟨w,-,hw,-,he⟩ | ⟨w,ret,-,-,-,hret,he⟩ := synchronize_cases s a o
  · rw [he]
    exact h
  · rw [he] at hkeep ⊢
    exact h.refreshed fun hi => absurd hw (h.writer (hkeep rfl hi))
  · rw [he] at hkeep ⊢
    refine h.refreshed fun hi => ⟨?_,hkeep rfl hi⟩
    exact h.coherent (hkeep rfl hi) w (h.written w hw).1 (h.written w hw).2
  · rw [he] at hs ⊢
    obtain hs | ⟨hh,hspoiled⟩ | hs := hs
    · exact absurd hs hret
    · refine h.refreshed fun _ => ?_
      simp only [hspoiled,Bool.false_eq_true,if_false]
      exact ⟨hh,a,ha,hh⟩
    · -- what `a` holds now it held before, and no other allocation holds the last content
      refine h.refreshed fun ⟨b,hb,hh⟩ => ?_
      rw [holds_refreshed] at hh
      have hc : (if o.spoiled then none else (s.allocation a).content) = some s.writes := by
        by_cases hba : b = a
        · rwa [if_pos hba] at hh
        · rw [if_neg hba] at hh
          exact absurd (hs b hb hh) hba
      refine ⟨hc,a,ha,?_⟩
      split_ifs at hc
      exact hc

def advanced (s : Buffer) (a : ℕ) : Buffer :=
  {setSerial s a s.serial.increase with
    serial := s.serial.increase
    written := some a
    read := none}

theorem account_eq (s : Buffer) (a : ℕ) (access : CoreSurfaceAccessFlags) : account s a access =
      if access.write then zap (advanced s a) a AllocationFlags.volatile
      else {s with read := some a} := rfl

theorem advanced_allocation (s : Buffer) (a b : ℕ) : (advanced s a).allocation b =
      if b = a then {s.allocation a with serial := s.serial.increase} else s.allocation b := by
  by_cases hb : b = a <;> simp [advanced,setSerial,hb]

@[simp] theorem advanced_flags (s : Buffer) (a b : ℕ) :
    ((advanced s a).allocation b).flags = (s.allocation b).flags := by
  rw [advanced_allocation]
  split_ifs with hb
  · rw [hb]
  · rfl

@[simp] theorem advanced_pool (s : Buffer) (a b : ℕ) :
    ((advanced s a).allocation b).pool = (s.allocation b).pool := by
  rw [advanced_allocation]
  split_ifs with hb
  · rw [hb]
  · rfl

@[simp] theorem holds_advanced (s : Buffer) (a b : ℕ) : Holds (advanced s a) b ↔ Holds s b := by
  simp only [Holds,advanced_allocation]
  split_ifs with hb
  · rw [hb]
    rfl
  · rfl

theorem Inv.eq_of_advanced {s : Buffer} (h : Inv s) (hmax : s.serial.count+1 < 2^96) {a b : ℕ}
    (hb : b ∈ s.allocs) (hu : UpToDate (advanced s a) b) : b = a := by
  by_contra hba
  rw [upToDate_iff,advanced_allocation,if_neg hba] at hu
  have hbehind := h.behind b hb
  have hcount : (advanced s a).serial.count = s.serial.count+1 :=
    DirectSerial.count_increase _ hmax
  omega

theorem Inv.advanced {s : Buffer} (h : Inv s) (hmax : s.serial.count+1 < 2^96)
    (ha : a ∈ s.allocs) (hh : Intact s → Holds s a) : Inv (advanced s a) := by
  have hcount : (SurfaceBuffer.advanced s a).serial.count = s.serial.count+1 :=
    DirectSerial.count_increase _ hmax
  refine ⟨h.nodup,h.below,by omega,?_,?_,?_,?_,?_⟩
  · intro b hb
    rw [advanced_allocation]
    split_ifs
    · exact le_rfl
    · have := h.behind b hb
      omega
  · rintro w hw
    obtain rfl : a = w := Option.some.inj hw
    refine ⟨ha,?_⟩
    rw [upToDate_iff,advanced_allocation,if_pos rfl]
    exact le_rfl
  · intro r hr
    cases hr
  · rintro ⟨c,hc,hhc⟩ b hb hu
    rw [h.eq_of_advanced hmax hb hu,holds_advanced]
    exact hh ⟨c,hc,(holds_advanced ..).mp hhc⟩
  · intro _ hw
    cases hw

/-- What an access for `access` to the allocation has made of the buffer, before what is
written is. -/
structure Updated (thrifty : Bool) (s : Buffer) (a : ℕ) (access : CoreSurfaceAccessFlags)
    (t : Buffer) : Prop where
  inv : Inv t
  flags : ∀ b, (t.allocation b).flags = (s.allocation b).flags
  pool : ∀ b, (t.allocation b).pool = (s.allocation b).pool
  mem : ∀ b, b ∈ t.allocs ↔ b ∈ s.allocs ∧ (b = a ∨ Survives thrifty access (s.allocation b).flags)
  upToDate : UpToDate t a
  holds : Intact s → Holds t a
  holds_iff : ∀ b ≠ a, Holds t b ↔ Holds s b
  sole : access.write → t.written = some a ∧ ∀ b ∈ t.allocs, UpToDate t b → b = a
  reader : access.write = false → (∀ b ≠ a, UpToDate t b ↔ UpToDate s b) ∧
    (thrifty = false → t.written = s.written)

theorem Inv.account {s : Buffer} (h : Inv s) (ha : a ∈ s.allocs) (hu : UpToDate s a)
    {access : CoreSurfaceAccessFlags} (hmax : access.write → s.serial.count+1 < 2^96)
    (hh : Intact s → Holds s a) : Updated false s a access (account s a access) := by
  rw [account_eq]
  cases hw : access.write with
  | false =>
    refine ⟨⟨h.nodup,h.below,h.positive,h.behind,h.written,?_,h.coherent,h.writer⟩,
      fun _ => rfl,fun _ => rfl,?_,hu,hh,
      fun _ _ => Iff.rfl,fun hwrite => ?_,fun _ => ⟨fun _ _ => Iff.rfl,fun _ => rfl⟩⟩
    · rintro r hr
      rw [← Option.some.inj hr]
      exact ha
    · intro b
      simp [Survives,hw]
    · simp [hw] at hwrite
  | true =>
    have hadvanced := h.advanced (hmax hw) ha hh
    obtain ⟨hinv,hwritten⟩ := hadvanced.zap (a := a) rfl AllocationFlags.volatile
    have hmem := mem_zap (p := AllocationFlags.volatile) hadvanced.nodup a
    have hholds : ∀ b, Holds (SurfaceBuffer.zap (SurfaceBuffer.advanced s a) a
        AllocationFlags.volatile) b ↔ Holds s b := by
      intro b
      rw [← holds_advanced s a b]
      simp [Holds]
    refine ⟨hinv,fun b => ?_,fun b => ?_,?_,(hinv.written a hwritten).2,
      fun hi => (hholds a).mpr (hh hi),fun b _ => hholds b,
      fun _ => ⟨hwritten,?_⟩,fun hread => ?_⟩
    · rw [if_pos rfl,zap_allocation,advanced_flags]
    · rw [if_pos rfl,zap_allocation,advanced_pool]
    · intro b
      rw [if_pos rfl,hmem,advanced_flags]
      simp only [Survives,hw,Bool.false_eq_true,false_imp_iff,and_true,true_imp_iff]
      rfl
    · intro b hb hu
      have hb' : b ∈ s.allocs := ((hmem b).mp hb).1
      refine h.eq_of_advanced (hmax hw) hb' ?_
      simpa [UpToDate] using hu
    · simp [hw] at hread

theorem Inv.setLast {s : Buffer} (h : Inv s) (ha : a ∈ s.allocs)
    (hu : UpToDate s a) : Inv (setLast s a) := by
  refine ⟨h.nodup,h.below,h.positive,h.behind,?_,?_,h.coherent,fun _ hw => by cases hw⟩
  · rintro w hw
    rw [← Option.some.inj hw]
    exact ⟨ha,hu⟩
  · rintro r hr
    rw [← Option.some.inj hr]
    exact ha

/-- The thrifty configuration keeps only what it would not help to zap. -/
theorem Updated.zap {s t : Buffer} {access : CoreSurfaceAccessFlags}
    (h : Updated false s a access t) (ha : a ∈ t.allocs) :
    Updated true s a access (zap (setLast t a) a AllocationFlags.spendable) := by
  have hset := h.inv.setLast ha h.upToDate
  obtain ⟨hinv,hwritten⟩ := hset.zap rfl AllocationFlags.spendable
  have hmem := mem_zap (p := AllocationFlags.spendable) hset.nodup a
  have hholds : ∀ b, Holds (SurfaceBuffer.zap (setLast t a) a AllocationFlags.spendable) b ↔
      Holds t b := by
    intro b
    simp [Holds,setLast]
  have hup : ∀ b, UpToDate (SurfaceBuffer.zap (setLast t a) a AllocationFlags.spendable) b ↔
      UpToDate t b := by
    intro b
    simp [UpToDate,setLast]
  refine ⟨hinv,fun b => ?_,fun b => ?_,fun b => ?_,(hup a).mpr h.upToDate,
    fun hi => (hholds a).mpr (h.holds hi),
    fun b hb => (hholds b).trans (h.holds_iff b hb),fun hw => ⟨hwritten,fun b hb hub => ?_⟩,
    fun hr => ⟨fun b hb => (hup b).trans ((h.reader hr).1 b hb),by simp⟩⟩
  · rw [zap_allocation]
    exact h.flags b
  · rw [zap_allocation]
    exact h.pool b
  · rw [hmem]
    have hflags := h.flags b
    have hold := h.mem b
    simp only [Survives,Bool.false_eq_true,false_imp_iff,and_true,true_imp_iff] at hold ⊢
    simp only [setLast,AllocationFlags.spendable,hflags,hold,Bool.not_eq_false',Bool.or_eq_true]
    tauto
  · exact (h.sole hw).2 b ((hmem b).mp hb).1 ((hup b).mp hub)

/-- A successful update is one that synchronized, and then noted the access. -/
theorem allocationUpdate_ok {thrifty : Bool} {s t : Buffer}
    {access : CoreSurfaceAccessFlags} {o : Outcome}
    (h : allocationUpdate thrifty s a access o = (.ok,t)) :
    (synchronize s a o).1 = .ok ∧
    t = if thrifty then
        zap (setLast (account (synchronize s a o).2 a access) a) a AllocationFlags.spendable
      else account (synchronize s a o).2 a access := by
  rw [allocationUpdate] at h
  rcases hsync : synchronize s a o with ⟨ret,u⟩
  rw [hsync] at h
  by_cases hret : ret = .ok
  · subst hret
    refine ⟨rfl,?_⟩
    cases thrifty with
    | true => exact (Prod.mk.inj h).2.symm
    | false => exact (Prod.mk.inj h).2.symm
  · split at h
    · rename_i he
      exact absurd (Prod.mk.inj he).1 hret
    · rename_i he
      exact absurd ((Prod.mk.inj he).1.trans (Prod.mk.inj h).1) hret

theorem allocationUpdate_error {thrifty : Bool} {s t : Buffer}
    {access : CoreSurfaceAccessFlags} {o : Outcome} {ret : DirectResult} (hret : ret ≠ .ok)
    (h : allocationUpdate thrifty s a access o = (ret,t)) : synchronize s a o = (ret,t) := by
  rw [allocationUpdate] at h
  split at h
  · split_ifs at h
    · exact absurd (Prod.mk.inj h).1.symm hret
    · exact absurd (Prod.mk.inj h).1.symm hret
  · rename_i he
    rw [he]
    exact h

theorem Updated.of_synchronize {s t : Buffer} {access : CoreSurfaceAccessFlags}
    {o : Outcome} (h : Updated false (synchronize s a o).2 a access t)
    (hi : Intact s → Intact (synchronize s a o).2) : Updated false s a access t := by
  obtain ⟨u,hu,hserial,hallocs,hwritten,-,hwrites,-,hother,hflags,hpool⟩ := synchronize_frame s a o
  rw [hu] at h hi
  have hflags' : ∀ b, (u.allocation b).flags = (s.allocation b).flags := by
    intro b
    by_cases hba : b = a
    · rw [hba,hflags]
    · rw [hother b hba]
  have hpool' : ∀ b, (u.allocation b).pool = (s.allocation b).pool := by
    intro b
    by_cases hba : b = a
    · rw [hba,hpool]
    · rw [hother b hba]
  refine ⟨h.inv,fun b => (h.flags b).trans (hflags' b),fun b => (h.pool b).trans (hpool' b),
    fun b => ?_,h.upToDate,
    fun hs => h.holds (hi hs),fun b hb => ?_,h.sole,
    fun hr => ⟨fun b hb => ?_,fun ht => ((h.reader hr).2 ht).trans hwritten⟩⟩
  · rw [h.mem b,hallocs,hflags']
  · rw [h.holds_iff b hb,Holds,hother b hb,hwrites]
    rfl
  · rw [(h.reader hr).1 b hb,UpToDate,hother b hb,hserial]
    rfl

/-- What a successful update does, given that no serial wraps. -/
theorem Inv.allocationUpdate {thrifty : Bool} {s t : Buffer} (h : Inv s)
    (ha : a ∈ s.allocs) {access : CoreSurfaceAccessFlags} {o : Outcome}
    (hmax : access.write → s.serial.count+1 < 2^96)
    (ht : allocationUpdate thrifty s a access o = (.ok,t)) : Updated thrifty s a access t := by
  obtain ⟨hok,rfl⟩ := allocationUpdate_ok ht
  obtain ⟨hup,hholds⟩ := h.holds_synchronize ha hok
  have hinv := h.synchronize ha (.inl hok)
  have hkeep := h.intact_of_synchronize ha hok
  obtain ⟨u,hu,hserial,hallocs,-⟩ := synchronize_frame s a o
  have hau : a ∈ (SurfaceBuffer.synchronize s a o).2.allocs := by
    rw [hu,hallocs]
    exact ha
  have haccount : Updated false s a access
      (SurfaceBuffer.account (SurfaceBuffer.synchronize s a o).2 a access) :=
    (hinv.account hau hup (by rw [hu,hserial]; exact hmax)
      fun hi => hholds (hkeep hi)).of_synchronize fun hi => ⟨a,hau,hholds hi⟩
  cases thrifty with
  | false => exact haccount
  | true => exact haccount.zap ((haccount.mem a).mpr ⟨ha,.inl rfl⟩)

end Update

section Calls

/-- A buffer looks the same if its own allocations do. -/
theorem Inv.congr {s t : Buffer} (h : Inv s) (hserial : t.serial = s.serial)
    (hallocs : t.allocs = s.allocs) (hwritten : t.written = s.written) (hread : t.read = s.read)
    (hwrites : t.writes = s.writes) (hnext : s.nextAllocation ≤ t.nextAllocation)
    (halloc : ∀ a ∈ s.allocs, t.allocation a = s.allocation a) : Inv t := by
  have hup : ∀ a ∈ s.allocs, UpToDate t a ↔ UpToDate s a := by
    intro a ha
    rw [UpToDate,hserial,halloc a ha]
    rfl
  have hholds : ∀ a ∈ s.allocs, Holds t a ↔ Holds s a := by
    intro a ha
    rw [Holds,hwrites,halloc a ha]
    rfl
  have hint : Intact t → Intact s := by
    rintro ⟨a,ha,hh⟩
    rw [hallocs] at ha
    exact ⟨a,ha,(hholds a ha).mp hh⟩
  refine ⟨hallocs ▸ h.nodup,?_,hserial ▸ h.positive,?_,?_,?_,?_,?_⟩
  · intro a ha
    exact (h.below a (hallocs ▸ ha)).trans_le hnext
  · intro a ha
    rw [hallocs] at ha
    rw [hserial,halloc a ha]
    exact h.behind a ha
  · intro w hw
    obtain ⟨hm,hu⟩ := h.written w (hwritten ▸ hw)
    exact ⟨hallocs ▸ hm,(hup w hm).mpr hu⟩
  · intro r hr
    rw [hallocs]
    exact h.read r (hread ▸ hr)
  · intro hi a ha hu
    rw [hallocs] at ha
    exact (hholds a ha).mpr (h.coherent (hint hi) a ha ((hup a ha).mp hu))
  · intro hi
    rw [hwritten]
    exact h.writer (hint hi)

variable {a : ℕ} {flags : CoreSurfaceAccessFlags}

theorem Inv.ne_next {s : Buffer} (h : Inv s) (ha : a ∈ s.allocs) :
    a ≠ s.nextAllocation := (h.below a ha).ne

theorem Inv.poolAllocate_old {s : Buffer} (h : Inv s) (ha : a ∈ s.allocs) (pool : Pool)
    (flags : AllocationFlags) : (poolAllocate s pool flags).allocation a = s.allocation a :=
  Function.update_of_ne (h.ne_next ha) _ _

@[simp] theorem poolAllocate_new (s : Buffer) (pool : Pool) (flags : AllocationFlags) :
    (poolAllocate s pool flags).allocation s.nextAllocation = ⟨.init,pool,flags,none⟩ :=
  Function.update_self _ _ _

/-- A new allocation holds nothing, and its serial says so. -/
theorem Inv.poolAllocate {s : Buffer} (h : Inv s) (pool : Pool) (flags : AllocationFlags) :
    Inv (poolAllocate s pool flags) := by
  have hold : ∀ a ∈ s.allocs,
      (SurfaceBuffer.poolAllocate s pool flags).allocation a = s.allocation a := fun a ha =>
    h.poolAllocate_old ha pool flags
  have hnew := poolAllocate_new s pool flags
  have hmem : ∀ a ∈ (SurfaceBuffer.poolAllocate s pool flags).allocs,
      a ∈ s.allocs ∨ a = s.nextAllocation := by
    intro a ha
    simpa [SurfaceBuffer.poolAllocate] using ha
  have hint : Intact (SurfaceBuffer.poolAllocate s pool flags) → Intact s := by
    rintro ⟨a,ha,hh⟩
    obtain ha | rfl := hmem a ha
    · rw [Holds,hold a ha] at hh
      exact ⟨a,ha,hh⟩
    · rw [Holds,hnew] at hh
      cases hh
  refine ⟨?_,?_,h.positive,?_,?_,?_,?_,fun hi => h.writer (hint hi)⟩
  · refine h.nodup.append (List.nodup_singleton _) ?_
    simp only [List.disjoint_singleton]
    exact fun hm => h.ne_next hm rfl
  · intro a ha
    obtain ha | rfl := hmem a ha
    · exact (h.below a ha).trans (Nat.lt_succ_self _)
    · exact Nat.lt_succ_self _
  · intro a ha
    obtain ha | rfl := hmem a ha
    · rw [hold a ha]
      exact h.behind a ha
    · rw [hnew,DirectSerial.count_init]
      exact Nat.zero_le _
  · intro w hw
    obtain ⟨hm,hu⟩ := h.written w hw
    refine ⟨List.mem_append_left _ hm,?_⟩
    rw [UpToDate,hold w hm]
    exact hu
  · intro r hr
    exact List.mem_append_left _ (h.read r hr)
  · intro hi a ha hu
    obtain ha | rfl := hmem a ha
    · rw [UpToDate,hold a ha] at hu
      rw [Holds,hold a ha]
      exact h.coherent (hint hi) a ha hu
    · rw [upToDate_iff,hnew,DirectSerial.count_init] at hu
      exact absurd (h.positive.trans_le hu) (lt_irrefl 0)

/-- Whoever writes to the only allocation that is up to date makes the others outdated. -/
theorem Inv.completeWrite {s : Buffer} (h : Inv s) (hw : s.written = some a)
    (hs : ∀ b ∈ s.allocs, UpToDate s b → b = a) : Inv (completeWrite s a) := by
  have halloc : ∀ b, (SurfaceBuffer.completeWrite s a).allocation b =
      if b = a then {s.allocation a with content := some (s.writes+1)} else s.allocation b := by
    intro b
    by_cases hb : b = a <;> simp [SurfaceBuffer.completeWrite,setContent,hb]
  have hserial : ∀ b, ((SurfaceBuffer.completeWrite s a).allocation b).serial =
      (s.allocation b).serial := by
    intro b
    rw [halloc]
    split_ifs with hb
    · rw [hb]
    · rfl
  have hup : ∀ b, UpToDate (SurfaceBuffer.completeWrite s a) b ↔ UpToDate s b := by
    intro b
    rw [UpToDate,hserial]
    rfl
  refine ⟨h.nodup,h.below,h.positive,fun b hb => ?_,fun w hw => ?_,h.read,fun _ b hb hu => ?_,
    fun _ (hnone : s.written = none) => ?_⟩
  · rw [hserial]
    exact h.behind b hb
  · exact ⟨(h.written w hw).1,(hup w).mpr (h.written w hw).2⟩
  · rw [Holds,halloc,if_pos (hs b hb ((hup b).mp hu))]
    rfl
  · simp [hw] at hnone

theorem preAccess_ok {thrifty allocated : Bool} {s t : Buffer} {a b : ℕ}
    {access : CoreSurfaceAccessFlags} {lock : Pool → Bool} {o : Outcome}
    (h : preAccess thrifty s a allocated access lock o = (.ok b,t)) :
    b = a ∧ allocationUpdate thrifty s a access o = (.ok,t) := by
  rw [preAccess] at h
  rcases hupdate : allocationUpdate thrifty s a access o with ⟨ret,u⟩
  rw [hupdate] at h
  cases ret with
  | ok =>
    by_cases hlock : lock (u.allocation a).pool ∧ o.prelock ≠ .ok
    · simp [hlock] at h
    · simp only [if_neg hlock] at h
      obtain ⟨hb,rfl⟩ := Prod.mk.inj h
      exact ⟨(Except.ok.inj hb).symm,rfl⟩
  | _ => simp at h

/-- On an error the update has failed, or else the lock. -/
theorem preAccess_error {thrifty allocated : Bool} {s t : Buffer} {ret : DirectResult}
    {access : CoreSurfaceAccessFlags} {lock : Pool → Bool} {o : Outcome}
    (h : preAccess thrifty s a allocated access lock o = (.error ret,t)) :
    ∃ u, t = (if allocated then decouple u a else u) ∧
      ((ret ≠ .ok ∧ allocationUpdate thrifty s a access o = (ret,u)) ∨
        (allocationUpdate thrifty s a access o = (.ok,u) ∧ lock (u.allocation a).pool ∧
          o.prelock ≠ .ok)) := by
  rw [preAccess] at h
  rcases hupdate : allocationUpdate thrifty s a access o with ⟨ret',u⟩
  rw [hupdate] at h
  cases ret' with
  | ok =>
    by_cases hlock : lock (u.allocation a).pool ∧ o.prelock ≠ .ok
    · simp only [if_pos hlock] at h
      exact ⟨u,(Prod.mk.inj h).2.symm,.inr ⟨rfl,hlock⟩⟩
    · simp [if_neg hlock] at h
  | _ =>
    obtain ⟨hret,ht⟩ := Prod.mk.inj h
    obtain rfl := Except.error.inj hret
    exact ⟨u,ht.symm,.inl ⟨by simp,rfl⟩⟩

/-- What whoever asked for `access` to an allocation may rely on. -/
structure Granted (s : Buffer) (a : ℕ) (access : CoreSurfaceAccessFlags) (t : Buffer) : Prop where
  inv : Inv t
  mem : a ∈ t.allocs
  holds : Intact s → Holds t a
  sole : access.write → t.written = some a ∧ ∀ b ∈ t.allocs, UpToDate t b → b = a

theorem Updated.granted {thrifty : Bool} {s t : Buffer} {access : CoreSurfaceAccessFlags}
    (h : Updated thrifty s a access t) (ha : a ∈ s.allocs) : Granted s a access t :=
  ⟨h.inv,(h.mem a).mpr ⟨ha,.inl rfl⟩,h.holds,h.sole⟩

theorem intact_poolAllocate {s : Buffer} (h : Inv s) (pool : Pool) (flags : AllocationFlags)
    (hi : Intact s) : Intact (poolAllocate s pool flags) := by
  obtain ⟨a,ha,hh⟩ := hi
  refine ⟨a,List.mem_append_left _ ha,?_⟩
  rw [Holds,h.poolAllocate_old ha]
  exact hh

theorem mem_poolAllocate (s : Buffer) (pool : Pool) (flags : AllocationFlags) :
    s.nextAllocation ∈ (poolAllocate s pool flags).allocs := by
  simp [poolAllocate]

/-- A new allocation is outdated, so that its update depends on a transfer. -/
theorem Inv.transferred {s : Buffer} (h : Inv s) {pool : Pool} {flags : AllocationFlags}
    {o : Outcome} (hok : (SurfaceBuffer.synchronize (SurfaceBuffer.poolAllocate s pool flags)
      s.nextAllocation o).1 = .ok) : Transferred s pool o := by
  intro w hw
  have hnew := poolAllocate_new s pool flags
  obtain ⟨hu,-⟩ | ⟨-,hnone,-⟩ | ⟨w',-,hw',ht,-⟩ | ⟨w',ret,-,-,-,hret,he⟩ :=
    synchronize_cases (SurfaceBuffer.poolAllocate s pool flags) s.nextAllocation o
  · rw [upToDate_iff,hnew,DirectSerial.count_init] at hu
    exact absurd (h.positive.trans_le hu) (lt_irrefl 0)
  · exact absurd (hw.symm.trans hnone) (by simp)
  · obtain rfl : w = w' := Option.some.inj (hw.symm.trans hw')
    rwa [hnew,h.poolAllocate_old (h.written w hw).1] at ht
  · rw [he] at hok
    exact absurd hok hret

theorem Inv.decouple_new {s : Buffer} (h : Inv s) (pool : Pool) (flags : AllocationFlags)
    (o : Outcome) : Inv (SurfaceBuffer.decouple (SurfaceBuffer.synchronize
      (SurfaceBuffer.poolAllocate s pool flags) s.nextAllocation o).2 s.nextAllocation) := by
  obtain ⟨u,hu,hserial,hallocs,hwritten,hread,hwrites,hnext,hother,-⟩ :=
    synchronize_frame (SurfaceBuffer.poolAllocate s pool flags) s.nextAllocation o
  rw [hu]
  have hfresh : s.nextAllocation ∉ s.allocs := fun hm => h.ne_next hm rfl
  refine h.congr hserial ?_ ?_ ?_ hwrites ?_ ?_
  · rw [decouple_allocs,hallocs]
    exact (List.erase_append_right _ hfresh).trans (by simp)
  · have hne : u.written ≠ some s.nextAllocation := by
      rw [hwritten]
      exact fun hw => hfresh (h.written _ hw).1
    exact (decouple_written hne).trans hwritten
  · have hne : u.read ≠ some s.nextAllocation := by
      rw [hread]
      exact fun hr => hfresh (h.read _ hr)
    simp only [SurfaceBuffer.decouple,if_neg hne]
    exact hread
  · rw [show (SurfaceBuffer.decouple u s.nextAllocation).nextAllocation = u.nextAllocation from rfl,
      hnext]
    exact Nat.le_succ _
  · intro a ha
    rw [decouple_allocation,hother a (h.ne_next ha),h.poolAllocate_old ha]

theorem Inv.decoupleSafe_new {thrifty : Bool} {s t : Buffer} (h : Inv s) {pool : Pool}
    {flags : AllocationFlags} {access : CoreSurfaceAccessFlags}
    (ht : Updated thrifty (SurfaceBuffer.poolAllocate s pool flags) s.nextAllocation access t)
    (hs : PrelockSafe thrifty s access) : DecoupleSafe t s.nextAllocation := by
  rintro hw ⟨b,hb,hne,hh⟩
  have hmem : ∀ c ≠ s.nextAllocation, c ∈ t.allocs ↔
      c ∈ s.allocs ∧ Survives thrifty access (s.allocation c).flags := by
    intro c hc
    rw [ht.mem c]
    constructor
    · rintro ⟨hcm,hcs⟩
      have hcm : c ∈ s.allocs := by simpa [SurfaceBuffer.poolAllocate,hc] using hcm
      rw [h.poolAllocate_old hcm] at hcs
      exact ⟨hcm,hcs.resolve_left hc⟩
    · rintro ⟨hcm,hcs⟩
      rw [h.poolAllocate_old hcm]
      exact ⟨List.mem_append_left _ hcm,.inr hcs⟩
  obtain ⟨hbm,hbs⟩ := (hmem b hne).mp hb
  have hhb : Holds s b := by
    have := (ht.holds_iff b hne).mp hh
    rwa [Holds,h.poolAllocate_old hbm] at this
  obtain ⟨hread,hup⟩ := hs ⟨b,hbm,hbs,hhb⟩
  obtain ⟨hkeep,hsame⟩ := ht.reader hread
  cases thrifty with
  | false =>
    have hw' : s.written = some s.nextAllocation := (hsame rfl).symm.trans hw
    exact absurd (h.written _ hw').1 fun hm => h.ne_next hm rfl
  | true =>
    obtain ⟨c,hcm,hcs,hcu⟩ := hup rfl
    refine ⟨c,(hmem c (h.ne_next hcm)).mpr ⟨hcm,hcs⟩,h.ne_next hcm,?_⟩
    rw [hkeep c (h.ne_next hcm),UpToDate,h.poolAllocate_old hcm]
    exact hcu

/-- An update that is safe leaves the invariant, whether it succeeds or not. -/
theorem Inv.update_error {thrifty : Bool} {s t : Buffer} (h : Inv s) (ha : a ∈ s.allocs)
    {access : CoreSurfaceAccessFlags} {o : Outcome} (hs : UpdateSafe s a access o)
    {ret : DirectResult} (hret : ret ≠ .ok)
    (ht : SurfaceBuffer.allocationUpdate thrifty s a access o = (ret,t)) : Inv t := by
  have he := allocationUpdate_error hret ht
  have hinv : Inv (SurfaceBuffer.synchronize s a o).2 := by
    obtain ⟨-,hok⟩ | ⟨-,-,hok⟩ | ⟨w,-,-,-,hok⟩ | ⟨w,ret',hu,hw,htr,hne,-⟩ :=
      synchronize_cases s a o
    · exact h.synchronize ha (.inl (by rw [hok]))
    · exact h.synchronize ha (.inl (by rw [hok]))
    · exact h.synchronize ha (.inl (by rw [hok]))
    · obtain htransferred | hsafe := hs.1 hu
      · exact absurd (htr.symm.trans (htransferred w hw)) hne
      · exact h.synchronize ha (.inr hsafe)
  rwa [he] at hinv

section PreBuffer

variable {thrifty : Bool} {s t : Buffer} {found : Option ℕ} {accessor : ℕ}
  {access : CoreSurfaceAccessFlags} {lock : Pool → Bool} {o : Outcome}

/-- What the three calls that grant access promise. -/
theorem Inv.preBuffer_ok (h : Inv s) (hfound : ∀ a, found = some a → a ∈ s.allocs)
    (hs : AccessSafe thrifty s found accessor access lock o) {a : ℕ}
    (ht : preBuffer thrifty s found accessor access lock o = (.ok a,t)) :
    Granted s a access t := by
  unfold preBuffer at ht
  split_ifs at ht with hd hsurface
  · simp at ht
  · simp at ht
  · have hsafe := hs (by simpa using hd) (by simpa using hsurface)
    cases found with
    | some b =>
      obtain ⟨rfl,hu⟩ := preAccess_ok ht
      have ha := hfound a rfl
      -- an update of the allocation that was found
      exact (h.allocationUpdate ha hsafe.2 hu).granted ha
    | none =>
      simp only at ht hsafe
      split at ht
      · simp at ht
      · rename_i pool flags hpools
        obtain ⟨rfl,hu⟩ := preAccess_ok ht
        have hok := (allocationUpdate_ok hu).1
        obtain ⟨hmax,-⟩ := hsafe pool flags hpools (h.transferred hok)
        -- and one of a new allocation
        have hnew := (h.poolAllocate pool flags).allocationUpdate (mem_poolAllocate s pool flags)
          hmax hu
        obtain ⟨hinv,hmem,hholds,hsole⟩ := hnew.granted (mem_poolAllocate s pool flags)
        exact ⟨hinv,hmem,fun hi => hholds (intact_poolAllocate h pool flags hi),hsole⟩

/-- A failed call keeps the invariant, too. -/
theorem Inv.preBuffer_error (h : Inv s) (hfound : ∀ a, found = some a → a ∈ s.allocs)
    (hs : AccessSafe thrifty s found accessor access lock o) {ret : DirectResult}
    (ht : preBuffer thrifty s found accessor access lock o = (.error ret,t)) : Inv t := by
  unfold preBuffer at ht
  split_ifs at ht with hd hsurface
  · exact (Prod.mk.inj ht).2 ▸ h
  · exact (Prod.mk.inj ht).2 ▸ h
  · have hsafe := hs (by simpa using hd) (by simpa using hsurface)
    cases found with
    | some a =>
      have ha := hfound a rfl
      obtain ⟨u,rfl,⟨hret,hu⟩ | ⟨hu,-,-⟩⟩ := preAccess_error ht
      · exact h.update_error ha hsafe hret hu
      · exact (h.allocationUpdate ha hsafe.2 hu).inv
    | none =>
      simp only at ht hsafe
      split at ht
      · exact (Prod.mk.inj ht).2 ▸ h
      · rename_i pool flags hpools
        obtain ⟨u,rfl,⟨hret,hu⟩ | ⟨hu,hlock,hprelock⟩⟩ := preAccess_error ht
        · have hclean := h.decouple_new pool flags o
          rw [allocationUpdate_error hret hu] at hclean
          exact hclean
        · have hok := (allocationUpdate_ok hu).1
          obtain ⟨hmax,hsafe⟩ := hsafe pool flags hpools (h.transferred hok)
          have hnew := (h.poolAllocate pool flags).allocationUpdate
            (mem_poolAllocate s pool flags) hmax hu
          have hpool : (u.allocation s.nextAllocation).pool = pool := by
            rw [hnew.pool,poolAllocate_new]
          exact hnew.inv.decouple (h.decoupleSafe_new hnew (hsafe (hpool ▸ hlock) hprelock))

end PreBuffer

theorem mem_of_findLoop {s : Buffer} {caller accessor a : ℕ}
    {lock : Bool} {l : List ℕ} {uptodate outdated : Option ℕ} (hl : ∀ b ∈ l, b ∈ s.allocs)
    (hup : ∀ b, uptodate = some b → b ∈ s.allocs) (hout : ∀ b, outdated = some b → b ∈ s.allocs)
    (h : findLoop s caller accessor flags lock l uptodate outdated = some a) : a ∈ s.allocs := by
  have hcons : ∀ b, ∀ c, some b = some c → b ∈ s.allocs → c ∈ s.allocs := by
    rintro b c he hb
    exact Option.some.inj he ▸ hb
  induction l generalizing uptodate outdated with
  | nil =>
    rw [findLoop] at h
    split_ifs at h
    · exact hout a h
    · obtain h | ⟨-,h⟩ := Option.or_eq_some_iff.mp h
      · exact hup a h
      · exact hout a h
  | cons b l ih =>
    have hb := hl b (List.mem_cons_self ..)
    have hl' : ∀ c ∈ l, c ∈ s.allocs := fun c hc => hl c (List.mem_cons_of_mem _ hc)
    rw [findLoop] at h
    split_ifs at h
    · exact ih hl' hup hout h
    · exact hcons b a h hb
    · exact ih hl' (fun c hc => hcons b c hc hb) hout h
    · exact ih hl' hup (fun c hc => hcons b c hc hb) h
    · exact ih hl' hup hout h

theorem mem_of_findAllocation {s : Buffer} {caller accessor a : ℕ} {lock : Bool}
    (h : findAllocation s caller accessor flags lock = some a) : a ∈ s.allocs := by
  rw [findAllocation] at h
  split at h
  · rename_i b hb
    rw [findStatic] at hb
    split_ifs at hb
    rw [← Option.some.inj h]
    exact List.mem_of_head? (Option.filter_eq_some_iff.mp hb).1
  · exact mem_of_findLoop (fun _ hb => hb) (by simp) (by simp) h

theorem mem_of_lastUsed {s : Buffer} {last : Option ℕ} {caller a : ℕ} (hlast : ∀ b, last = some b → b ∈ s.allocs)
    (h : (lastUsed s last).or (findAllocation s caller csaidCPU flags false) = some a) :
    a ∈ s.allocs := by
  obtain h | ⟨-,h⟩ := Option.or_eq_some_iff.mp h
  · exact hlast a (Option.filter_eq_some_iff.mp h).1
  · exact mem_of_findAllocation h

variable {thrifty : Bool} {s t : Buffer} {e : Event}

/-- Whatever the call, whoever gets an allocation may rely on it. -/
theorem Inv.call_ok (h : Inv s) (hm : Meets thrifty s e)
    (hc : call thrifty s e = some (.ok (some a),t)) : Granted s a e.access t := by
  have hmap : ∀ {r : Except DirectResult ℕ}, r.map some = .ok (some a) → r = .ok a := by
    rintro (_ | b) hr
    · cases hr
    · rw [Option.some.inj (Except.ok.inj hr)]
  cases e with
  | preLock caller accessor access o =>
    obtain ⟨hr,rfl⟩ := Prod.mk.inj (Option.some.inj hc)
    exact h.preBuffer_ok (fun _ => mem_of_findAllocation) hm (Prod.ext (hmap hr) rfl)
  | preRead caller o =>
    obtain ⟨hr,rfl⟩ := Prod.mk.inj (Option.some.inj hc)
    exact h.preBuffer_ok (fun _ => mem_of_lastUsed fun w hw => (h.written w hw).1) hm
      (Prod.ext (hmap hr) rfl)
  | preWrite caller o =>
    obtain ⟨hr,rfl⟩ := Prod.mk.inj (Option.some.inj hc)
    exact h.preBuffer_ok (fun _ => mem_of_lastUsed h.read) hm (Prod.ext (hmap hr) rfl)
  | update b access o =>
    simp only [call] at hc
    by_cases hb : b ∈ s.allocs
    · rw [if_pos hb] at hc
      obtain ⟨hr,rfl⟩ := Prod.mk.inj (Option.some.inj hc)
      split_ifs at hr with hok
      obtain rfl := Option.some.inj (Except.ok.inj hr)
      exact (h.allocationUpdate hb hm.2 (Prod.ext hok rfl)).granted hb
    · rw [if_neg hb] at hc
      cases hc
  | decouple b =>
    simp only [call] at hc
    split_ifs at hc
    cases (Prod.mk.inj (Option.some.inj hc)).1

/-- A call that grants no access keeps the invariant. -/
theorem Inv.call_other (h : Inv s) (hm : Meets thrifty s e) {r : Except DirectResult (Option ℕ)}
    (hr : ∀ a, r ≠ .ok (some a)) (hc : call thrifty s e = some (r,t)) : Inv t := by
  have hmap : ∀ {x : Except DirectResult ℕ}, x.map some = r → ∃ ret, x = .error ret := by
    rintro (ret | a) hx
    · exact ⟨ret,rfl⟩
    · exact absurd hx.symm (hr a)
  cases e with
  | preLock caller accessor access o =>
    obtain ⟨hx,rfl⟩ := Prod.mk.inj (Option.some.inj hc)
    obtain ⟨ret,hret⟩ := hmap hx
    exact h.preBuffer_error (fun _ => mem_of_findAllocation) hm (Prod.ext hret rfl)
  | preRead caller o =>
    obtain ⟨hx,rfl⟩ := Prod.mk.inj (Option.some.inj hc)
    obtain ⟨ret,hret⟩ := hmap hx
    exact h.preBuffer_error (fun _ => mem_of_lastUsed fun w hw => (h.written w hw).1) hm
      (Prod.ext hret rfl)
  | preWrite caller o =>
    obtain ⟨hx,rfl⟩ := Prod.mk.inj (Option.some.inj hc)
    obtain ⟨ret,hret⟩ := hmap hx
    exact h.preBuffer_error (fun _ => mem_of_lastUsed h.read) hm (Prod.ext hret rfl)
  | update b access o =>
    simp only [call] at hc
    by_cases hb : b ∈ s.allocs
    · rw [if_pos hb] at hc
      obtain ⟨hx,rfl⟩ := Prod.mk.inj (Option.some.inj hc)
      split_ifs at hx with hok
      · exact absurd hx.symm (hr b)
      · exact h.update_error hb hm hok rfl
    · rw [if_neg hb] at hc
      cases hc
  | decouple b =>
    simp only [call] at hc
    split_ifs at hc
    obtain ⟨-,rfl⟩ := Prod.mk.inj (Option.some.inj hc)
    exact h.decouple hm

theorem Inv.step (h : Inv s) (hm : Meets thrifty s e) (hs : step thrifty s e = some t) : Inv t := by
  rw [SurfaceBuffer.step] at hs
  obtain ⟨⟨r,u⟩,hc,rfl⟩ := Option.map_eq_some_iff.mp hs
  rcases r with ret | _ | a
  · exact h.call_other hm (by simp) hc
  · exact h.call_other hm (by simp) hc
  · have hgranted := h.call_ok hm hc
    rw [complete]
    split_ifs with hw
    · obtain ⟨hwritten,hsole⟩ := hgranted.sole hw
      exact hgranted.inv.completeWrite hwritten hsole
    · exact hgranted.inv

theorem inv_initial (pool : Pool) (staticAlloc : Bool) (identity : ℕ) (destroyed surface : Bool) :
    Inv (initial pool staticAlloc identity destroyed surface) := by
  have hnone : ∀ a, a ∉ (initial pool staticAlloc identity destroyed surface).allocs :=
    fun _ => List.not_mem_nil
  refine ⟨List.nodup_nil,fun a ha => absurd ha (hnone a),?_,fun a ha => absurd ha (hnone a),
    ?_,?_,fun _ a ha => absurd ha (hnone a),
    fun ⟨a,ha,_⟩ => absurd ha (hnone a)⟩
  · rw [initial,DirectSerial.count_init_increase]
    exact Nat.one_pos
  · rintro w ⟨⟩
  · rintro r ⟨⟩

theorem inv_of_created (h : Created thrifty s) : Inv s := by
  cases h with
  | empty pool identity destroyed surface => exact inv_initial ..
  | preallocated pool staticAlloc identity destroyed surface flags o =>
    have hinit := inv_initial pool staticAlloc identity destroyed surface
    have hmem := mem_poolAllocate (initial pool staticAlloc identity destroyed surface) pool flags
    have hmax : (initial pool staticAlloc identity destroyed surface).serial.count+1 < 2^96 := by
      rw [initial,DirectSerial.count_init_increase]
      norm_num
    -- nothing has been written yet, so that nothing has to be transferred
    obtain ⟨u,hu⟩ : ∃ u, allocationUpdate thrifty (poolAllocate
        (initial pool staticAlloc identity destroyed surface) pool flags) 0 {write := true} o =
        (.ok,u) := by
      cases thrifty <;> exact ⟨_,rfl⟩
    have hupdated := (hinit.poolAllocate pool flags).allocationUpdate hmem (fun _ => hmax) hu
    obtain ⟨hwritten,hsole⟩ := hupdated.sole rfl
    rw [hu]
    exact hupdated.inv.completeWrite hwritten hsole

/-- While the content last written exists, it is what the allocations hold that count
as up to date, and what whoever gets access finds. Holds if no failed transfer, no failed
lock and no serial that wraps has cut the content from the serials. -/
theorem coherence (h : Reaches (step thrifty) (Meets thrifty) (Created thrifty) s) :
    (Intact s → ∀ a ∈ s.allocs, UpToDate s a → Holds s a) ∧
    ∀ e a t, Meets thrifty s e → call thrifty s e = some (.ok (some a),t) → Intact s →
      a ∈ t.allocs ∧ Holds t a := by
  have hinv : Inv s := h.invariant Inv (fun _ => inv_of_created) fun _ _ _ hi hm hs => hi.step hm hs
  refine ⟨hinv.coherent,fun e a t hm hc hi => ?_⟩
  have hgranted := hinv.call_ok hm hc
  exact ⟨hgranted.mem,hgranted.holds hi⟩

end Calls

section Runs

def sharedPool : Pool where
  access accessor := if accessor = 1 then {
    read := true
    write := true
    shared := true} else {}
  capsRead := false
  capsWrite := false

def accelPool : Pool where
  access accessor := if accessor = 2 then {
    read := true
    write := true} else {}
  capsRead := true
  capsWrite := true

def writeReadWrite : List Event :=
  [.preLock 0 1 {write := true} {allocate := .ok (sharedPool,{})},
    .preLock 0 2 {read := true} {allocate := .ok (accelPool,{})},
    .preLock 0 1 {write := true} {}]

/-- The rules above at work. -/
theorem coherence_write_read_write : ∃ s, Reaches (step false) (Meets false) (Created false) s ∧
    s.allocs = [0,1] ∧ Intact s ∧ (∀ a ∈ s.allocs, UpToDate s a → Holds s a) ∧
    ∀ e a t, Meets false s e → call false s e = some (.ok (some a),t) → Intact s →
      a ∈ t.allocs ∧ Holds t a := by
  obtain ⟨s,hs,hallocs,hint⟩ : ∃ s, Reaches (step false) (Meets false) (Created false) s ∧
      s.allocs = [0,1] ∧ Intact s := by
    refine ⟨_,.step (.preLock 0 1 {write := true} {}) (.step (.preLock 0 2 {read := true}
      {allocate := .ok (accelPool,{})}) (.step (.preLock 0 1 {write := true}
      {allocate := .ok (sharedPool,{})}) (.init (.empty sharedPool 0 false true)) ?_ rfl)
      ?_ rfl) ?_ rfl,rfl,⟨0,by decide,by decide⟩⟩
    · exact fun _ _ _ _ _ _ => ⟨fun _ => by decide,fun _ hne => absurd rfl hne⟩
    · exact fun _ _ _ _ _ _ => ⟨by rintro ⟨⟩,fun _ hne => absurd rfl hne⟩
    · exact fun _ _ => ⟨fun hu => absurd (by decide) hu,fun _ => by decide⟩
  exact ⟨s,hs,hallocs,hint,(coherence hs).1 hint,(coherence hs).2⟩

/-- After a failed transfer to the accelerator, its allocation counts as up to date,
and the next access for reading gets what was there before. -/
theorem failed_transfer_believed : ∃ s, Reaches (step false) (fun _ _ => True) (Created false) s ∧
    Intact s ∧ (∃ a ∈ s.allocs, UpToDate s a ∧ ¬Holds s a) ∧
    ∃ a t, call false s (.preLock 0 2 {read := true} {}) = some (.ok (some a),t) ∧ ¬Holds t a := by
  obtain ⟨s,hs,hint,hstale,hread⟩ : ∃ s, exec (step false) (initial sharedPool false 0 false true)
      (writeReadWrite++[.preLock 0 2 {read := true} {
        bridges := .unsupported
        fallback := .io}]) = some s ∧ Intact s ∧ (∃ a ∈ s.allocs, UpToDate s a ∧ ¬Holds s a) ∧
      ∃ a t, call false s (.preLock 0 2 {read := true} {}) = some (.ok (some a),t) ∧ ¬Holds t a :=
    ⟨_,rfl,⟨0,by decide,by decide⟩,⟨1,by decide,by decide,by decide⟩,1,_,rfl,by decide⟩
  have hstart : Reaches (step false) (fun _ _ => True) (Created false)
      (initial sharedPool false 0 false true) := .init (.empty ..)
  exact ⟨s,hstart.exec (fun _ _ => trivial) hs,hint,hstale,hread⟩

end Runs

end SurfaceBuffer

end DirectFB
