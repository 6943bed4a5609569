import DirectFB.Circular
import DirectFB.Reaches
import DirectFB.Types

/-! A stream of FusionSound: a ring buffer that is filled by the users of the stream and emptied by
the mixer, which tells the stream about it by notifications. -/
namespace DirectFB.SoundStream
open Function (update update_of_ne update_self)
open Transition

structure Config where
  size : ℕ
  prebuffer : ℤ
  size_pos : 0 < size
  prebuffer_nonneg : 0 ≤ prebuffer

/-- `CorePlayback`. It is in the playlist while it is running. -/
structure Playback where
  disabled : Bool
  running : Bool
  position : ℕ
  stop : ℕ

/-- `CorePlaybackNotification`, by its flags. -/
inductive Notification
  | start
  | advance (pos num : ℕ) (stop : Bool)
  | stop (pos : ℕ)

structure Source (α : Type*) where
  data : ℕ → α
  length : ℕ

/-- A user of the stream, who waits for free samples, may store to what `Access` returned, or waits
for the playback to stop. -/
inductive User (α : Type*)
  | idle
  | writing (s : Source α)
  | accessed (pos num : ℕ)
  | flushing

/-- Whether `fs_playback_set_stop` and `fs_core_add_playback` succeed. -/
structure Answers where
  setStop : ℕ → Bool
  add : Bool

/-- The stream, the playback and the notifications that are not delivered yet, with all samples that
were written and not flushed, and those that the mixer has passed. -/
structure State (α τ : Type*) where
  filled : ℤ
  posRead : ℕ
  posWrite : ℕ
  playing : Bool
  pending : ℕ
  buffer : ℕ → α
  playback : Playback
  notifications : List Notification
  users : τ → User α
  written : List α
  passed : List α

variable {α τ : Type*}

/-- `fs_playback_start`, always with `enable`. -/
def playbackStart (x : State α τ) (add : Bool) : State α τ :=
  if x.playback.running ∨ ¬ add then {x with playback := {x.playback with disabled := false}}
  else {x with
    playback := {x.playback with disabled := false, running := true}
    notifications := x.notifications++[.start]}

/-- `fs_playback_stop`, always with `disable`. -/
def playbackStop (x : State α τ) : State α τ :=
  if x.playback.running then {x with
    playback := {x.playback with disabled := true, running := false}
    notifications := x.notifications++[.stop x.playback.position]}
  else {x with playback := {x.playback with disabled := true}}

section Client

variable (cfg : Config)

def advanceWrite (x : State α τ) (num : ℕ) (setStop : ℕ → Bool) : DirectResult × State α τ :=
  let pos := if x.posWrite+num = cfg.size then 0 else x.posWrite+num
  if setStop pos then
    (.ok,{x with
      posWrite := pos
      playback := {x.playback with stop := pos, disabled := false}
      filled := x.filled+num})
  else (.fusion,{x with posWrite := pos})

/-- `IFusionSoundStream_FillBuffer`, with at most as many rounds as samples. -/
def fillBuffer (setStop : ℕ → Bool) : ℕ → State α τ → (ℕ → α) → ℕ → DirectResult × State α τ
  | 0, x, _, _ => (.ok,x)
  | fuel+1, x, data, length =>
    if length = 0 then (.ok,x)
    else
      let num := min length (cfg.size-x.posWrite)
      let x := {x with buffer := Circular.put x.buffer x.posWrite num data}
      match advanceWrite cfg x num setStop with
      | (.ok,y) => fillBuffer setStop fuel y (fun i => data (num+i)) (length-num)
      | r => r

def restart (x : State α τ) (add : Bool) : State α τ :=
  if x.playing = false ∧ 0 ≤ cfg.prebuffer ∧ cfg.prebuffer ≤ x.filled then playbackStart x add else x

variable [DecidableEq τ]

def State.setUser (x : State α τ) (t : τ) (u : User α) : State α τ :=
  {x with users := update x.users t u}

def State.fits (x : State α τ) : ℕ := min (cfg.size-x.filled).toNat x.pending

/-- `IFusionSoundStream_Write` under the lock, until it waits or returns. If anything is left after
one round the buffer is full. -/
def writeSection (x : State α τ) (t : τ) (s : Source α) (a : Answers) : State α τ :=
  if x.filled = cfg.size then x.setUser t (.writing s)
  else
    let num := x.fits cfg
    match fillBuffer cfg a.setStop num x s.data num with
    | (.ok,y) =>
      let y := restart cfg y a.add
      let y := {y with
        pending := y.pending-num
        written := y.written++(List.range (min num s.length)).map s.data}
      if y.pending = 0 then y.setUser t .idle
      else y.setUser t (.writing ⟨fun i => s.data (num+i),s.length-num⟩)
    | (_,y) => y.setUser t .idle

/-- `IFusionSoundStream_Commit` -/
def commit (x : State α τ) (t : τ) (pos length : ℕ) (a : Answers) : State α τ :=
  if length > cfg.size-x.filled then x
  else if length = 0 then x.setUser t .idle
  else
    match advanceWrite cfg x length a.setStop with
    | (.ok,y) =>
      let y := restart cfg y a.add
      {y with written := y.written++(List.range length).map fun i => x.buffer (pos+i)}.setUser t .idle
    | (_,y) => y.setUser t .idle

/-- The end of `IFusionSoundStream_Flush`. What was not passed is flushed. -/
def reset (x : State α τ) (t : τ) : State α τ :=
  {x with posWrite := x.posRead, filled := 0, written := x.passed}.setUser t .idle

/-- `FS_PITCH_BITS` -/
def pitchBits : ℕ := 14

/-- `fs_playback_mixto` with `fs_buffer_mixto`, for a number of frames and the pitch in the rate of
the device. -/
def mixto (x : State α τ) (frames inc : ℕ) : State α τ :=
  let pos := x.playback.position
  let stop := if pos ≥ x.playback.stop then x.playback.stop+cfg.size else x.playback.stop
  let tmp := (stop-pos)*2^pitchBits
  let max := frames*inc
  let last := decide (max ≥ tmp)
  let num := (if last then tmp else max)/2^pitchBits
  let next := (pos+num) % cfg.size
  {x with
    playback := {x.playback with position := next, running := !last}
    notifications := x.notifications++[.advance next num last]
    passed := x.passed++Circular.read cfg.size x.buffer pos num}

/-- `IFusionSoundStream_React` -/
def react (x : State α τ) : Notification → State α τ
  | .start => {x with playing := true}
  | .advance pos num stop => {x with
    filled := x.filled-num, posRead := pos, playing := if stop then false else x.playing}
  | .stop pos => {x with posRead := pos, playing := false}

inductive Event (α τ : Type*)
  | write (t : τ) (s : Source α) (a : Answers)
  | resume (t : τ) (a : Answers)
  | access (t : τ)
  | store (t : τ) (i : ℕ) (sample : α)
  | commit (t : τ) (length : ℕ) (a : Answers)
  | flush (t : τ)
  | reset (t : τ)
  | drop
  | mix (frames inc : ℕ)
  | deliver

/-- A writer whose data was dropped returns when it goes on. A commit is of what was accessed. -/
def step (x : State α τ) : Event α τ → Option (State α τ)
  | .write t s a => match x.users t with
    | .idle => if s.length = 0 then none
      else some (writeSection cfg {x with pending := s.length} t s a)
    | _ => none
  | .resume t a => match x.users t with
    | .writing s => some (if x.pending = 0 then x.setUser t .idle else writeSection cfg x t s a)
    | _ => none
  | .access t => match x.users t with
    | .idle => if x.filled = cfg.size then none
      else some (x.setUser t (.accessed x.posWrite
        (min (cfg.size-x.filled).toNat (cfg.size-x.posWrite))))
    | _ => none
  | .store t i sample => match x.users t with
    | .accessed pos num =>
      if i < num then some {x with buffer := update x.buffer (pos+i) sample} else none
    | _ => none
  | .commit t length a => match x.users t with
    | .accessed pos num => if length ≤ num then some (commit cfg x t pos length a) else none
    | _ => none
  | .flush t => match x.users t with
    | .idle => some ((playbackStop x).setUser t .flushing)
    | _ => none
  | .reset t => match x.users t with
    | .flushing => if x.playing then none else some (reset x t)
    | _ => none
  | .drop => some {x with pending := 0}
  | .mix frames inc => if x.playback.running then some (mixto cfg x frames inc) else none
  | .deliver => match x.notifications with
    | [] => none
    | n::rest => some (react {x with notifications := rest} n)

end Client

structure Initial (x : State α τ) : Prop where
  filled : x.filled = 0
  posRead : x.posRead = 0
  posWrite : x.posWrite = 0
  playing : x.playing = false
  playback : x.playback = ⟨true,false,0,0⟩
  notifications : x.notifications = []
  users : ∀ t, x.users t = .idle
  written : x.written = []
  passed : x.passed = []

section Queue

variable {cfg : Config} {x y : State α τ} {unplayed : List α}

def Notification.num : Notification → ℕ
  | .start => 0
  | .advance _ num _ => num
  | .stop _ => 0

def underWay (l : List Notification) : ℕ := (l.map Notification.num).sum

def Leads (size : ℕ) : ℕ → List Notification → ℕ → Prop
  | p, [], q => p = q
  | p, .start::l, q => Leads size p l q
  | p, .advance pos num _::l, q => pos = (p+num) % size ∧ Leads size pos l q
  | p, .stop pos::l, q => pos = p ∧ Leads size pos l q

@[simp] theorem underWay_append (l : List Notification) (n : Notification) :
    underWay (l++[n]) = underWay l+n.num := by
  simp [underWay]

@[simp] theorem underWay_cons (n : Notification) (l : List Notification) :
    underWay (n::l) = n.num+underWay l := by
  simp [underWay]

theorem Leads.append {size p q r : ℕ} {l : List Notification} {n : Notification}
    (h : Leads size p l q) (hn : Leads size q [n] r) : Leads size p (l++[n]) r := by
  induction l generalizing p with
  | nil =>
    obtain rfl : p = q := h
    exact hn
  | cons m l ih =>
    cases m with
    | start => exact ih h
    | advance pos num stop => exact ⟨h.1,ih h.2⟩
    | stop pos => exact ⟨h.1,ih h.2⟩

theorem Leads.eq {size p q : ℕ} {l : List Notification} (h : Leads size p l q) (hp : p < size) :
    q = (p+underWay l) % size := by
  induction l generalizing p with
  | nil =>
    obtain rfl : p = q := h
    exact (Nat.mod_eq_of_lt hp).symm
  | cons m l ih =>
    rw [underWay_cons]
    cases m with
    | start => rw [ih h hp,Notification.num,Nat.zero_add]
    | advance pos num stop =>
      obtain ⟨rfl,h⟩ := h
      rw [ih h (Nat.mod_lt _ (by omega)),Nat.mod_add_mod,Nat.add_assoc,Notification.num]
    | stop pos =>
      obtain ⟨rfl,h⟩ := h
      rw [ih h hp,Notification.num,Nat.zero_add]

/-- The samples that are to be passed lie before the write position, and are counted as long as the
stream does not know them passed. -/
structure Queue (cfg : Config) (x : State α τ) (unplayed : List α) : Prop where
  position : x.playback.position < cfg.size
  posWrite : x.posWrite = (x.playback.position+unplayed.length) % cfg.size
  filled : x.filled = unplayed.length+underWay x.notifications
  le : x.filled ≤ cfg.size
  holds : Circular.Holds cfg.size x.buffer x.playback.position unplayed

def Fills (x y : State α τ) : Prop :=
  ∃ buffer posWrite filled stop disabled, y = {x with
    buffer := buffer, posWrite := posWrite, filled := filled
    playback := {x.playback with stop := stop, disabled := disabled}}

theorem Fills.refl (x : State α τ) : Fills x x := ⟨_,_,_,_,_,rfl⟩

theorem Fills.trans {z : State α τ} (h : Fills x y) (h' : Fills y z) : Fills x z := by
  obtain ⟨_,_,_,_,_,rfl⟩ := h
  obtain ⟨b,p,f,s,d,rfl⟩ := h'
  exact ⟨b,p,f,s,d,rfl⟩

theorem Queue.posWrite_lt (h : Queue cfg x unplayed) : x.posWrite < cfg.size := by
  rw [h.posWrite]
  exact Nat.mod_lt _ cfg.size_pos

theorem Queue.length_le (h : Queue cfg x unplayed) : (unplayed.length : ℤ) ≤ x.filled := by
  rw [h.filled]
  omega

/-- What lies in the free cells at the write position is added to the queue. -/
theorem advanceWrite_spec (h : Queue cfg x unplayed) (num : ℕ) {setStop : ℕ → Bool}
    (hset : ∀ p, setStop p = true) (hend : x.posWrite+num ≤ cfg.size)
    (hfree : x.filled+num ≤ cfg.size) : ∃ y, advanceWrite cfg x num setStop = (.ok,y) ∧
      Queue cfg y (unplayed++(List.range num).map fun i => x.buffer (x.posWrite+i)) ∧
      y.filled = x.filled+num ∧ y.playback.stop = y.posWrite ∧ Fills x y := by
  have hnext : (if x.posWrite+num = cfg.size then 0 else x.posWrite+num) =
      (x.posWrite+num) % cfg.size := by
    split_ifs with hsize
    · rw [hsize,Nat.mod_self]
    · exact (Nat.mod_eq_of_lt (by omega)).symm
  refine ⟨_,if_pos (hset _),⟨h.position,?_,?_,hfree,h.holds.extend h.posWrite hend⟩,rfl,rfl,
    ⟨_,_,_,_,_,rfl⟩⟩
  · dsimp only
    rw [hnext,Circular.after_append,List.length_map,List.length_range,← h.posWrite]
  · have hfilled := h.filled
    dsimp only
    rw [List.length_append,List.length_map,List.length_range,hfilled]
    push_cast
    ring

theorem fillBuffer_spec {setStop : ℕ → Bool} (hset : ∀ p, setStop p = true) {fuel : ℕ} :
    ∀ {x : State α τ} (data : ℕ → α) (length : ℕ) {unplayed : List α}, Queue cfg x unplayed →
      length ≤ fuel → x.filled+length ≤ cfg.size → ∃ y,
        fillBuffer cfg setStop fuel x data length = (.ok,y) ∧
        Queue cfg y (unplayed++(List.range length).map data) ∧ y.filled = x.filled+length ∧
        ((length = 0 → x.playback.stop = x.posWrite) → y.playback.stop = y.posWrite) ∧
        Fills x y := by
  induction fuel with
  | zero =>
    intro x data length unplayed h hfuel _
    obtain rfl := Nat.le_zero.mp hfuel
    refine ⟨x,rfl,?_,by simp,fun hstop => hstop rfl,.refl x⟩
    simpa using h
  | succ fuel ih =>
    intro x data length unplayed h hfuel hfree
    by_cases hzero : length = 0
    · subst hzero
      refine ⟨x,if_pos rfl,?_,by simp,fun hstop => hstop rfl,.refl x⟩
      simpa using h
    have hlt := h.posWrite_lt
    have hlen := h.length_le
    obtain ⟨num,hnum⟩ : ∃ num, num = min length (cfg.size-x.posWrite) := ⟨_,rfl⟩
    have hbounds : 0 < num ∧ num ≤ length ∧ x.posWrite+num ≤ cfg.size := by omega
    let copied := {x with buffer := Circular.put x.buffer x.posWrite num data}
    have hcopied : Queue cfg copied unplayed :=
      ⟨h.position,h.posWrite,h.filled,h.le,h.holds.put h.posWrite hbounds.2.2 (by omega) data⟩
    obtain ⟨y,hy,hqueue,hfilled,hstop,hfills⟩ := advanceWrite_spec hcopied num hset hbounds.2.2
      (by change x.filled+_ ≤ _; omega)
    have hcells : (List.range num).map (fun i => copied.buffer (copied.posWrite+i)) =
        (List.range num).map data := Circular.put_cells _ _ _ _
    rw [hcells] at hqueue
    change y.filled = x.filled+num at hfilled
    have hloop : fillBuffer cfg setStop (fuel+1) x data length =
        fillBuffer cfg setStop fuel y (fun i => data (num+i)) (length-num) := by
      rw [fillBuffer,if_neg hzero]
      dsimp only
      rw [← hnum,hy]
    obtain ⟨z,hz,hqueue',hfilled',hstop',hfills'⟩ := ih (fun i => data (num+i))
      (length-num) hqueue (by omega) (by omega)
    have hcopies : Fills x copied := ⟨_,_,_,_,_,rfl⟩
    refine ⟨z,hloop.trans hz,?_,by omega,fun _ => hstop' fun _ => hstop,
      (hcopies.trans hfills).trans hfills'⟩
    rwa [List.append_assoc,Circular.range_map_append hbounds.2.1] at hqueue'

end Queue

section Invariant

variable {cfg : Config} {x y : State α τ} {unplayed : List α}

/-- The queue, what the notifications say of it, and where a running playback stops. -/
structure Flow (cfg : Config) (x : State α τ) (unplayed : List α) : Prop where
  queue : Queue cfg x unplayed
  posRead : x.posRead < cfg.size
  leads : Leads cfg.size x.posRead x.notifications x.playback.position
  running : x.playback.running = true → unplayed ≠ [] ∧ x.playback.stop = x.posWrite

/-- At most one user writes, who is waiting for all that is left of the data or was told to drop it,
and what is accessed does not go round. -/
structure Users (cfg : Config) (users : τ → User α) (pending : ℕ) : Prop where
  writer : ∀ t s, users t = .writing s → pending = 0 ∨ pending = s.length
  alone : ∀ t u s r, users t = .writing s → users u = .writing r → t = u
  access : ∀ t pos num, users t = .accessed pos num → pos+num ≤ cfg.size

def Unflushed (x : State α τ) : Prop := ∀ t, x.users t ≠ .flushing

structure Inv (cfg : Config) (x : State α τ) (unplayed : List α) : Prop where
  flow : Flow cfg x unplayed
  written : x.written = x.passed++unplayed
  started : Unflushed x → unplayed ≠ [] → cfg.prebuffer ≤ unplayed.length →
    x.playback.running = true
  users : Users cfg x.users x.pending

theorem restart_eq (cfg : Config) (x : State α τ) (add : Bool) :
    ∃ playback notifications, restart cfg x add =
      {x with playback := playback, notifications := notifications} := by
  unfold restart playbackStart
  split_ifs <;> exact ⟨_,_,rfl⟩

/-- What is written is played if enough is there, where the stream does not take a playback for
running that has stopped. -/
theorem restart_spec (h : Flow cfg x unplayed) (hne : unplayed ≠ [])
    (hstop : x.playback.stop = x.posWrite) :
    Flow cfg (restart cfg x true) unplayed ∧
    ((x.playing = true → x.playback.running = true ∨ (unplayed.length : ℤ) < cfg.prebuffer) →
      cfg.prebuffer ≤ unplayed.length → (restart cfg x true).playback.running = true) := by
  have hlen := h.queue.length_le
  unfold restart
  split_ifs with hc
  · unfold playbackStart
    split_ifs with hr
    · have hrunning : x.playback.running = true := by simpa using hr
      refine ⟨⟨⟨h.queue.position,h.queue.posWrite,h.queue.filled,h.queue.le,h.queue.holds⟩,
        h.posRead,h.leads,h.running⟩,fun _ _ => hrunning⟩
    · refine ⟨⟨⟨h.queue.position,h.queue.posWrite,?_,h.queue.le,h.queue.holds⟩,h.posRead,
        h.leads.append (n := .start) rfl,fun _ => ⟨hne,hstop⟩⟩,fun _ _ => rfl⟩
      have hfilled := h.queue.filled
      dsimp only
      rwa [underWay_append]
  · refine ⟨h,fun hk hpre => ?_⟩
    have hplaying : x.playing = true := by
      by_contra hp
      exact hc ⟨by simpa using hp,cfg.prebuffer_nonneg,hpre.trans hlen⟩
    exact (hk hplaying).resolve_right (not_lt.mpr hpre)

variable [DecidableEq τ]

theorem Users.set {users : τ → User α} {pending next : ℕ} (h : Users cfg users pending) {t : τ}
    {u : User α} (hw : ∀ s, u = .writing s → next = 0 ∨ next = s.length)
    (hothers : (∀ v ≠ t, ∀ s, users v ≠ .writing s) ∨ next = pending ∧ ∀ s, u ≠ .writing s)
    (ha : ∀ pos num, u = .accessed pos num → pos+num ≤ cfg.size) :
    Users cfg (update users t u) next := by
  refine ⟨fun v s hv => ?_,fun v w s r hv hw' => ?_,fun v pos num hv => ?_⟩
  · by_cases hvt : v = t
    · rw [hvt,update_self] at hv
      exact hw s hv
    · rw [update_of_ne hvt] at hv
      rcases hothers with hothers | ⟨rfl,-⟩
      · exact absurd hv (hothers v hvt s)
      · exact h.writer v s hv
  · have hother : ∀ v s, update users t u v = .writing s → v ≠ t →
        next = pending ∧ (∀ s, u ≠ .writing s) ∧ users v = .writing s := by
      intro v s hv hvt
      rw [update_of_ne hvt] at hv
      rcases hothers with hothers | ⟨hn,hu⟩
      · exact absurd hv (hothers v hvt s)
      · exact ⟨hn,hu,hv⟩
    by_cases hvt : v = t <;> by_cases hwt : w = t
    · rw [hvt,hwt]
    · rw [hvt,update_self] at hv
      exact absurd hv ((hother w r hw' hwt).2.1 s)
    · rw [hwt,update_self] at hw'
      exact absurd hw' ((hother v s hv hvt).2.1 r)
    · exact h.alone v w s r (hother v s hv hvt).2.2 (hother w r hw' hwt).2.2
  · by_cases hvt : v = t
    · rw [hvt,update_self] at hv
      exact ha pos num hv
    · rw [update_of_ne hvt] at hv
      exact h.access v pos num hv

theorem Users.idle {users : τ → User α} {pending : ℕ} (h : Users cfg users pending) (t : τ) :
    Users cfg (update users t .idle) pending :=
  h.set (fun _ h => nomatch h) (.inr ⟨rfl,fun _ h => nomatch h⟩) (fun _ _ h => nomatch h)

theorem unflushed_of_setUser {t : τ} {u : User α} (ht : x.users t ≠ .flushing)
    (h : Unflushed (x.setUser t u)) : Unflushed x := by
  intro v
  by_cases hv : v = t
  · rw [hv]
    exact ht
  · have hu : update x.users t u v ≠ .flushing := h v
    rwa [update_of_ne hv] at hu

def State.left (x : State α τ) : ℕ := x.written.length-x.passed.length

def FillKept (cfg : Config) (x : State α τ) (num : ℕ) (a : Answers) : Prop :=
  (∀ p, a.setStop p = true) ∧ a.add = true ∧ (Unflushed x → x.playing = true →
    x.playback.running = true ∨ ((x.left+num : ℕ) : ℤ) < cfg.prebuffer)

/-- One user writes at a time, stores to free cells and commits what lies at the write position, and
the buffer is reset when nothing is played and the stream knows of all that was. -/
def Kept (cfg : Config) (x : State α τ) : Event α τ → Prop
  | .write _ s a => (∀ u r, x.users u ≠ .writing r) ∧
    (x.filled ≠ cfg.size → FillKept cfg x (min (cfg.size-x.filled).toNat s.length) a)
  | .resume _ a => x.pending ≠ 0 → x.filled ≠ cfg.size → FillKept cfg x (x.fits cfg) a
  | .store t i _ => ∀ pos num, x.users t = .accessed pos num →
    x.posWrite = pos ∧ i < cfg.size-x.filled
  | .commit t length a => ∀ pos num, x.users t = .accessed pos num → length ≠ 0 →
    x.posWrite = pos ∧ FillKept cfg x length a
  | .reset _ => x.playback.running = false ∧ underWay x.notifications = 0
  | _ => True

omit [DecidableEq τ] in
theorem Inv.left (h : Inv cfg x unplayed) : x.left = unplayed.length := by
  rw [State.left,h.written,List.length_append,Nat.add_sub_cancel_left]

/-- What is left after samples were written and the playback was started if it had to be. -/
theorem written_inv (h : Inv cfg x unplayed) {m : List α} (hm : m ≠ []) {a : Answers}
    (hk : FillKept cfg x m.length a) (hfills : Fills x y) (hqueue : Queue cfg y (unplayed++m))
    (hstop : y.playback.stop = y.posWrite) {t : τ} (ht : x.users t ≠ .flushing) {u : User α}
    {next : ℕ} (hu : Users cfg (update x.users t u) next) :
    Inv cfg ({restart cfg y a.add with
      pending := next
      written := (restart cfg y a.add).written++m}.setUser t u) (unplayed++m) := by
  have hne : unplayed++m ≠ [] := fun heq => hm (List.append_eq_nil_iff.mp heq).2
  have hleft := h.left
  obtain ⟨-,hadd,hkept⟩ := hk
  rw [hadd]
  obtain ⟨b,p,f,st,d,rfl⟩ := hfills
  obtain ⟨playback,notifications,heq⟩ := restart_eq cfg _ true
  obtain ⟨hflow,hstarted⟩ := restart_spec
    (⟨hqueue,h.flow.posRead,h.flow.leads,fun _ => ⟨hne,hstop⟩⟩) hne hstop
  rw [heq] at hflow hstarted ⊢
  refine ⟨⟨⟨hflow.queue.position,hflow.queue.posWrite,hflow.queue.filled,hflow.queue.le,
    hflow.queue.holds⟩,hflow.posRead,hflow.leads,hflow.running⟩,?_,fun hun _ hpre => ?_,hu⟩
  · change x.written++m = x.passed++(unplayed++m)
    rw [h.written,List.append_assoc]
  · have hun' : Unflushed x := unflushed_of_setUser (u := u) ht hun
    refine hstarted (fun hplaying => ?_) hpre
    rw [List.length_append,← hleft]
    exact hkept hun' hplaying

theorem writeSection_inv (h : Inv cfg x unplayed) {t : τ} {s : Source α} {a : Answers}
    (hpending : x.pending = s.length) (hpos : s.length ≠ 0) (ht : x.users t ≠ .flushing)
    (hothers : ∀ v ≠ t, ∀ r, x.users v ≠ .writing r)
    (hk : x.filled ≠ cfg.size → FillKept cfg x (x.fits cfg) a) :
    ∃ rest, Inv cfg (writeSection cfg x t s a) rest := by
  unfold writeSection
  split_ifs with hfull
  · refine ⟨unplayed,⟨⟨h.flow.queue.position,h.flow.queue.posWrite,h.flow.queue.filled,
      h.flow.queue.le,h.flow.queue.holds⟩,h.flow.posRead,h.flow.leads,h.flow.running⟩,h.written,
      fun hun => h.started (unflushed_of_setUser ht hun),h.users.set ?_ (.inl hothers)
      (fun _ _ h => nomatch h)⟩
    rintro r ⟨⟩
    exact .inr hpending
  have hle := h.flow.queue.le
  obtain ⟨num,hnum⟩ : ∃ num, num = x.fits cfg := ⟨_,rfl⟩
  have hfits : num = min (cfg.size-x.filled).toNat s.length := by rw [hnum,State.fits,hpending]
  obtain ⟨y,hy,hqueue,-,hstop,hfills⟩ := fillBuffer_spec (hk hfull).1 s.data num h.flow.queue
    (le_refl num) (by omega)
  have hkept := hk hfull
  have hmin : min num s.length = num := by omega
  have hne : (List.range num).map s.data ≠ [] := by
    intro hnil
    have hlen := congrArg List.length hnil
    rw [List.length_map,List.length_range,List.length_nil] at hlen
    omega
  have hlen : ((List.range num).map s.data).length = num := by
    rw [List.length_map,List.length_range]
  have hleft : (restart cfg y a.add).pending = s.length := by
    obtain ⟨playback,notifications,heq⟩ := restart_eq cfg y a.add
    obtain ⟨_,_,_,_,_,rfl⟩ := hfills
    rw [heq]
    exact hpending
  dsimp only
  rw [← hnum,hy,hmin]
  dsimp only
  refine ⟨unplayed++(List.range num).map s.data,?_⟩
  have hstop' := hstop fun hzero => absurd hzero (by omega)
  split_ifs with hzero
  · refine written_inv h hne (by rwa [hlen,hnum]) hfills hqueue hstop' ht ?_
    exact h.users.set (fun _ h => nomatch h) (.inl hothers) (fun _ _ h => nomatch h)
  · refine written_inv h hne (by rwa [hlen,hnum]) hfills hqueue hstop' ht ?_
    refine h.users.set ?_ (.inl hothers) (fun _ _ h => nomatch h)
    rintro r ⟨⟩
    exact .inr (by rw [hleft])

theorem commit_inv (h : Inv cfg x unplayed) {t : τ} {pos num length : ℕ} {a : Answers}
    (ht : x.users t = .accessed pos num) (hlength : length ≤ num)
    (hk : length ≠ 0 → x.posWrite = pos ∧ FillKept cfg x length a) :
    ∃ rest, Inv cfg (commit cfg x t pos length a) rest := by
  have hflush : x.users t ≠ .flushing := fun heq => by rw [ht] at heq; cases heq
  have hend := h.users.access t pos num ht
  unfold commit
  split_ifs with hfree hzero
  · exact ⟨unplayed,h⟩
  · exact ⟨unplayed,⟨⟨h.flow.queue.position,h.flow.queue.posWrite,h.flow.queue.filled,
      h.flow.queue.le,h.flow.queue.holds⟩,h.flow.posRead,h.flow.leads,h.flow.running⟩,h.written,
      fun hun => h.started (unflushed_of_setUser hflush hun),h.users.idle t⟩
  obtain ⟨rfl,hkept⟩ := hk hzero
  obtain ⟨y,hy,hqueue,-,hstop,hfills⟩ :=
    advanceWrite_spec h.flow.queue length hkept.1 (by omega) (by omega)
  obtain ⟨m,hm⟩ : ∃ m, m = (List.range length).map fun i => x.buffer (x.posWrite+i) := ⟨_,rfl⟩
  have hlen : m.length = length := by rw [hm,List.length_map,List.length_range]
  have hne : m ≠ [] := fun hnil => hzero (by rw [← hlen,hnil,List.length_nil])
  have hpending : (restart cfg y a.add).pending = x.pending := by
    obtain ⟨playback,notifications,heq⟩ := restart_eq cfg y a.add
    obtain ⟨_,_,_,_,_,rfl⟩ := hfills
    rw [heq]
  rw [← hm] at hqueue ⊢
  rw [hy]
  refine ⟨unplayed++m,?_⟩
  have husers : Users cfg (update x.users t .idle) (restart cfg y a.add).pending := by
    rw [hpending]
    exact h.users.idle t
  exact written_inv h hne (by rwa [hlen]) hfills hqueue hstop hflush husers

omit [DecidableEq τ] in
theorem mixto_eq (h : Inv cfg x unplayed) (hrunning : x.playback.running = true)
    (frames inc : ℕ) : ∃ num last, mixto cfg x frames inc = {x with
        playback := {x.playback with
          position := (x.playback.position+num) % cfg.size, running := !last}
        notifications := x.notifications++
          [.advance ((x.playback.position+num) % cfg.size) num last]
        passed := x.passed++Circular.read cfg.size x.buffer x.playback.position num} ∧
      num ≤ unplayed.length ∧ (last = false → num < unplayed.length) ∧
      (last = true → num = unplayed.length) := by
  obtain ⟨hne,hstop⟩ := h.flow.running hrunning
  have hpos : 0 < unplayed.length := List.length_pos_iff.mpr hne
  have hle := h.flow.queue.le
  have hlen := h.flow.queue.length_le
  have hposition := h.flow.queue.position
  rw [h.flow.queue.posWrite] at hstop
  -- as the stop position goes round where it must, it is as far away as there is to be passed
  have hdistance : (if x.playback.position ≥ x.playback.stop then x.playback.stop+cfg.size
      else x.playback.stop)-x.playback.position = unplayed.length := by
    by_cases hround : x.playback.position+unplayed.length < cfg.size
    · rw [hstop,Nat.mod_eq_of_lt hround,if_neg (by omega)]
      omega
    · rw [hstop,Nat.mod_eq_sub_mod (by omega),Nat.mod_eq_of_lt (by omega),if_pos (by omega)]
      omega
  refine ⟨_,_,rfl,?_⟩
  rw [hdistance]
  by_cases hlast : frames*inc ≥ unplayed.length*2^pitchBits
  · rw [decide_eq_true hlast,if_pos rfl,Nat.mul_div_cancel _ (by decide)]
    exact ⟨le_rfl,by simp,fun _ => rfl⟩
  · have hlt : frames*inc/2^pitchBits < unplayed.length :=
      (Nat.div_lt_iff_lt_mul (by decide)).mpr (not_le.mp hlast)
    rw [decide_eq_false hlast,if_neg (by decide)]
    exact ⟨hlt.le,fun _ => hlt,by simp⟩

omit [DecidableEq τ] in
theorem mixto_inv (h : Inv cfg x unplayed) (hrunning : x.playback.running = true)
    (frames inc : ℕ) : ∃ rest, Inv cfg (mixto cfg x frames inc) rest := by
  obtain ⟨num,last,hmix,hnum,hnot,hlast⟩ := mixto_eq h hrunning frames inc
  have hqueue := h.flow.queue
  have hleft : (unplayed.drop num).length = unplayed.length-num := List.length_drop
  refine ⟨unplayed.drop num,?_⟩
  rw [hmix]
  refine ⟨⟨⟨Nat.mod_lt _ cfg.size_pos,?_,?_,hqueue.le,hqueue.holds.drop num⟩,h.flow.posRead,
    h.flow.leads.append (n := .advance _ _ _) ⟨rfl,rfl⟩,fun hr => ⟨fun hnil => ?_,?_⟩⟩,?_,
    fun _ hne _ => ?_,h.users⟩
  · exact hqueue.posWrite.trans (Circular.after_drop hnum).symm
  · have hfilled := hqueue.filled
    dsimp only
    rw [hleft,underWay_append,Notification.num,hfilled]
    push_cast
    omega
  · have hlt := hnot (by simpa using hr)
    rw [hnil,List.length_nil] at hleft
    omega
  · exact (h.flow.running hrunning).2
  · dsimp only
    rw [hqueue.holds.read_eq hnum,List.append_assoc,List.take_append_drop]
    exact h.written
  · cases hl : last with
    | false => rfl
    | true =>
      rw [hlast hl,List.drop_length] at hne
      exact absurd rfl hne

omit [DecidableEq τ] in
theorem react_inv {n : Notification} {rest : List Notification} (h : Inv cfg x unplayed)
    (hn : x.notifications = n::rest) :
    Inv cfg (react {x with notifications := rest} n) unplayed := by
  have hqueue := h.flow.queue
  have hfilled := hqueue.filled
  have hle := hqueue.le
  have hleads := h.flow.leads
  rw [hn,underWay_cons] at hfilled
  rw [hn] at hleads
  cases n with
  | start =>
    refine ⟨⟨⟨hqueue.position,hqueue.posWrite,?_,hle,hqueue.holds⟩,h.flow.posRead,hleads,
      h.flow.running⟩,h.written,h.started,h.users⟩
    simpa [Notification.num,react] using hfilled
  | advance pos num stop =>
    obtain ⟨rfl,hleads⟩ := hleads
    refine ⟨⟨⟨hqueue.position,hqueue.posWrite,?_,?_,hqueue.holds⟩,Nat.mod_lt _ cfg.size_pos,hleads,
      h.flow.running⟩,h.written,h.started,h.users⟩
    · simp only [Notification.num] at hfilled
      change x.filled-num = _+(underWay rest : ℤ)
      omega
    · change x.filled-num ≤ _
      omega
  | stop pos =>
    obtain ⟨rfl,hleads⟩ := hleads
    refine ⟨⟨⟨hqueue.position,hqueue.posWrite,?_,hle,hqueue.holds⟩,h.flow.posRead,hleads,
      h.flow.running⟩,h.written,h.started,h.users⟩
    simpa [Notification.num,react] using hfilled

theorem playbackStop_inv (h : Inv cfg x unplayed) (t : τ) :
    Inv cfg ((playbackStop x).setUser t .flushing) unplayed := by
  have hqueue := h.flow.queue
  have husers : Users cfg (update x.users t .flushing) x.pending :=
    h.users.set (fun _ h => nomatch h) (.inr ⟨rfl,fun _ h => nomatch h⟩) (fun _ _ h => nomatch h)
  have hflushing (y : State α τ) : ¬ Unflushed (y.setUser t .flushing) :=
    fun hun => hun t (update_self _ _ _)
  unfold playbackStop
  split_ifs with hrunning
  · refine ⟨⟨⟨hqueue.position,hqueue.posWrite,?_,hqueue.le,hqueue.holds⟩,h.flow.posRead,
      h.flow.leads.append (n := .stop _) ⟨rfl,rfl⟩,fun h => nomatch h⟩,h.written,
      fun hun => absurd hun (hflushing _),husers⟩
    simpa [State.setUser,Notification.num] using hqueue.filled
  · exact ⟨⟨⟨hqueue.position,hqueue.posWrite,hqueue.filled,hqueue.le,hqueue.holds⟩,h.flow.posRead,
      h.flow.leads,h.flow.running⟩,h.written,fun hun => absurd hun (hflushing _),husers⟩

theorem reset_inv (h : Inv cfg x unplayed) (hr : x.playback.running = false)
    (hknown : underWay x.notifications = 0) (t : τ) : Inv cfg (reset x t) [] := by
  have hqueue := h.flow.queue
  have hposition : x.playback.position = x.posRead := by
    rw [h.flow.leads.eq h.flow.posRead,hknown,Nat.add_zero,Nat.mod_eq_of_lt h.flow.posRead]
  refine ⟨⟨⟨hqueue.position,?_,?_,?_,Circular.holds_nil _ _ _⟩,h.flow.posRead,h.flow.leads,
    fun hrunning => ?_⟩,(List.append_nil _).symm,fun _ hne => absurd rfl hne,h.users.idle t⟩
  · change x.posRead = (x.playback.position+0) % cfg.size
    rw [hposition,Nat.add_zero,Nat.mod_eq_of_lt h.flow.posRead]
  · change (0 : ℤ) = 0+(underWay x.notifications : ℤ)
    rw [hknown]
    rfl
  · exact Int.natCast_nonneg _
  · rw [reset] at hrunning
    exact absurd (hr.symm.trans hrunning) (by decide)

omit [DecidableEq τ] in
theorem store_inv (h : Inv cfg x unplayed) {t : τ} {pos num i : ℕ} (sample : α)
    (ht : x.users t = .accessed pos num) (hi : i < num)
    (hk : x.posWrite = pos ∧ (i : ℤ) < cfg.size-x.filled) :
    Inv cfg {x with buffer := update x.buffer (pos+i) sample} unplayed := by
  have hqueue := h.flow.queue
  have hlen := hqueue.length_le
  have hend := h.users.access t pos num ht
  obtain ⟨rfl,hfree⟩ := hk
  exact ⟨⟨⟨hqueue.position,hqueue.posWrite,hqueue.filled,hqueue.le,
    hqueue.holds.update hqueue.posWrite (by omega) (by omega) sample⟩,h.flow.posRead,h.flow.leads,
    h.flow.running⟩,h.written,h.started,h.users⟩

theorem write_inv (h : Inv cfg x unplayed) {t : τ} {s : Source α} {a : Answers}
    (ht : x.users t = .idle) (hpos : s.length ≠ 0) (hothers : ∀ u r, x.users u ≠ .writing r)
    (hk : x.filled ≠ cfg.size → FillKept cfg x (min (cfg.size-x.filled).toNat s.length) a) :
    ∃ rest, Inv cfg (writeSection cfg {x with pending := s.length} t s a) rest := by
  have hpending : Inv cfg {x with pending := s.length} unplayed := by
    refine ⟨⟨⟨h.flow.queue.position,h.flow.queue.posWrite,h.flow.queue.filled,h.flow.queue.le,
      h.flow.queue.holds⟩,h.flow.posRead,h.flow.leads,h.flow.running⟩,h.written,h.started,
      ⟨fun u r hu => absurd hu (hothers u r),h.users.alone,h.users.access⟩⟩
  have hflush : x.users t ≠ .flushing := fun heq => by rw [ht] at heq; cases heq
  exact writeSection_inv hpending rfl hpos hflush (fun v _ r => hothers v r) hk

theorem resume_inv (h : Inv cfg x unplayed) {t : τ} {s : Source α} {a : Answers}
    (ht : x.users t = .writing s)
    (hk : x.pending ≠ 0 → x.filled ≠ cfg.size → FillKept cfg x (x.fits cfg) a) :
    ∃ rest, Inv cfg (if x.pending = 0 then x.setUser t .idle else writeSection cfg x t s a) rest := by
  have hflush : x.users t ≠ .flushing := fun heq => by rw [ht] at heq; cases heq
  split_ifs with hzero
  · exact ⟨unplayed,⟨⟨h.flow.queue.position,h.flow.queue.posWrite,h.flow.queue.filled,
      h.flow.queue.le,h.flow.queue.holds⟩,h.flow.posRead,h.flow.leads,h.flow.running⟩,h.written,
      fun hun => h.started (unflushed_of_setUser hflush hun),h.users.idle t⟩
  · have hpending := (h.users.writer t s ht).resolve_left hzero
    refine writeSection_inv h hpending (hpending ▸ hzero) hflush (fun v hv r hr => ?_) (hk hzero)
    exact hv (h.users.alone v t r s hr ht)

theorem access_inv (h : Inv cfg x unplayed) {t : τ} (ht : x.users t = .idle) :
    Inv cfg (x.setUser t (.accessed x.posWrite
      (min (cfg.size-x.filled).toNat (cfg.size-x.posWrite)))) unplayed := by
  have hflush : x.users t ≠ .flushing := fun heq => by rw [ht] at heq; cases heq
  have hlt := h.flow.queue.posWrite_lt
  refine ⟨⟨⟨h.flow.queue.position,h.flow.queue.posWrite,h.flow.queue.filled,h.flow.queue.le,
    h.flow.queue.holds⟩,h.flow.posRead,h.flow.leads,h.flow.running⟩,h.written,
    fun hun => h.started (unflushed_of_setUser hflush hun),
    h.users.set (fun _ h => nomatch h) (.inr ⟨rfl,fun _ h => nomatch h⟩) ?_⟩
  rintro pos num ⟨⟩
  omega

theorem step_inv {e : Event α τ} (h : Inv cfg x unplayed) (hk : Kept cfg x e)
    (hs : step cfg x e = some y) : ∃ rest, Inv cfg y rest := by
  cases e with
  | write t s a =>
    simp only [step] at hs
    split at hs
    next ht =>
      obtain ⟨hpos,hs⟩ := Option.ite_none_left_eq_some.mp hs
      obtain rfl := Option.some.inj hs
      exact write_inv h ht hpos hk.1 hk.2
    next => cases hs
  | resume t a =>
    simp only [step] at hs
    split at hs
    next s ht =>
      obtain rfl := Option.some.inj hs
      exact resume_inv h ht hk
    next => cases hs
  | access t =>
    simp only [step] at hs
    split at hs
    next ht =>
      obtain ⟨-,hs⟩ := Option.ite_none_left_eq_some.mp hs
      obtain rfl := Option.some.inj hs
      exact ⟨unplayed,access_inv h ht⟩
    next => cases hs
  | store t i sample =>
    simp only [step] at hs
    split at hs
    next pos num ht =>
      obtain ⟨hi,hs⟩ := Option.ite_none_right_eq_some.mp hs
      obtain rfl := Option.some.inj hs
      exact ⟨unplayed,store_inv h sample ht hi (hk pos num ht)⟩
    next => cases hs
  | commit t length a =>
    simp only [step] at hs
    split at hs
    next pos num ht =>
      obtain ⟨hlength,hs⟩ := Option.ite_none_right_eq_some.mp hs
      obtain rfl := Option.some.inj hs
      exact commit_inv h ht hlength (hk pos num ht)
    next => cases hs
  | flush t =>
    simp only [step] at hs
    split at hs
    next =>
      obtain rfl := Option.some.inj hs
      exact ⟨unplayed,playbackStop_inv h t⟩
    next => cases hs
  | reset t =>
    simp only [step] at hs
    split at hs
    next =>
      obtain ⟨-,hs⟩ := Option.ite_none_left_eq_some.mp hs
      obtain rfl := Option.some.inj hs
      exact ⟨[],reset_inv h hk.1 hk.2 t⟩
    next => cases hs
  | drop =>
    obtain rfl := Option.some.inj hs
    exact ⟨unplayed,⟨⟨h.flow.queue.position,h.flow.queue.posWrite,h.flow.queue.filled,
      h.flow.queue.le,h.flow.queue.holds⟩,h.flow.posRead,h.flow.leads,h.flow.running⟩,h.written,
      h.started,⟨fun _ _ _ => .inl rfl,h.users.alone,h.users.access⟩⟩
  | mix frames inc =>
    obtain ⟨hrunning,hs⟩ := Option.ite_none_right_eq_some.mp hs
    obtain rfl := Option.some.inj hs
    exact mixto_inv h hrunning frames inc
  | deliver =>
    simp only [step] at hs
    split at hs
    next => cases hs
    next n rest hn =>
      obtain rfl := Option.some.inj hs
      exact ⟨unplayed,react_inv h hn⟩

theorem reaches_inv (h : Reaches (step cfg) (Kept cfg) Initial x) :
    ∃ unplayed, Inv cfg x unplayed := by
  refine h.invariant (fun x => ∃ unplayed, Inv cfg x unplayed) (fun s hs => ⟨[],?_⟩)
    fun s e t ⟨_,hinv⟩ hk hs => step_inv hinv hk hs
  have hpos := cfg.size_pos
  refine ⟨⟨⟨?_,?_,?_,?_,Circular.holds_nil _ _ _⟩,?_,?_,fun hr => ?_⟩,?_,
    fun _ hne => absurd rfl hne,⟨fun t s' ht => ?_,fun t _ s' _ ht => ?_,fun t _ _ ht => ?_⟩⟩
  · rw [hs.playback]
    exact hpos
  · rw [hs.posWrite,hs.playback]
    exact (Nat.zero_mod _).symm
  · rw [hs.filled,hs.notifications]
    rfl
  · rw [hs.filled]
    exact Int.natCast_nonneg _
  · rw [hs.posRead]
    exact hpos
  · rw [hs.posRead,hs.notifications,hs.playback]
    rfl
  · rw [hs.playback] at hr
    cases hr
  · rw [hs.written,hs.passed]
    rfl
  all_goals
    rw [hs.users t] at ht
    cases ht

/-- The stream is a ring buffer that loses nothing: its fill level and positions agree, what is not
passed yet is in the buffer, the mixer passes what was written in its order, and it is running where
the stream knows of all that was passed, enough is there and no flush is under way. -/
structure Lossless (cfg : Config) (x : State α τ) : Prop where
  bounds : 0 ≤ x.filled ∧ x.filled ≤ cfg.size
  posWrite : (x.posWrite : ℤ) = (x.posRead+x.filled) % cfg.size
  kept : Circular.Holds cfg.size x.buffer x.playback.position (x.written.drop x.passed.length)
  order : x.passed <+: x.written
  running : x.notifications = [] → max cfg.prebuffer 1 ≤ x.filled → Unflushed x →
    x.playback.running = true

omit [DecidableEq τ] in
theorem Inv.lossless (h : Inv cfg x unplayed) : Lossless cfg x := by
  have hqueue := h.flow.queue
  have hlen := hqueue.length_le
  refine ⟨⟨by omega,hqueue.le⟩,?_,?_,⟨unplayed,h.written.symm⟩,fun hnone hfilled hun => ?_⟩
  · rw [hqueue.posWrite,h.flow.leads.eq h.flow.posRead,Nat.mod_add_mod,hqueue.filled]
    push_cast
    congr 1
    ring
  · rw [h.written,List.drop_left]
    exact hqueue.holds
  · have heq := hqueue.filled
    rw [hnone] at heq
    change x.filled = _+(0 : ℤ) at heq
    refine h.started hun (fun hnil => ?_) (by omega)
    rw [hnil,List.length_nil] at heq
    omega

/-- A run whose steps are kept loses no sample. -/
theorem stream_lossless (h : Reaches (step cfg) (Kept cfg) Initial x) : Lossless cfg x := by
  obtain ⟨_,hinv⟩ := reaches_inv h
  exact hinv.lossless

end Invariant

def four : Config := ⟨4,1,by decide,Int.one_nonneg⟩

def silent : State ℕ Unit := ⟨0,0,0,false,0,fun _ => 0,⟨true,false,0,0⟩,[],fun _ => .idle,[],[]⟩

theorem silent_initial : Initial silent := ⟨rfl,rfl,rfl,rfl,rfl,rfl,fun _ => rfl,rfl,rfl⟩

def granted : Answers := ⟨fun _ => true,true⟩

def started : State ℕ Unit :=
  (exec (step four) silent [.write () ⟨fun i => 10+i,3⟩ granted,.deliver]).getD silent

def mixed (frames : ℕ) : State ℕ Unit := (step four started (.mix frames (2^14))).getD silent

def known (frames : ℕ) : State ℕ Unit := (step four (mixed frames) .deliver).getD silent

theorem started_reached : Reaches (step four) (Kept four) Initial started := by
  have hwrite : Kept four silent (.write () ⟨fun i => 10+i,3⟩ granted) :=
    ⟨fun _ _ h => (nomatch h),fun _ => ⟨fun _ => rfl,rfl,fun _ h => (nomatch h)⟩⟩
  exact .step .deliver (.step (.write () ⟨fun i => 10+i,3⟩ granted) (.init silent_initial) hwrite rfl)
    trivial rfl

/-- Of three samples two are passed, and the playback goes on. -/
theorem two_passed : (known 2).passed = [10,11] ∧ (known 2).written = [10,11,12] ∧
    (known 2).filled = 1 ∧ (known 2).playback.running = true ∧ Lossless four (known 2) := by
  have hmix : step four started (.mix 2 (2^14)) = some (mixed 2) := rfl
  have hdeliver : step four (mixed 2) .deliver = some (known 2) := rfl
  exact ⟨by decide,by decide,by decide,by decide,
    stream_lossless (.step .deliver (.step (.mix 2 (2^14)) started_reached trivial hmix) trivial hdeliver)⟩

def crossed : State ℕ Unit :=
  (exec (step four) (mixed 3) [.write () ⟨fun _ => 20,1⟩ granted,.deliver]).getD silent

/-- The sample is not played, though nothing is left to be learned. -/
theorem stop_crosses_write : Reaches (step four) (fun _ _ => True) Initial crossed ∧
    crossed.notifications = [] ∧ crossed.filled = 1 ∧ crossed.playback.running = false ∧
    ¬ Lossless four crossed := by
  have hrun : exec (step four) silent [.write () ⟨fun i => 10+i,3⟩ granted,.deliver,.mix 3 (2^14),
      .write () ⟨fun _ => 20,1⟩ granted,.deliver] = some crossed := rfl
  refine ⟨Reaches.exec (.init silent_initial) (fun _ _ => trivial) hrun,rfl,by decide,by decide,
    fun h => ?_⟩
  exact absurd (h.running rfl (by decide) fun _ h => nomatch h) (by decide)

end DirectFB.SoundStream
