import DirectFB.Reaches
import DirectFB.Types

/-! A `DirectStream` of a pipe: look-ahead bytes in a cache, and fresh ones from the pipe. -/
namespace DirectFB.PipeStream
open Transition

/-- The stream, with the bytes of the pipe that were not read yet. The size of the cache is
its length. -/
structure DirectStream where
  cache : List UInt8
  offset : ℕ
  pipe : List UInt8

/-- What `read()` does: it returns some of the bytes, up to a number, or none, or fails. -/
inductive ReadResult
  | bytes (n : ℕ)
  | again
  | error

/-- What a call answers, and does to the buffer of the caller: how many bytes are stored, and
which ones. `request` is what `read()` was asked for, and the room for it. -/
structure Call where
  ret : DirectResult
  size : ℕ := 0
  stored : List UInt8 := []
  request : Option (ℕ × ℕ) := none

/-- A difference of two `unsigned int`. -/
def sub32 (a b : ℕ) : ℕ := (a+2^32-b) % 2^32

/-- `read()` from the pipe: the bytes, or the `errno`. -/
def readFd (s : DirectStream) (request : ℕ) : ReadResult → Except DirectResult (List UInt8)
  | .bytes n => .ok (s.pipe.take (min n request))
  | .again => .error .busy
  | .error => .error .failure

/-- `pipe_peek` where the cache is too small. -/
def peekMore (s : DirectStream) (len offset : ℕ) (r : ReadResult) : DirectStream × Call :=
  if 2^31 ≤ len then ({s with cache := []},{ret := .noLocalMemory})
  else
    let request := sub32 len s.cache.length
    match readFd s request r with
    | .error ret =>
      if ret ≠ .busy ∨ s.cache = [] then (s,{ret := ret, request := some (request,request)})
      else if s.cache.length ≤ offset then
        (s,{ret := .bufferEmpty, request := some (request,request)})
      else
        (s,{
          ret := .ok
          size := s.cache.length-offset
          stored := s.cache.drop offset
          request := some (request,request)})
    | .ok bytes =>
      let t := {s with cache := s.cache++bytes, pipe := s.pipe.drop bytes.length}
      if t.cache.length ≤ offset then
        (t,{ret := .bufferEmpty, request := some (request,request)})
      else
        (t,{
          ret := .ok
          size := t.cache.length-offset
          stored := t.cache.drop offset
          request := some (request,request)})

/-- `pipe_peek` -/
def pipePeek (s : DirectStream) (length : ℕ) (offset : ℤ) (r : ReadResult) : DirectStream × Call :=
  if offset < 0 then (s,{ret := .unsupported})
  else
    let len := (length+offset.toNat) % 2^32
    if len > s.cache.length then peekMore s len offset.toNat r
    else (s,{ret := .ok, size := length, stored := (s.cache.drop offset.toNat).take length})

/-- `pipe_read`, with `read()` from the pipe for what the cache does not have. -/
def pipeRead (s : DirectStream) (length : ℕ) (r : ReadResult) : DirectStream × Call :=
  let size := min s.cache.length length
  let rest := length-size
  let t := {s with cache := s.cache.drop size}
  if rest = 0 then
    ({t with offset := t.offset+size},{ret := .ok, size := size, stored := s.cache.take size})
  else
    let request := sub32 rest size
    match readFd s request r with
    | .error ret =>
      if size = 0 then
        (t,{
          ret := if ret = .busy then .bufferEmpty else ret
          request := some (request,rest)})
      else
        ({t with offset := t.offset+size},{
          ret := .ok
          size := size
          stored := s.cache.take size
          request := some (request,rest)})
    | .ok bytes =>
      if bytes = [] ∧ size = 0 then (t,{ret := .eof, request := some (request,rest)})
      else
        ({t with
          offset := t.offset+(size+bytes.length)
          pipe := s.pipe.drop bytes.length},{
          ret := .ok
          size := size+bytes.length
          stored := s.cache.take size++bytes
          request := some (request,rest)})

/-- `direct_stream_peek` and `direct_stream_read`, of a stream without a known length. -/
inductive Event
  | peek (length : ℕ) (offset : ℤ) (r : ReadResult)
  | read (length : ℕ) (r : ReadResult)

def call (s : DirectStream) : Event → DirectStream × Call
  | .peek length offset r => pipePeek s length offset r
  | .read length r => pipeRead s length r

structure State where
  stream : DirectStream
  returned : List UInt8

def consumed (e : Event) (c : Call) : List UInt8 :=
  match e with
  | .read _ _ => if c.ret = .ok then c.stored else []
  | .peek _ _ _ => []

/-- The arguments are an `unsigned int` and an `int` that is not negative. -/
def Event.proper : Event → Prop
  | .peek length offset _ => 0 < length ∧ length < 2^32 ∧ 0 ≤ offset ∧ offset < 2^31
  | .read length _ => 0 < length ∧ length < 2^32

instance (e : Event) : Decidable e.proper := by
  cases e <;> exact inferInstanceAs (Decidable (_ ∧ _))

def Event.length : Event → ℕ
  | .peek length _ _ => length
  | .read length _ => length

def step (x : State) (e : Event) : Option State :=
  if e.proper then
    some ⟨(call x.stream e).1,x.returned++consumed e (call x.stream e).2⟩
  else none

def init (content : List UInt8) (x : State) : Prop := x = ⟨⟨[],0,content⟩,[]⟩

/-- A peek reaches no further than an `int`, and a read that needs more than what is cached
needs at least twice as much. -/
def Kept (x : State) : Event → Prop
  | .peek length offset _ => length+offset < 2^31
  | .read length _ => x.stream.cache.length < length → 2*x.stream.cache.length ≤ length

theorem sub32_eq {a b : ℕ} (h : b ≤ a) (ha : a < 2^32) : sub32 a b = a-b := by
  unfold sub32
  omega

/-- What was read is what the pipe had first. -/
theorem readFd_ok {s : DirectStream} {request : ℕ} {r : ReadResult} {bytes : List UInt8}
    (h : readFd s request r = .ok bytes) :
    bytes++s.pipe.drop bytes.length = s.pipe ∧ bytes.length ≤ request := by
  cases r with
  | bytes n =>
    obtain rfl := Except.ok.inj h
    refine ⟨?_,?_⟩
    · rw [List.length_take]
      by_cases hle : min n request ≤ s.pipe.length
      · rw [min_eq_left hle]
        exact List.take_append_drop _ _
      · push Not at hle
        rw [min_eq_right hle.le,List.take_of_length_le hle.le,List.drop_length,List.append_nil]
    · rw [List.length_take]
      omega
  | again => cases h
  | error => cases h

/-- A call stores what it says, no more than is wanted, and asks for no more than there is room
for. -/
structure Call.Fits (c : Call) (length : ℕ) : Prop where
  stored : c.stored.length = c.size
  size : c.size ≤ length
  request : ∀ q, c.request = some q → q.1 ≤ q.2

theorem Call.fits_failed {ret : DirectResult} {length : ℕ} {request : Option (ℕ × ℕ)}
    (h : ∀ q, request = some q → q.1 ≤ q.2) :
    Call.Fits {ret := ret, request := request} length := ⟨rfl,Nat.zero_le _,h⟩

section Peek
variable {s : DirectStream} {length len offset : ℕ} {r : ReadResult}

/-- Of the bytes that are cached or to come a peek moves some to the cache, and returns those
from the offset on. -/
structure Peeked (s t : DirectStream) (c : Call) (length offset : ℕ) : Prop where
  bytes : t.cache++t.pipe = s.cache++s.pipe
  same : t.offset = s.offset
  fits : c.Fits length
  stored : c.ret = .ok → c.stored <+: (s.cache++s.pipe).drop offset

theorem peeked_more (hlen : len = length+offset) (hmore : s.cache.length < len) (hint : len < 2^31) :
    Peeked s (peekMore s len offset r).1 (peekMore s len offset r).2 length offset := by
  have hrequest : sub32 len s.cache.length = len-s.cache.length := sub32_eq hmore.le (by omega)
  have hroom : ∀ q, some (len-s.cache.length,len-s.cache.length) = some q → q.1 ≤ q.2 := by
    intro q hq
    obtain rfl := Option.some.inj hq
    exact le_rfl
  unfold peekMore
  rw [if_neg (by omega)]
  dsimp only
  rw [hrequest]
  cases hread : readFd s (len-s.cache.length) r with
  | error ret =>
    dsimp only
    split_ifs with hfail hempty
    · exact ⟨rfl,rfl,Call.fits_failed hroom,fun hok => by
        change ret = .ok at hok
        cases r <;> cases hread <;> cases hok⟩
    · exact ⟨rfl,rfl,Call.fits_failed hroom,fun hok => by cases hok⟩
    · refine ⟨rfl,rfl,⟨List.length_drop,?_,hroom⟩,fun _ => ?_⟩
      · change s.cache.length-offset ≤ length
        omega
      · dsimp only
        rw [List.drop_append_of_le_length (by omega)]
        exact List.prefix_append _ _
  | ok bytes =>
    obtain ⟨hpipe,hle⟩ := readFd_ok hread
    have hbytes : (s.cache++bytes)++s.pipe.drop bytes.length = s.cache++s.pipe := by
      rw [List.append_assoc,hpipe]
    dsimp only
    split_ifs with hempty
    · exact ⟨hbytes,rfl,Call.fits_failed hroom,fun hok => by cases hok⟩
    · refine ⟨hbytes,rfl,⟨List.length_drop,?_,hroom⟩,fun _ => ?_⟩
      · change (s.cache++bytes).length-offset ≤ length
        rw [List.length_append]
        omega
      · dsimp only
        rw [← hbytes,List.drop_append_of_le_length (not_le.mp hempty).le]
        exact List.prefix_append _ _

theorem peeked (hint : length+offset < 2^31) :
    Peeked s (pipePeek s length offset r).1 (pipePeek s length offset r).2 length offset := by
  unfold pipePeek
  rw [if_neg (by omega)]
  dsimp only
  rw [Int.toNat_natCast,Nat.mod_eq_of_lt (by omega)]
  split_ifs with hmore
  · exact peeked_more rfl hmore hint
  · refine ⟨rfl,rfl,⟨?_,le_rfl,fun q hq => (by cases hq)⟩,fun _ => ?_⟩
    · dsimp only
      rw [List.length_take,List.length_drop]
      omega
    · dsimp only
      rw [List.drop_append_of_le_length (by omega)]
      exact (List.take_prefix _ _).trans (List.prefix_append _ _)

end Peek

section Read
variable {s : DirectStream} {length : ℕ} {r : ReadResult}

/-- A read takes the first of the bytes that are cached or to come, if it succeeds. -/
structure Taken (s t : DirectStream) (c : Call) (length : ℕ) : Prop where
  bytes : (if c.ret = .ok then c.stored else [])++(t.cache++t.pipe) = s.cache++s.pipe
  offset : t.offset = s.offset+(if c.ret = .ok then c.stored else []).length
  fits : c.Fits length

theorem taken (hlength : length < 2^32)
    (hkept : s.cache.length < length → 2*s.cache.length ≤ length) :
    Taken s (pipeRead s length r).1 (pipeRead s length r).2 length := by
  unfold pipeRead
  dsimp only
  by_cases hcached : length ≤ s.cache.length
  · -- the cache has it all
    rw [min_eq_right hcached,if_pos (Nat.sub_self length)]
    have htake : (s.cache.take length).length = length := by
      rw [List.length_take]
      omega
    refine ⟨?_,?_,⟨htake,le_rfl,fun q hq => (by cases hq)⟩⟩
    · dsimp only
      rw [if_pos rfl,← List.append_assoc,List.take_append_drop]
    · dsimp only
      rw [if_pos rfl,htake]
  · push Not at hcached
    have hhalf := hkept hcached
    have hrequest : sub32 (length-s.cache.length) s.cache.length =
        length-s.cache.length-s.cache.length := sub32_eq (by omega) (by omega)
    rw [min_eq_left hcached.le,if_neg (by omega),hrequest,List.take_length,List.drop_length]
    generalize hreq : length-s.cache.length-s.cache.length = request
    have hroom : ∀ q, some (request,length-s.cache.length) = some q → q.1 ≤ q.2 := by
      intro q hq
      obtain rfl := Option.some.inj hq
      dsimp only
      omega
    cases hread : readFd s request r with
    | error ret =>
      dsimp only
      by_cases hempty : s.cache.length = 0
      · rw [if_pos hempty]
        have hnil := List.length_eq_zero_iff.mp hempty
        have hne : (if ret = DirectResult.busy then DirectResult.bufferEmpty else ret) ≠ .ok := by
          cases r <;> cases hread <;> decide
        refine ⟨?_,?_,Call.fits_failed hroom⟩
        · dsimp only
          rw [if_neg hne,hnil]
          rfl
        · dsimp only
          rw [if_neg hne]
          rfl
      · rw [if_neg hempty]
        refine ⟨?_,rfl,⟨rfl,hcached.le,hroom⟩⟩
        dsimp only
        rw [if_pos rfl,List.nil_append]
    | ok bytes =>
      obtain ⟨hpipe,hle⟩ := readFd_ok hread
      dsimp only
      by_cases hempty : bytes = [] ∧ s.cache.length = 0
      · rw [if_pos hempty]
        have hnil := List.length_eq_zero_iff.mp hempty.2
        refine ⟨?_,?_,Call.fits_failed hroom⟩
        · dsimp only
          rw [if_neg (by decide),hnil]
          rfl
        · dsimp only
          rw [if_neg (by decide)]
          rfl
      · rw [if_neg hempty]
        refine ⟨?_,?_,⟨List.length_append,?_,hroom⟩⟩
        · dsimp only
          rw [if_pos rfl,List.nil_append,List.append_assoc,hpipe]
        · dsimp only
          rw [if_pos rfl,List.length_append]
        · dsimp only
          omega

end Read

section Run
variable {content : List UInt8} {x y : State}

structure Inv (content : List UInt8) (x : State) : Prop where
  content : content = x.returned++(x.stream.cache++x.stream.pipe)
  offset : x.stream.offset = x.returned.length

theorem inv_step (h : Inv content x) {e : Event} (hkept : Kept x e) (hs : step x e = some y) :
    Inv content y := by
  unfold step at hs
  split_ifs at hs with hproper
  obtain rfl := Option.some.inj hs
  cases e with
  | peek length offset r =>
    obtain ⟨-,-,hoffset,-⟩ := hproper
    lift offset to ℕ using hoffset
    have hint : (length : ℤ)+offset < 2^31 := hkept
    have hint' : length+offset < 2^31 := by omega
    have hpeeked := peeked (s := x.stream) (r := r) hint'
    refine ⟨?_,?_⟩
    · change content = (x.returned++[])++_
      rw [List.append_nil]
      exact h.content.trans (congrArg _ hpeeked.bytes.symm)
    · change (pipePeek x.stream length offset r).1.offset = (x.returned++[]).length
      rw [List.append_nil]
      exact hpeeked.same.trans h.offset
  | read length r =>
    have htaken := taken (s := x.stream) (r := r) hproper.2 hkept
    refine ⟨?_,?_⟩
    · change content = (x.returned++consumed _ _)++_
      rw [List.append_assoc]
      exact h.content.trans (congrArg _ htaken.bytes.symm)
    · change (pipeRead x.stream length r).1.offset = (x.returned++consumed _ _).length
      rw [List.length_append,← h.offset]
      exact htaken.offset

theorem init_inv (h : init content x) : Inv content x := by
  obtain rfl := h
  exact ⟨rfl,rfl⟩

/-- What the successful reads returned is how the content begins, `offset` is its length, and no
byte is lost. Each call fits its buffers, and a peek returns the content from where it looks. -/
theorem stream_is_queue (h : Reaches step Kept (init content) x) :
    content = x.returned++(x.stream.cache++x.stream.pipe) ∧
    x.stream.offset = x.returned.length ∧
    ∀ e, e.proper → Kept x e → (call x.stream e).2.Fits e.length ∧
      ∀ length offset r, e = .peek length offset r → (call x.stream e).2.ret = .ok →
        (call x.stream e).2.stored <+: content.drop (x.stream.offset+offset.toNat) := by
  have hinv : Inv content x := h.invariant (Inv content) (fun _ => init_inv)
    fun _ _ _ hi hk hs => inv_step hi hk hs
  refine ⟨hinv.content,hinv.offset,fun e hproper hkept => ?_⟩
  cases e with
  | peek length offset r =>
    obtain ⟨-,-,hoffset,-⟩ := hproper
    lift offset to ℕ using hoffset
    have hint : (length : ℤ)+offset < 2^31 := hkept
    have hint' : length+offset < 2^31 := by omega
    have hpeeked := peeked (s := x.stream) (r := r) hint'
    refine ⟨hpeeked.fits,fun length' offset' r' he hok => ?_⟩
    obtain ⟨rfl,rfl,rfl⟩ := Event.peek.inj he
    have hdrop : content.drop (x.stream.offset+offset) =
        (x.stream.cache++x.stream.pipe).drop offset := by
      rw [hinv.offset,hinv.content,List.drop_append]
      simp
    rw [Int.toNat_natCast,hdrop]
    exact hpeeked.stored hok
  | read length r =>
    exact ⟨(taken (s := x.stream) (r := r) hproper.2 hkept).fits,fun _ _ _ he => by cases he⟩

/-- Three bytes are read in two pieces, of which the second is looked at first. -/
theorem peek_then_read : ∃ x, Reaches step Kept (init [1,2,3]) x ∧ x.returned = [1,2,3] ∧
    x.stream.offset = x.returned.length := by
  have h0 : Reaches step Kept (init [1,2,3]) ⟨⟨[],0,[1,2,3]⟩,[]⟩ := .init rfl
  have h1 := h0.step (Event.peek 1 0 (.bytes 1)) (show (1 : ℤ)+0 < 2^31 by decide) rfl
  have h2 := h1.step (Event.read 4 (.bytes 8)) (fun _ => by decide) rfl
  exact ⟨_,h2,rfl,(stream_is_queue h2).2.1⟩

/-- Two bytes are cached. Of a read of three bytes the one that is missing is read with a
request for nearly 2^32 bytes. -/
theorem read_after_peek_overflows : ∃ x, exec step ⟨⟨[],0,[1,2,3,4,5]⟩,[]⟩
    [.peek 2 0 (.bytes 2)] = some x ∧
    (call x.stream (.read 3 (.bytes 3))).2.request = some (2^32-1,1) ∧
    (call x.stream (.read 3 (.bytes 3))).2.stored = [1,2,3,4,5] ∧
    ¬(call x.stream (.read 3 (.bytes 3))).2.Fits 3 :=
  ⟨_,rfl,rfl,rfl,fun h => absurd (h.request _ rfl) (by decide)⟩

end Run

end DirectFB.PipeStream
