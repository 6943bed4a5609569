import DirectFB.Reaches
import DirectFB.Types

/-! The streamed `IDirectFBDataBuffer`: a list of data chunks, the first of which may be consumed
in part, and their total length. -/
namespace DirectFB.DataBufferStreamed
open Transition

structure DataChunk where
  data : List UInt8
  done : ℕ
  left : done < data.length

/-- The private data of `IDirectFBDataBuffer_Streamed`. -/
structure Data where
  chunks : List DataChunk
  length : ℕ
  finished : Bool

/-- What a call answers: the number it returns, and the bytes it stores for the caller. -/
structure Answer where
  ret : DirectResult
  out : ℕ := 0
  stored : List UInt8 := []
  deriving DecidableEq

/-- `create_chunk`, whose `length` is an `int`. -/
def createChunk (data : List UInt8) (memory : Bool) : Option DataChunk :=
  if h : 0 < data.length ∧ data.length < 2^31 ∧ memory = true then some ⟨data,0,h.1⟩ else none

/-- `ReadChunkData`: the chunks left, and the bytes stored. -/
def readChunkData (flush : Bool) : List DataChunk → ℕ → ℕ → List DataChunk × List UInt8
  | [], _, _ => ([],[])
  | c::cs, offset, length =>
    let off := min offset (c.data.length-c.done)
    let len := min length (c.data.length-c.done-off)
    let bytes := (c.data.drop (c.done+off)).take len
    let rest := readChunkData flush cs (offset-off) (length-len)
    if flush then
      if h : c.done+(len+off) = c.data.length then (rest.1,bytes++rest.2)
      else
        ({c with
          done := c.done+(len+off)
          left := by have := c.left; omega}::rest.1,bytes++rest.2)
    else (c::rest.1,bytes++rest.2)

/-- The methods, with whether the pointers given are not `NULL` and allocation succeeds. -/
inductive Call
  | putData (dataBuffer : Option (List UInt8)) (memory : Bool)
  | getData (length : ℕ) (dataBuffer : Bool)
  | peekData (length : ℕ) (offset : ℤ) (dataBuffer : Bool)
  | flush
  | hasData
  | getLength (length : Bool)
  | finish

def noData (finished : Bool) : DirectResult := if finished then .eof else .bufferEmpty

/-- `IDirectFBDataBuffer_Streamed_PutData` -/
def putData (s : Data) (dataBuffer : Option (List UInt8)) (memory : Bool) : Data × Answer :=
  match dataBuffer with
  | none => (s,{ret := .invArg})
  | some bytes =>
    if bytes.length = 0 then (s,{ret := .invArg})
    else if s.finished then (s,{ret := .unsupported})
    else
      match createChunk bytes memory with
      | none => (s,{ret := .noLocalMemory})
      | some c =>
        ({s with chunks := s.chunks++[c], length := (s.length+bytes.length) % 2^32},{ret := .ok})

/-- `IDirectFBDataBuffer_Streamed_GetData` -/
def getData (s : Data) (length : ℕ) (dataBuffer : Bool) : Data × Answer :=
  if dataBuffer = false ∨ length = 0 then (s,{ret := .invArg})
  else if s.chunks.isEmpty then (s,{ret := noData s.finished})
  else
    let len := min length s.length
    let read := readChunkData true s.chunks 0 len
    ({s with chunks := read.1, length := s.length-len},{ret := .ok, out := len, stored := read.2})

/-- `IDirectFBDataBuffer_Streamed_PeekData` -/
def peekData (s : Data) (length : ℕ) (offset : ℤ) (dataBuffer : Bool) : Data × Answer :=
  if dataBuffer = false ∨ length = 0 ∨ offset < 0 then (s,{ret := .invArg})
  else if s.chunks.isEmpty ∨ s.length ≤ offset.toNat then (s,{ret := noData s.finished})
  else
    let len := min length (s.length-offset.toNat)
    let read := readChunkData false s.chunks offset.toNat len
    ({s with chunks := read.1},{ret := .ok, out := len, stored := read.2})

def perform (s : Data) : Call → Data × Answer
  | .putData dataBuffer memory => putData s dataBuffer memory
  | .getData length dataBuffer => getData s length dataBuffer
  | .peekData length offset dataBuffer => peekData s length offset dataBuffer
  -- `DestroyAllChunks`
  | .flush => ({s with chunks := []},{ret := .ok})
  | .hasData => (s,{ret := if s.chunks.isEmpty then noData s.finished else .ok})
  | .getLength length => (s,if length then {ret := .ok, out := s.length} else {ret := .invArg})
  | .finish => ({s with finished := true},{ret := .ok})

/-- The condition of the loop in `WaitForData`. -/
def waits (s : Data) (length : ℕ) : Bool := s.length < length && !s.finished

/-- The buffer, with the bytes that were put and neither read nor flushed, and whether `Finish`
was called. -/
structure State where
  data : Data
  unread : List UInt8
  finished : Bool

def Call.unread (c : Call) (ret : DirectResult) (unread : List UInt8) : List UInt8 :=
  match c with
  | .putData (some bytes) _ => if ret = .ok then unread++bytes else unread
  | .getData length true => unread.drop length
  | .flush => []
  | _ => unread

def Call.finished (c : Call) (finished : Bool) : Bool :=
  match c with
  | .finish => true
  | _ => finished

def step (x : State) (c : Call) : Option State :=
  some ⟨(perform x.data c).1,c.unread (perform x.data c).2.ret x.unread,c.finished x.finished⟩

def init (x : State) : Prop := x = ⟨⟨[],0,false⟩,[],false⟩

def Kept (x : State) : Call → Prop
  | .flush => x.unread = []
  | .putData (some bytes) _ => x.unread.length+bytes.length < 2^32
  | _ => True

def queue (cs : List DataChunk) : List UInt8 := cs.flatMap fun c => c.data.drop c.done

@[simp] theorem queue_nil : queue [] = [] := rfl

@[simp] theorem queue_cons (c : DataChunk) (cs : List DataChunk) :
    queue (c::cs) = c.data.drop c.done++queue cs := rfl

theorem queue_append (cs ds : List DataChunk) : queue (cs++ds) = queue cs++queue ds :=
  List.flatMap_append

theorem queue_eq_nil {cs : List DataChunk} : queue cs = [] ↔ cs.isEmpty = true := by
  cases cs with
  | nil => exact iff_of_true rfl rfl
  | cons c cs =>
    have hleft := c.left
    refine iff_of_false (fun h => ?_) (by simp)
    have hlen := congrArg List.length (List.append_eq_nil_iff.mp h).1
    rw [List.length_drop,List.length_nil] at hlen
    omega

section Read

/-- What is stored are the bytes from the offset on. -/
theorem readChunkData_stored (flush : Bool) (cs : List DataChunk) (offset length : ℕ) :
    (readChunkData flush cs offset length).2 = ((queue cs).drop offset).take length := by
  induction cs generalizing offset length with
  | nil => simp [readChunkData]
  | cons c cs ih =>
    have hstored : (readChunkData flush (c::cs) offset length).2 =
        (c.data.drop (c.done+min offset (c.data.length-c.done))).take
          (min length (c.data.length-c.done-min offset (c.data.length-c.done)))++
        (readChunkData flush cs (offset-min offset (c.data.length-c.done))
          (length-min length (c.data.length-c.done-min offset (c.data.length-c.done)))).2 := by
      rw [readChunkData]
      split_ifs <;> rfl
    rw [hstored,ih,queue_cons,List.drop_append,List.take_append,List.drop_drop,List.length_drop,
      List.length_drop]
    by_cases hoff : offset ≤ c.data.length-c.done
    · rw [min_eq_left hoff]
      congr 1
      · by_cases hlen : length ≤ c.data.length-c.done-offset
        · rw [min_eq_left hlen]
        · push Not at hlen
          rw [min_eq_right hlen.le,List.take_of_length_le (by rw [List.length_drop]; omega),
            List.take_of_length_le (by rw [List.length_drop]; omega)]
      · congr 1
        · omega
        · congr 1
          omega
    · push Not at hoff
      have hdata : c.data.length ≤ c.done+(c.data.length-c.done) := by omega
      rw [min_eq_right hoff.le,Nat.sub_self,Nat.min_zero,Nat.sub_zero,List.take_zero,
        List.nil_append,List.drop_of_length_le (by omega : c.data.length ≤ c.done+offset),
        List.take_nil,List.nil_append]
      congr 1
      omega

theorem readChunkData_left (cs : List DataChunk) (offset length : ℕ) :
    queue (readChunkData true cs offset length).1 = (queue cs).drop (offset+length) := by
  induction cs generalizing offset length with
  | nil => simp [readChunkData]
  | cons c cs ih =>
    have hleft := c.left
    rw [queue_cons,List.drop_append,List.drop_drop,List.length_drop,readChunkData,if_pos rfl]
    split_ifs with hdone
    · rw [ih,List.drop_of_length_le (by omega : c.data.length ≤ c.done+(offset+length)),
        List.nil_append]
      congr 1
      omega
    · rw [queue_cons,ih]
      dsimp only
      congr 1
      · congr 1
        omega
      · congr 1
        omega

theorem readChunkData_kept (cs : List DataChunk) (offset length : ℕ) :
    (readChunkData false cs offset length).1 = cs := by
  induction cs generalizing offset length with
  | nil => rfl
  | cons c cs ih => rw [readChunkData,if_neg (by decide),ih]

end Read

structure Inv (x : State) : Prop where
  queue : queue x.data.chunks = x.unread
  length : x.data.length = x.unread.length
  bound : x.unread.length < 2^32
  finished : x.data.finished = x.finished

structure ByteQueue (x : State) : Prop where
  length : x.data.length = x.unread.length
  getLength : (perform x.data (.getLength true)).2 = {ret := .ok, out := x.unread.length}
  getData : ∀ length, 0 < length → (perform x.data (.getData length true)).2 =
    if x.unread = [] then {ret := noData x.finished}
    else {ret := .ok, out := min length x.unread.length, stored := x.unread.take length}
  peekData : ∀ length offset : ℕ, 0 < length → (perform x.data (.peekData length offset true)).2 =
      if x.unread.drop offset = [] then {ret := noData x.finished}
      else {
        ret := .ok
        out := min length (x.unread.length-offset)
        stored := (x.unread.drop offset).take length}
  hasData : (perform x.data .hasData).2 = {ret := if x.unread = [] then noData x.finished else .ok}
  flush : queue (perform x.data .flush).1.chunks = []
  waits : ∀ length, waits x.data length = true ↔ x.unread.length < length ∧ x.finished = false

section Inv
variable {x : State}

theorem Inv.isEmpty (h : Inv x) : x.data.chunks.isEmpty = true ↔ x.unread = [] := by
  rw [← h.queue]
  exact queue_eq_nil.symm

theorem Inv.getData (h : Inv x) {length : ℕ} (hlength : 0 < length) :
    perform x.data (.getData length true) =
      if x.unread = [] then (x.data,{ret := noData x.finished})
      else
        ({x.data with
          chunks := (readChunkData true x.data.chunks 0 (min length x.unread.length)).1
          length := x.unread.length-min length x.unread.length},
        {ret := .ok, out := min length x.unread.length, stored := x.unread.take length}) := by
  have hstored : (readChunkData true x.data.chunks 0 (min length x.unread.length)).2 =
      x.unread.take length := by
    rw [readChunkData_stored,h.queue,List.drop_zero,← List.take_eq_take_min]
  change DataBufferStreamed.getData x.data length true = _
  unfold DataBufferStreamed.getData
  rw [if_neg (by simp; omega),h.length]
  by_cases hempty : x.unread = []
  · rw [if_pos (h.isEmpty.mpr hempty),if_pos hempty,h.finished]
  · rw [if_neg (mt h.isEmpty.mp hempty),if_neg hempty]
    dsimp only
    rw [hstored]

theorem Inv.peekData (h : Inv x) {length : ℕ} (offset : ℕ) (hlength : 0 < length) :
    perform x.data (.peekData length offset true) = (x.data,
        if x.unread.drop offset = [] then {ret := noData x.finished}
        else {
          ret := .ok
          out := min length (x.unread.length-offset)
          stored := (x.unread.drop offset).take length}) := by
  have hstored : (readChunkData false x.data.chunks offset
      (min length (x.unread.length-offset))).2 = (x.unread.drop offset).take length := by
    rw [readChunkData_stored,h.queue,← List.length_drop,← List.take_eq_take_min]
  have hempty : x.data.chunks.isEmpty = true ∨ x.unread.length ≤ offset ↔
      x.unread.drop offset = [] := by
    rw [List.drop_eq_nil_iff,h.isEmpty]
    refine ⟨?_,.inr⟩
    rintro (hnil | hle)
    · rw [hnil]
      exact Nat.zero_le _
    · exact hle
  change DataBufferStreamed.peekData x.data length offset true = _
  unfold DataBufferStreamed.peekData
  rw [if_neg (by simp; omega),h.length,Int.toNat_natCast]
  by_cases hoffset : x.unread.drop offset = []
  · rw [if_pos (hempty.mpr hoffset),if_pos hoffset,h.finished]
  · rw [if_neg (mt hempty.mp hoffset),if_neg hoffset]
    dsimp only
    rw [hstored,readChunkData_kept,← h.length]

theorem Inv.hasData (h : Inv x) : (perform x.data .hasData).2 =
    {ret := if x.unread = [] then noData x.finished else .ok} := by
  change Answer.mk _ _ _ = _
  rw [h.finished]
  by_cases hempty : x.unread = []
  · rw [if_pos (h.isEmpty.mpr hempty),if_pos hempty]
  · rw [if_neg (mt h.isEmpty.mp hempty),if_neg hempty]

theorem Inv.byteQueue (h : Inv x) : ByteQueue x := by
  refine ⟨h.length,?_,fun length hlength => ?_,fun length offset hlength => ?_,h.hasData,rfl,
    fun length => ?_⟩
  · change Answer.mk _ _ _ = _
    rw [h.length]
  · rw [h.getData hlength,apply_ite Prod.snd]
  · rw [h.peekData offset hlength]
  · unfold waits
    rw [h.length,h.finished,Bool.and_eq_true,decide_eq_true_eq,Bool.not_eq_true']

theorem init_inv (h : init x) : Inv x := by
  obtain rfl := h
  exact ⟨rfl,rfl,by decide,rfl⟩

theorem putData_inv (h : Inv x) {bytes : List UInt8} {memory : Bool}
    (hkept : x.unread.length+bytes.length < 2^32) :
    Inv ⟨(putData x.data (some bytes) memory).1,
      (Call.putData (some bytes) memory).unread (putData x.data (some bytes) memory).2.ret x.unread,
      x.finished⟩ := by
  unfold putData
  dsimp only
  split_ifs with hzero hfinished
  · exact h
  · exact h
  · unfold createChunk
    split_ifs with hnew
    · refine ⟨?_,?_,?_,h.finished⟩
      · change queue (x.data.chunks++[_]) = x.unread++bytes
        rw [queue_append,h.queue,queue_cons,queue_nil,List.append_nil,List.drop_zero]
      · change (x.data.length+bytes.length) % 2^32 = (x.unread++bytes).length
        rw [h.length,List.length_append,Nat.mod_eq_of_lt hkept]
      · change (x.unread++bytes).length < 2^32
        rw [List.length_append]
        exact hkept
    · exact h

theorem getData_inv (h : Inv x) {length : ℕ} (hlength : 0 < length) :
    Inv ⟨(perform x.data (.getData length true)).1,x.unread.drop length,x.finished⟩ := by
  rw [h.getData hlength]
  by_cases hempty : x.unread = []
  · rw [if_pos hempty,hempty,List.drop_nil]
    exact ⟨h.queue.trans hempty,h.length.trans (by rw [hempty]),Nat.two_pow_pos 32,h.finished⟩
  · rw [if_neg hempty]
    have hbound := h.bound
    refine ⟨?_,?_,?_,h.finished⟩
    · change queue (readChunkData true x.data.chunks 0 (min length x.unread.length)).1 = _
      rw [readChunkData_left,h.queue,Nat.zero_add]
      by_cases hle : length ≤ x.unread.length
      · rw [min_eq_left hle]
      · push Not at hle
        rw [min_eq_right hle.le,List.drop_length,List.drop_of_length_le hle.le]
    · change x.unread.length-min length x.unread.length = (x.unread.drop length).length
      rw [List.length_drop]
      omega
    · change (x.unread.drop length).length < 2^32
      rw [List.length_drop]
      omega

theorem step_inv {c : Call} {y : State} (h : Inv x) (hkept : Kept x c) (hs : step x c = some y) :
    Inv y := by
  obtain rfl := Option.some.inj hs
  cases c with
  | putData dataBuffer memory =>
    cases dataBuffer with
    | none => exact h
    | some bytes => exact putData_inv h hkept
  | getData length dataBuffer =>
    cases dataBuffer with
    | false => exact h
    | true =>
      obtain rfl | hpos := Nat.eq_zero_or_pos length
      · exact h
      · exact getData_inv h hpos
  | peekData length offset dataBuffer =>
    have hsame : (perform x.data (.peekData length offset dataBuffer)).1 = x.data := by
      change (peekData x.data length offset dataBuffer).1 = x.data
      unfold peekData
      split_ifs
      · rfl
      · rfl
      · dsimp only
        rw [readChunkData_kept]
    change Inv ⟨(perform x.data (.peekData length offset dataBuffer)).1,x.unread,x.finished⟩
    rw [hsame]
    exact h
  | flush =>
    -- nothing was left, and the length is that of nothing
    have hempty : x.unread = [] := hkept
    exact ⟨rfl,h.length.trans (by rw [hempty]; rfl),Nat.two_pow_pos 32,h.finished⟩
  | hasData => exact h
  | getLength length => exact h
  | finish => exact ⟨h.queue,h.length,h.bound,rfl⟩

end Inv

/-- The buffer is a byte queue in all runs that do not flush bytes and do not queue 4 GB. -/
theorem streamed_is_queue {x : State} (h : Reaches step Kept init x) : ByteQueue x :=
  (h.invariant Inv (fun _ => init_inv) (fun _ _ _ => step_inv)).byteQueue

/-- After three bytes one is read, and the other two are a queue. -/
theorem two_bytes_left : ByteQueue ⟨(perform (perform ⟨[],0,false⟩ (.putData (some [1,2,3]) true)).1
      (.getData 1 true)).1,[2,3],false⟩ :=
  streamed_is_queue (.step (.getData 1 true) (.step (.putData (some [1,2,3]) true) (.init rfl)
    (by change 0+3 < 2^32; decide) rfl) trivial rfl)

/-- `Flush` leaves the length: three bytes are flushed, one is put, and a read of three bytes
returns three of which only one was stored. -/
theorem read_after_flush : ∃ x, Reaches step (fun _ _ => True) init x ∧
    x.unread = [4] ∧ x.data.length = 4 ∧
    (perform x.data (.getData 3 true)).2 = {ret := .ok, out := 3, stored := [4]} ∧
    ¬ ByteQueue x := by
  refine ⟨_,.step (.putData (some [4]) true) (.step .flush (.step (.putData (some [1,2,3]) true)
    (.init rfl) trivial rfl) trivial rfl) trivial rfl,rfl,rfl,by decide,fun h => ?_⟩
  have hlength := h.length
  revert hlength
  decide

end DirectFB.DataBufferStreamed
