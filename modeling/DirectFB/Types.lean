import Mathlib.Tactic

/-! Result codes shared by the modelled libraries. -/
namespace DirectFB

/-- The codes of `DirectResult`, and of `DFBResult` under the same values, that
the modelled functions answer with. -/
inductive DirectResult
  | ok | bug | busy | noLocalMemory | itemNotFound | bufferEmpty | suspended | tempUnavail
  | noVideoMemory | failure | invArg | unimplemented | unsupported | destroyed | fusion | io | eof
  | noContext | invArea
  deriving DecidableEq, Repr

/-- How a buffer may be swapped between system and video memory. -/
inductive CoreSurfacePolicy
  | systemOnly | videoLow | videoHigh | videoOnly
  deriving DecidableEq, Repr

/-- `CoreSurfaceAccessFlags`, one field for each bit of `CSAF_ALL`. -/
structure CoreSurfaceAccessFlags where
  read : Bool := false
  write : Bool := false
  shared : Bool := false
  cacheInvalidate : Bool := false
  cacheFlush : Bool := false
  deriving DecidableEq, Repr

/-- `D_FLAGS_ARE_SET`. -/
def CoreSurfaceAccessFlags.areSet (flags required : CoreSurfaceAccessFlags) : Bool :=
  (flags.read || !required.read) && (flags.write || !required.write) &&
  (flags.shared || !required.shared) && (flags.cacheInvalidate || !required.cacheInvalidate) &&
  (flags.cacheFlush || !required.cacheFlush)

/-- `CSAID_CPU`. -/
def csaidCPU : ℕ := 1

/-- `_CSAID_NUM`, the number of statically assigned accessors. -/
def csaidNum : ℕ := 24

/-- `CSAID_ANY`, the first of the accessors to be registered. -/
def csaidAny : ℕ := 256

/-- The life of a task, from its construction to its last reference. -/
inductive TaskState
  | new | flushed | ready | running | done | finish | dead | invalid
  deriving DecidableEq, Repr

end DirectFB
