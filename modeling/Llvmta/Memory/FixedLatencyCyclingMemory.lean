import Llvmta.Memory.AbstractCyclingMemory

/-!
# A memory of fixed latency

An access takes a time that depends on its width only, and never stalls the pipeline.
-/

namespace Llvmta

open Checked

structure FixedLatencyOptions where
  latency : ℕ
  perWordLatency : ℕ
  deriving DecidableEq, Repr

structure FixedLatencyCyclingMemory where
  timeBlocked : ℕ
  fastForwardedAccessCycles : IntervalCounter
  deriving DecidableEq, Repr

namespace FixedLatencyCyclingMemory

variable (opts : FixedLatencyOptions)

def isBusy (m : FixedLatencyCyclingMemory) : Bool := decide (0 < m.timeBlocked)

def announceAccess (m : FixedLatencyCyclingMemory) (_addr : AbstractAddress) (_t : AccessType)
    (numWords : ℕ) : Except Fault (List FixedLatencyCyclingMemory) := do
  assertThat (!m.isBusy) "Don't announce an access to a busy memory!"
  .ok [{ m with timeBlocked := opts.latency + numWords * opts.perWordLatency }]

def isJoinable (m m' : FixedLatencyCyclingMemory) : Bool := m.timeBlocked == m'.timeBlocked

def join (m m' : FixedLatencyCyclingMemory) : Except Fault FixedLatencyCyclingMemory := do
  assertThat (isJoinable m m') "Cannot join non-joinable generic cycling memories"
  .ok { m with
    fastForwardedAccessCycles := m.fastForwardedAccessCycles.join m'.fastForwardedAccessCycles }

def fastForward (m : FixedLatencyCyclingMemory) :
    Except Fault (List FixedLatencyCyclingMemory) := do
  assertThat m.isBusy "One should only fast-forward busy memories!"
  .ok [{ timeBlocked := 1, fastForwardedAccessCycles :=
    m.fastForwardedAccessCycles.add (.ofValue (m.timeBlocked - 1)) }]

/-- The memory as a cycling memory. -/
def fixedLatency : AbstractCyclingMemory FixedLatencyCyclingMemory where
  new := ⟨0, .ofValue 0⟩
  isBusy := isBusy
  cycle := fun m => .ok [{ m with timeBlocked := m.timeBlocked - 1 }]
  announceAccess := announceAccess opts
  fastForward := fastForward
  shouldPipelineStall := fun _ => false
  isJoinable := isJoinable
  join := join
  resetLocalMetrics := fun m => { m with fastForwardedAccessCycles := .ofValue 0 }

end FixedLatencyCyclingMemory

end Llvmta
