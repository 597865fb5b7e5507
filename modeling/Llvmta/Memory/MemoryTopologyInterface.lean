import Llvmta.Library.Successors
import Llvmta.Memory.AbstractCache

/-!
# Memory topologies

A memory topology takes instruction and data accesses and serves them cycle by
cycle. An access is known by an identifier, which is given relative to a counter
when two topologies are compared. Zero stands for no access.
-/

namespace Llvmta

/-- Scopes are told apart by their identifier. -/
abbrev PersistenceScope := ℕ

structure Access where
  id : ℕ
  addr : AbstractAddress
  load_store : AccessType
  numWords : ℕ
  deriving DecidableEq, Repr

/-- Prevents zero from being used as an identifier. -/
def nextId (currentId : ℕ) : ℕ :=
  let id := toUnsigned (currentId + 1)
  if id = 0 then 1 else id

section Comparison

variable (firstCurrentId secondCurrentId : ℕ)

/-- `firstId - firstCurrentId == secondId - secondCurrentId`, in 32 bits. -/
def sameRelativeId (firstId secondId : ℕ) : Bool :=
  toUnsigned (firstId + 2 ^ 32 - firstCurrentId) == toUnsigned (secondId + 2 ^ 32 - secondCurrentId)

def areAccessIdsEqual (firstId secondId : ℕ) : Bool :=
  (firstId == 0 && secondId == 0) ||
    ((firstId != 0 && secondId != 0) &&
      sameRelativeId firstCurrentId secondCurrentId firstId secondId)

def areAccessesEqual (ac1 ac2 : Access) : Bool :=
  sameRelativeId firstCurrentId secondCurrentId ac1.id ac2.id &&
    ac1.addr.isSameInterval ac2.addr && ac1.load_store == ac2.load_store &&
    ac1.numWords == ac2.numWords

/-- Only the first accesses are compared. -/
def areQueuesEqual (queue1 queue2 : List Access) : Bool :=
  queue1.length == queue2.length &&
    match queue1, queue2 with
    | ac1 :: _, ac2 :: _ => areAccessesEqual firstCurrentId secondCurrentId ac1 ac2
    | _, _ => true

end Comparison

/-- The interface of memory topologies. -/
structure MemoryTopologyInterface (μ : Type) where
  new : μ
  /-- the identifier of the access, or none if it is rejected -/
  accessInstr : μ → (addr numWords : ℕ) → Except Fault (Option ℕ × μ)
  accessData : μ → AbstractAddress → AccessType → (numWords : ℕ) → Except Fault (Option ℕ × μ)
  cycle : (potentialDataMissesPending : Bool) → μ → Except Fault (List μ)
  shouldPipelineStall : μ → Bool
  /-- whether the access is finished; if so, this is forgotten -/
  finishedInstrAccess : μ → (accessId : ℕ) → Bool × μ
  finishedDataAccess : μ → (accessId : ℕ) → Bool × μ
  isJoinable : μ → μ → Bool
  join : μ → μ → Except Fault μ
  fastForward : μ → Except Fault (List μ)
  resetLocalMetrics : μ → μ

structure WritePolicy where
  writeBack : Bool
  writeAllocate : Bool
  deriving DecidableEq, Repr

/-- The interface of caches. -/
structure AbstractCache (κ : Type) where
  new : (assumeAnEmptyCache : Bool) → κ
  classify : κ → AbstractAddress → Except Fault Classification
  update : κ → AbstractAddress → AccessType → (wantReport : Bool) →
    (assumption : Classification) → Except Fault (κ × Option UpdateReport)
  join : κ → κ → Except Fault κ
  enterScope : κ → PersistenceScope → κ
  leaveScope : κ → PersistenceScope → κ
  alignToCacheline : ℕ → ℕ
  getHitLatency : ℕ
  getWritePolicy : WritePolicy

end Llvmta
