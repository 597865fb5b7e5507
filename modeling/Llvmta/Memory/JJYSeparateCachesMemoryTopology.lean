import Llvmta.Memory.SingleMemoryTopology

/-!
# A topology with two cache levels

Instruction and data accesses go to caches of their own. What misses there is
looked up in a cache they share, and what misses that one as well is fetched from
a background memory topology. The caches are abstract, so that an access is started
in one successor for each outcome that is considered.
-/

namespace Llvmta

open Checked

/-- The options that concern the topology. -/
structure TopologyOptions where
  timingAnomalyAnalysis : Bool
  isBCET : Bool
  preemptiveExecution : Bool
  /-- the persistence types of the three caches are not `NONE` -/
  instrCachePers : Bool
  dataCachePers : Bool
  l2CachePers : Bool
  unblockStores : Bool
  staticallyRefuteWritebacks : Bool
  /-- `WBBound == WBBoundType::DIRTIFYING_STORE` -/
  wbBoundDirtifyingStore : Bool
  enableStrictInorderDataInstrArbitration : Bool
  needAccessedInstructionAddresses : Bool
  needAccessedDataAddresses : Bool
  ilinesize : ℕ
  dlinesize : ℕ
  deriving DecidableEq, Repr

/-- The options of the background memory, a topology without caches. -/
def TopologyOptions.background (opts : TopologyOptions) : SingleMemoryOptions :=
  ⟨true, opts.ilinesize, opts.dlinesize, opts.enableStrictInorderDataInstrArbitration⟩

/-- What an access waits for: its start, a load, the caches, or a store. -/
inductive AccessPhase where
  | waitForSTART
  | waitForLOAD
  | waitForCACHE
  | waitForSTORE
  deriving DecidableEq, Repr

/-- One ongoing access. The identifiers are those in the background memory and in
the second level. -/
structure OngoingAccess where
  access : Access
  phase : AccessPhase
  bgmemStall : Bool
  bgMemAccessId : ℕ
  bgl2AccessId : ℕ
  l1timeBlocked : ℕ
  l2timeBlocked : ℕ
  cl : Classification
  deriving DecidableEq, Repr

def OngoingAccess.ofAccess (acc : Access) : OngoingAccess :=
  ⟨acc, .waitForSTART, false, 0, 0, 0, 0, .clBot⟩

structure MemoryComponent (κ : Type) where
  waitingQueue : List Access
  ongoingAccess : Option OngoingAccess
  finishedId : ℕ
  cache : κ
  justUpdatedCache : Option AbstractAddress
  justMissedCache : Option AbstractAddress
  justDirtifiedLine : Option AbstractAddress
  justWroteBackLine : Bool
  nmisses : ℕ
  numStoreBusAccess : ℕ
  deriving DecidableEq, Repr

namespace MemoryComponent

variable {κ : Type}

def ofCache (cache : κ) : MemoryComponent κ := ⟨[], none, 0, cache, none, none, none, false, 0, 0⟩

/-- Ends the ongoing access and makes its identifier available. -/
def finish (c : MemoryComponent κ) (ongoingAcc : OngoingAccess) : MemoryComponent κ :=
  { c with finishedId := ongoingAcc.access.id, ongoingAccess := none }

def setOngoing (c : MemoryComponent κ) (ongoingAcc : OngoingAccess) : MemoryComponent κ :=
  { c with ongoingAccess := some ongoingAcc }

def ongoingAccessesEqual (myId mcId : ℕ) : Option OngoingAccess → Option OngoingAccess → Bool
  | none, none => true
  | some a, some b =>
    areAccessesEqual myId mcId a.access b.access &&
      (a.bgMemAccessId != 0) == (b.bgMemAccessId != 0) &&
      (a.bgl2AccessId != 0) == (b.bgl2AccessId != 0) &&
      a.l1timeBlocked == b.l1timeBlocked && a.l2timeBlocked == b.l2timeBlocked &&
      a.phase == b.phase && a.bgmemStall == b.bgmemStall && a.cl == b.cl
  | _, _ => false

def equalsWithoutCache (c mc : MemoryComponent κ) (myId mcId : ℕ) : Bool :=
  areQueuesEqual myId mcId c.waitingQueue mc.waitingQueue &&
    ongoingAccessesEqual myId mcId c.ongoingAccess mc.ongoingAccess &&
    areAccessIdsEqual myId mcId c.finishedId mc.finishedId &&
    c.justUpdatedCache == mc.justUpdatedCache && c.justWroteBackLine == mc.justWroteBackLine &&
    c.justDirtifiedLine == mc.justDirtifiedLine

def joinCache (C : AbstractCache κ) (c mc : MemoryComponent κ) :
    Except Fault (MemoryComponent κ) := do
  let cache ← C.join c.cache mc.cache
  assertThat (c.justUpdatedCache == mc.justUpdatedCache) "justUpdatedCache == mc.justUpdatedCache"
  assertThat (c.justDirtifiedLine == mc.justDirtifiedLine)
    "justDirtifiedLine == mc.justDirtifiedLine"
  assertThat (c.justWroteBackLine == mc.justWroteBackLine)
    "justWroteBackLine == mc.justWroteBackLine"
  .ok { c with
    cache
    justMissedCache := if c.justMissedCache = mc.justMissedCache then c.justMissedCache else none
    nmisses := max c.nmisses mc.nmisses
    numStoreBusAccess := max c.numStoreBusAccess mc.numStoreBusAccess }

/-- The first access that waits becomes the ongoing one. -/
def takeWaiting (c : MemoryComponent κ) (front : Access) : MemoryComponent κ :=
  { c with ongoingAccess := some (.ofAccess front), waitingQueue := c.waitingQueue.tail }

def clearMisses (c : MemoryComponent κ) : MemoryComponent κ := { c with justMissedCache := none }

def clearUpdates (c : MemoryComponent κ) : MemoryComponent κ :=
  { c with justUpdatedCache := none }

def clearWritebacks (c : MemoryComponent κ) : MemoryComponent κ :=
  { c with justDirtifiedLine := none, justWroteBackLine := false }

def clearCounters (c : MemoryComponent κ) : MemoryComponent κ :=
  { c with nmisses := 0, numStoreBusAccess := 0 }

def countMiss (c : MemoryComponent κ) : MemoryComponent κ :=
  { c with nmisses := toUnsigned (c.nmisses + 1) }

def countStore (c : MemoryComponent κ) : MemoryComponent κ :=
  { c with numStoreBusAccess := toUnsigned (c.numStoreBusAccess + 1) }

end MemoryComponent

/-- The two caches and the one they share. -/
structure TopologyCaches (κ : Type) where
  instrCache : AbstractCache κ
  dataCache : AbstractCache κ
  l2Cache : AbstractCache κ

structure JJYSeparateCachesMemoryTopology (κ μ : Type) where
  memory : μ
  currentId : ℕ
  instructionComponent : MemoryComponent κ
  dataComponent : MemoryComponent κ
  L2Component : MemoryComponent κ
  justEntered : Option (Finset PersistenceScope)
  deriving DecidableEq

namespace JJYSeparateCachesMemoryTopology

section Operations

variable (opts : TopologyOptions) {κ μ : Type} (C : TopologyCaches κ)
  (B : MemoryTopologyInterface μ)

def new : JJYSeparateCachesMemoryTopology κ μ :=
  ⟨B.new, 1, .ofCache (C.instrCache.new false), .ofCache (C.dataCache.new false),
    .ofCache (C.l2Cache.new false), none⟩

def resetLocalMetrics (m : JJYSeparateCachesMemoryTopology κ μ) :
    JJYSeparateCachesMemoryTopology κ μ :=
  { m with
    instructionComponent := m.instructionComponent.clearMisses.clearUpdates.clearCounters
    dataComponent := m.dataComponent.clearMisses.clearUpdates.clearWritebacks.clearCounters
    L2Component := m.L2Component.clearMisses.clearUpdates.clearWritebacks.clearCounters
    justEntered := none
    memory := B.resetLocalMetrics m.memory }

/-- Overrides a waiting access. -/
def accessInstr (m : JJYSeparateCachesMemoryTopology κ μ) (addr numWords : ℕ) :
    ℕ × JJYSeparateCachesMemoryTopology κ μ :=
  let resId := m.currentId
  let waitingQueue :=
    m.instructionComponent.waitingQueue.tail ++ [⟨resId, .ofUnsigned addr, .load, numWords⟩]
  (resId, { m with
    instructionComponent := { m.instructionComponent with waitingQueue }
    currentId := nextId m.currentId })

/-- Rejects the access if another one waits. -/
def accessData (m : JJYSeparateCachesMemoryTopology κ μ) (addr : AbstractAddress)
    (load_store : AccessType) (numWords : ℕ) :
    Option ℕ × JJYSeparateCachesMemoryTopology κ μ :=
  if m.dataComponent.waitingQueue.length = 0 then
    let resId := m.currentId
    let waitingQueue := m.dataComponent.waitingQueue ++ [⟨resId, addr, load_store, numWords⟩]
    (some resId, { m with
      dataComponent := { m.dataComponent with waitingQueue }
      currentId := nextId m.currentId })
  else (none, m)

def finishedInstrAccess (m : JJYSeparateCachesMemoryTopology κ μ) (id : ℕ) :
    Bool × JJYSeparateCachesMemoryTopology κ μ :=
  if m.instructionComponent.finishedId = id then
    (true, { m with instructionComponent := { m.instructionComponent with finishedId := 0 } })
  else (false, m)

def finishedDataAccess (m : JJYSeparateCachesMemoryTopology κ μ) (id : ℕ) :
    Bool × JJYSeparateCachesMemoryTopology κ μ :=
  if m.dataComponent.finishedId = id then
    (true, { m with dataComponent := { m.dataComponent with finishedId := 0 } })
  else (false, m)

def enterScope (m : JJYSeparateCachesMemoryTopology κ μ) (scope : PersistenceScope) :
    JJYSeparateCachesMemoryTopology κ μ :=
  { m with
    instructionComponent := { m.instructionComponent with
      cache := C.instrCache.enterScope m.instructionComponent.cache scope }
    dataComponent := { m.dataComponent with
      cache := C.dataCache.enterScope m.dataComponent.cache scope }
    L2Component := { m.L2Component with cache := C.l2Cache.enterScope m.L2Component.cache scope }
    justEntered := some (insert scope (m.justEntered.getD ∅)) }

def leaveScope (m : JJYSeparateCachesMemoryTopology κ μ) (scope : PersistenceScope) :
    JJYSeparateCachesMemoryTopology κ μ :=
  { m with
    instructionComponent := { m.instructionComponent with
      cache := C.instrCache.leaveScope m.instructionComponent.cache scope }
    dataComponent := { m.dataComponent with
      cache := C.dataCache.leaveScope m.dataComponent.cache scope }
    L2Component := { m.L2Component with cache := C.l2Cache.leaveScope m.L2Component.cache scope } }

/-- The line of an access that just missed: the aligned address if there is one line
only, the access itself if it is to an array. -/
def missedLine (cache : AbstractCache κ) (addr : AbstractAddress)
    (justMissedCache : Option AbstractAddress) : Option AbstractAddress :=
  if cache.alignToCacheline addr.interval.lower = cache.alignToCacheline addr.interval.upper then
    some (.ofUnsigned (cache.alignToCacheline addr.interval.lower))
  else if addr.isArray then some addr else justMissedCache

/-- Remembers the missed line of an instruction access for the persistence analysis. -/
def missInstr (cache : AbstractCache κ) (persistence : Bool) (acc : Access)
    (c : MemoryComponent κ) : Except Fault (MemoryComponent κ) := do
  if persistence || opts.preemptiveExecution then
    assertThat acc.addr.isPrecise "acc.addr.isPrecise()"
    .ok { c with
      justMissedCache := some (.ofUnsigned (cache.alignToCacheline acc.addr.interval.lower)) }
  else .ok c

/-- The same for a data access. -/
def missData (cache : AbstractCache κ) (persistence : Bool) (acc : Access)
    (c : MemoryComponent κ) : MemoryComponent κ :=
  if persistence || opts.preemptiveExecution then
    { c with justMissedCache := missedLine cache acc.addr c.justMissedCache }
  else c

/-- Performs the action for a classification of the ongoing instruction access. -/
def processInstrCacheAccess (m : JJYSeparateCachesMemoryTopology κ μ) (acc : OngoingAccess)
    (cl : Classification) : Except Fault (JJYSeparateCachesMemoryTopology κ μ) := do
  let acc := { acc with cl }
  if cl = .clHit then
    let acc := { acc with l1timeBlocked := C.instrCache.getHitLatency }
    .ok { m with instructionComponent := m.instructionComponent.setOngoing acc }
  else if cl = .cl2Hit then
    let acc := { acc with
      l2timeBlocked := C.l2Cache.getHitLatency
      bgl2AccessId := m.currentId }
    let c ← missInstr opts C.instrCache opts.instrCachePers acc.access
      m.instructionComponent.countMiss
    .ok { m with instructionComponent := c.setOngoing acc }
  else
    let l2 := m.L2Component.countMiss
    let l2 ← if cl = .cl2Miss then missInstr opts C.l2Cache opts.l2CachePers acc.access l2
      else .ok l2
    let c := m.instructionComponent.countMiss
    let c ← if cl = .cl2Miss then missInstr opts C.instrCache opts.instrCachePers acc.access c
      else .ok c
    let (res, memory) ← B.accessInstr m.memory acc.access.addr.interval.lower (opts.ilinesize / 4)
    match res with
    | some id =>
      .ok { m with
        memory, L2Component := l2
        instructionComponent := c.setOngoing { acc with bgMemAccessId := id } }
    | none => .error (.assertion "Background memory topology rejected instruction access.")

/-- A store that misses the caches is passed on without being allocated. -/
def storeWithoutAllocate (m : JJYSeparateCachesMemoryTopology κ μ) (acc : OngoingAccess) :
    Except Fault (JJYSeparateCachesMemoryTopology κ μ) := do
  assertThat (!C.dataCache.getWritePolicy.writeBack)
    "Only write-through can be non-write-allocate"
  let (res, memory) ← B.accessData m.memory acc.access.addr .store acc.access.numWords
  match res with
  | some id =>
    .ok { m with
      memory
      dataComponent := (m.dataComponent.countStore).setOngoing
        { acc with bgMemAccessId := id, phase := .waitForSTORE } }
  | none => .error (.assertion "l2 topology rejected instruction access.")

/-- Loads the data first; the access is repeated when it is rejected. -/
def loadLine (m : JJYSeparateCachesMemoryTopology κ μ) (acc : OngoingAccess)
    (cl : Classification) : Except Fault (JJYSeparateCachesMemoryTopology κ μ) := do
  let l2 := m.L2Component.countMiss
  let l2 := if cl = .cl2Miss then missData opts C.l2Cache opts.l2CachePers acc.access l2 else l2
  let c := m.dataComponent.countMiss
  let c := if cl = .cl2Miss then missData opts C.dataCache opts.dataCachePers acc.access c else c
  let (res, memory) ← B.accessData m.memory acc.access.addr .load (opts.dlinesize / 4)
  let acc := match res with
    | some id => { acc with bgMemAccessId := id }
    | none => { acc with bgmemStall := true }
  .ok { m with
    memory, L2Component := l2
    dataComponent := c.setOngoing { acc with phase := .waitForLOAD } }

/-- Performs the action for a classification of the ongoing data access. -/
def processDataCacheAccess (m : JJYSeparateCachesMemoryTopology κ μ) (acc : OngoingAccess)
    (cl : Classification) : Except Fault (JJYSeparateCachesMemoryTopology κ μ) :=
  let acc := { acc with cl }
  if cl = .clHit then
    let acc := { acc with l1timeBlocked := C.dataCache.getHitLatency, phase := .waitForCACHE }
    .ok { m with dataComponent := m.dataComponent.setOngoing acc }
  else if cl = .cl2Hit then
    let acc := { acc with
      l2timeBlocked := C.l2Cache.getHitLatency
      phase := .waitForCACHE
      bgl2AccessId := m.currentId }
    let c := missData opts C.dataCache opts.dataCachePers acc.access m.dataComponent.countMiss
    .ok { m with dataComponent := c.setOngoing acc }
  else if acc.access.load_store = .store ∧ C.dataCache.getWritePolicy.writeAllocate = false then
    storeWithoutAllocate C B m acc
  else loadLine opts C B m acc cl

/-- The classifications under which an access is started, in this order, for what the
two caches classify it as. -/
def outcomes (L1 L2 : Classification) : List Classification :=
  if L1 = .clHit ∨ L1 = .clUnknown ∧ opts.isBCET = true then [.clHit]
  else if L2 = .clHit ∨ L2 = .clUnknown ∧ opts.isBCET = true then
    (if L1 = .clUnknown ∧ opts.timingAnomalyAnalysis = true then [.clHit] else []) ++ [.cl2Hit]
  else
    (if L2 = .clUnknown ∧ opts.timingAnomalyAnalysis = true then
      (if L1 = .clUnknown then [.clHit] else []) ++ [.cl2Hit] else []) ++ [.cl2Miss]

/-- Starts the first waiting instruction access unless there is an ongoing one. -/
def mystartInstructionAccess (m : JJYSeparateCachesMemoryTopology κ μ) :
    Except Fault (List (JJYSeparateCachesMemoryTopology κ μ)) := do
  match m.instructionComponent.ongoingAccess, m.instructionComponent.waitingQueue with
  | none, front :: _ =>
    let m := { m with instructionComponent := m.instructionComponent.takeWaiting front }
    let L1 ← C.instrCache.classify m.instructionComponent.cache front.addr
    let L2 ← C.l2Cache.classify m.L2Component.cache front.addr
    forEach (fun cl => do .ok [← processInstrCacheAccess opts C B m (.ofAccess front) cl])
      (outcomes opts L1 L2)
  | _, _ => .ok [m]

/-- Starts the first waiting data access unless there is an ongoing one. -/
def mystartDataAccess (m : JJYSeparateCachesMemoryTopology κ μ) :
    Except Fault (List (JJYSeparateCachesMemoryTopology κ μ)) := do
  match m.dataComponent.ongoingAccess, m.dataComponent.waitingQueue with
  | none, front :: _ =>
    let m := { m with dataComponent := m.dataComponent.takeWaiting front }
    let L1 ← C.dataCache.classify m.dataComponent.cache front.addr
    let L2 ← C.l2Cache.classify m.L2Component.cache front.addr
    forEach (fun cl => do .ok [← processDataCacheAccess opts C B m (.ofAccess front) cl])
      (outcomes opts L1 L2)
  | _, _ => .ok [m]

/-- The instruction access waits for the second level. -/
def waitForInstrL2 (m : JJYSeparateCachesMemoryTopology κ μ) (acc : OngoingAccess) :
    Except Fault (JJYSeparateCachesMemoryTopology κ μ) := do
  let acc := { acc with l2timeBlocked := acc.l2timeBlocked - 1 }
  if acc.l2timeBlocked = 0 then
    let (cache, _) ← C.l2Cache.update m.L2Component.cache acc.access.addr
      acc.access.load_store false acc.cl
    let acc := { acc with bgl2AccessId := 0, l1timeBlocked := C.instrCache.getHitLatency }
    .ok { m with
      instructionComponent := m.instructionComponent.setOngoing acc
      L2Component := { m.L2Component with cache } }
  else .ok { m with instructionComponent := m.instructionComponent.setOngoing acc }

/-- The instruction access waits for the instruction cache, which is updated, as is the
second level. -/
def waitForInstrL1 (m : JJYSeparateCachesMemoryTopology κ μ) (acc : OngoingAccess) :
    Except Fault (JJYSeparateCachesMemoryTopology κ μ) := do
  let acc := { acc with l1timeBlocked := acc.l1timeBlocked - 1 }
  if acc.l1timeBlocked = 0 then
    let (cache, _) ← C.instrCache.update m.instructionComponent.cache acc.access.addr
      acc.access.load_store false acc.cl
    let (l2cache, _) ← C.l2Cache.update m.L2Component.cache acc.access.addr
      acc.access.load_store false acc.cl
    let justUpdatedCache := if opts.needAccessedInstructionAddresses then some acc.access.addr
      else m.instructionComponent.justUpdatedCache
    .ok { m with
      instructionComponent := { m.instructionComponent with cache, justUpdatedCache }.finish acc
      L2Component := { m.L2Component with cache := l2cache } }
  else .ok { m with instructionComponent := m.instructionComponent.setOngoing acc }

/-- The instruction access waits for the background memory. -/
def waitForFetch (m : JJYSeparateCachesMemoryTopology κ μ) (acc : OngoingAccess) :
    JJYSeparateCachesMemoryTopology κ μ :=
  let (finished, memory) := B.finishedInstrAccess m.memory acc.bgMemAccessId
  let acc := if finished then
      { acc with
        bgl2AccessId := acc.bgMemAccessId
        bgMemAccessId := 0
        l2timeBlocked := C.l2Cache.getHitLatency }
    else acc
  { m with memory, instructionComponent := m.instructionComponent.setOngoing acc }

/-- Checks whether the instruction access is finished in the background memory, in the
second level or in the instruction cache. -/
def checkInstructionPart (m : JJYSeparateCachesMemoryTopology κ μ) :
    Except Fault (List (JJYSeparateCachesMemoryTopology κ μ)) := do
  match m.instructionComponent.ongoingAccess with
  | none => .ok [m]
  | some acc =>
    if acc.bgMemAccessId ≠ 0 then .ok [waitForFetch C B m acc]
    else if acc.bgl2AccessId ≠ 0 then .ok [← waitForInstrL2 C m acc]
    else .ok [← waitForInstrL1 opts C m acc]

/-- The background memory was busy: the access is tried again. -/
def retryDataAccess (m : JJYSeparateCachesMemoryTopology κ μ) (acc : OngoingAccess) :
    Except Fault (List (JJYSeparateCachesMemoryTopology κ μ)) := do
  assertThat opts.unblockStores
    "Cannot be stalled on background memory when blocking Stores are used"
  assertThat (acc.phase == .waitForLOAD || acc.phase == .waitForSTORE)
    "Stall => waiting for load or store"
  let accTy := if acc.phase = .waitForLOAD then AccessType.load else .store
  -- loads are done in chunks of a line
  let nwords := if accTy = .load then opts.dlinesize / 4 else acc.access.numWords
  let (res, memory) ← B.accessData m.memory acc.access.addr accTy nwords
  let acc := match res with
    | some id => { acc with bgMemAccessId := id, bgmemStall := false }
    | none => acc
  .ok [{ m with memory, dataComponent := m.dataComponent.setOngoing acc }]

def waitForLoad (m : JJYSeparateCachesMemoryTopology κ μ) (acc : OngoingAccess) :
    Except Fault (List (JJYSeparateCachesMemoryTopology κ μ)) := do
  assertThat (acc.bgMemAccessId != 0) "Waiting for load but not accessing anything"
  let (finished, memory) := B.finishedDataAccess m.memory acc.bgMemAccessId
  let acc := if finished then
      { acc with
        bgl2AccessId := acc.bgMemAccessId
        bgMemAccessId := 0
        l2timeBlocked := C.l2Cache.getHitLatency
        phase := .waitForCACHE }
    else acc
  .ok [{ m with memory, dataComponent := m.dataComponent.setOngoing acc }]

def mightMiss (acc : OngoingAccess) : Bool := acc.cl == .cl2Miss || acc.cl == .cl2Unknown

/-- A write-back cache is asked for a report about misses and stores. -/
def wantReport (acc : OngoingAccess) : Bool :=
  C.dataCache.getWritePolicy.writeBack && (mightMiss acc || acc.access.load_store == .store)

/-- The line that may have to be written back. Without further information any access
causes a write-back. -/
def writebackVictim (report : Option UpdateReport) : Option AbstractAddress :=
  match report with
  | some (.writeback wbPossible _) =>
    if opts.staticallyRefuteWritebacks && !wbPossible then none else some .getUnknownAddress
  | _ => some .getUnknownAddress

/-- Without further information any store dirtifies its line. -/
def dirtify (acc : OngoingAccess) (report : Option UpdateReport) (c : MemoryComponent κ) :
    MemoryComponent κ :=
  if C.dataCache.getWritePolicy.writeBack ∧ acc.access.load_store = .store then
    match report with
    | some (.writeback _ dirtifyingStore) =>
      { c with
        justDirtifiedLine := if opts.wbBoundDirtifyingStore && !dirtifyingStore then none
          else some acc.access.addr }
    | _ => { c with justDirtifiedLine := some acc.access.addr }
  else c

/-- Launches a store to the address that was accessed originally. -/
def writeThrough (m : JJYSeparateCachesMemoryTopology κ μ) (acc : OngoingAccess) :
    Except Fault (JJYSeparateCachesMemoryTopology κ μ) := do
  let (res, memory) ← B.accessData m.memory acc.access.addr .store acc.access.numWords
  let acc := match res with
    | some id => { acc with bgMemAccessId := id }
    | none => { acc with bgmemStall := true }
  .ok { m with
    memory
    dataComponent := m.dataComponent.countStore.setOngoing { acc with phase := .waitForSTORE } }

/-- Splits off the state in which the line is not dirtified. -/
def splitDirtified (m : JJYSeparateCachesMemoryTopology κ μ) :
    List (JJYSeparateCachesMemoryTopology κ μ) :=
  if C.dataCache.getWritePolicy.writeBack ∧ m.dataComponent.justDirtifiedLine.isSome then
    [{ m with dataComponent := { m.dataComponent with justDirtifiedLine := none } }, m]
  else [m]

/-- The state in which the access is over. -/
def finishData (m : JJYSeparateCachesMemoryTopology κ μ) (acc : OngoingAccess) :
    JJYSeparateCachesMemoryTopology κ μ :=
  { m with dataComponent := m.dataComponent.finish acc }

/-- `ongoingAcc.bgl2AccessId = -1`, the access of a write-back to the second level. -/
def writebackId : ℕ := 2 ^ 32 - 1

/-- What follows the update of the second level: a store, a write-back to the background
memory, the first level, or nothing. -/
def afterL2Update (m : JJYSeparateCachesMemoryTopology κ μ) (acc : OngoingAccess)
    (report : Option UpdateReport) : Except Fault (List (JJYSeparateCachesMemoryTopology κ μ)) :=
  let isWBCache := C.dataCache.getWritePolicy.writeBack
  if acc.access.load_store = .store ∧ isWBCache = false then do
    .ok (splitDirtified C (← writeThrough B m acc))
  else
    match isWBCache && mightMiss acc, writebackVictim opts report with
    | true, some victim => do
      let (res, memory) ← B.accessData m.memory victim .store (opts.dlinesize / 4)
      match res with
      | some id =>
        let acc' := { acc with bgMemAccessId := id, phase := .waitForSTORE }
        let c := m.dataComponent.countStore.setOngoing acc'
        .ok (finishData m acc ::
          splitDirtified C { m with memory, dataComponent := { c with justWroteBackLine := true } })
      | none => .error (.assertion "Background Memory Topology rejected data access!")
    | _, _ =>
      if acc.bgl2AccessId ≠ writebackId then
        let acc := { acc with l1timeBlocked := C.instrCache.getHitLatency, bgl2AccessId := 0 }
        .ok (splitDirtified C { m with dataComponent := m.dataComponent.setOngoing acc })
      else .ok (splitDirtified C (finishData m acc))

def updateL2 (m : JJYSeparateCachesMemoryTopology κ μ) (acc : OngoingAccess) :
    Except Fault (List (JJYSeparateCachesMemoryTopology κ μ)) := do
  let (cache, report) ← C.l2Cache.update m.L2Component.cache acc.access.addr
    acc.access.load_store (wantReport C acc) acc.cl
  let m := { m with
    L2Component := { m.L2Component with cache }
    dataComponent := dirtify opts C acc report m.dataComponent }
  afterL2Update opts C B m acc report

/-- The access waits for the second level. -/
def waitForL2 (m : JJYSeparateCachesMemoryTopology κ μ) (acc : OngoingAccess) :
    Except Fault (List (JJYSeparateCachesMemoryTopology κ μ)) :=
  let l2timeBlocked := if acc.bgl2AccessId = writebackId then C.l2Cache.getHitLatency
    else acc.l2timeBlocked
  let acc := { acc with l2timeBlocked := l2timeBlocked - 1 }
  let m := { m with dataComponent := m.dataComponent.setOngoing acc }
  if acc.l2timeBlocked = 0 then updateL2 opts C B m acc else .ok [m]

/-- What follows the update of the data cache: a store, a write-back to the second level,
or nothing. -/
def afterL1Update (m : JJYSeparateCachesMemoryTopology κ μ) (acc : OngoingAccess)
    (report : Option UpdateReport) : Except Fault (List (JJYSeparateCachesMemoryTopology κ μ)) :=
  let isWBCache := C.dataCache.getWritePolicy.writeBack
  if acc.access.load_store = .store ∧ isWBCache = false then do
    .ok (splitDirtified C (← writeThrough B m acc))
  else if isWBCache = true ∧ mightMiss acc = true ∧ (writebackVictim opts report).isSome then
    let c := m.dataComponent.setOngoing { acc with bgl2AccessId := writebackId }
    .ok (finishData m acc ::
      splitDirtified C { m with dataComponent := { c with justDirtifiedLine := none } })
  else .ok (splitDirtified C (finishData m acc))

/-- The data cache is updated, and the second level as well. -/
def updateL1 (m : JJYSeparateCachesMemoryTopology κ μ) (acc : OngoingAccess) :
    Except Fault (List (JJYSeparateCachesMemoryTopology κ μ)) := do
  let justUpdatedCache := if opts.needAccessedDataAddresses then some acc.access.addr
    else m.dataComponent.justUpdatedCache
  let (cache, report) ← C.dataCache.update m.dataComponent.cache acc.access.addr
    acc.access.load_store (wantReport C acc) acc.cl
  let (l2cache, _) ← C.l2Cache.update m.L2Component.cache acc.access.addr
    acc.access.load_store (wantReport C acc) acc.cl
  let m := { m with
    L2Component := { m.L2Component with cache := l2cache }
    dataComponent := dirtify opts C acc report { m.dataComponent with cache, justUpdatedCache } }
  afterL1Update opts C B m acc report

/-- The access waits for the data cache. -/
def waitForL1 (m : JJYSeparateCachesMemoryTopology κ μ) (acc : OngoingAccess) :
    Except Fault (List (JJYSeparateCachesMemoryTopology κ μ)) :=
  let acc := { acc with l1timeBlocked := acc.l1timeBlocked - 1 }
  let m := { m with dataComponent := m.dataComponent.setOngoing acc }
  if 0 < acc.l1timeBlocked then .ok [m] else updateL1 opts C B m acc

def waitForCache (m : JJYSeparateCachesMemoryTopology κ μ) (acc : OngoingAccess) :
    Except Fault (List (JJYSeparateCachesMemoryTopology κ μ)) := do
  assertThat (acc.bgMemAccessId == 0) "Waiting for cache but accessing in main memory"
  if acc.bgl2AccessId ≠ 0 then waitForL2 opts C B m acc else waitForL1 opts C B m acc

/-- Unblocking stores finish at once. -/
def waitForStore (m : JJYSeparateCachesMemoryTopology κ μ) (acc : OngoingAccess) :
    Except Fault (List (JJYSeparateCachesMemoryTopology κ μ)) := do
  assertThat (acc.bgMemAccessId != 0) "Waiting for store but not accessing anything"
  if opts.unblockStores then .ok [finishData m acc]
  else
    let (finished, memory) := B.finishedDataAccess m.memory acc.bgMemAccessId
    let m := { m with memory }
    .ok [if finished then finishData m acc else m]

def checkDataPart (m : JJYSeparateCachesMemoryTopology κ μ) :
    Except Fault (List (JJYSeparateCachesMemoryTopology κ μ)) :=
  match m.dataComponent.ongoingAccess with
  | none => .ok [m]
  | some acc =>
    if acc.bgmemStall then retryDataAccess opts B m acc
    else
      match acc.phase with
      | .waitForLOAD => waitForLoad C B m acc
      | .waitForCACHE => waitForCache opts C B m acc
      | .waitForSTORE => waitForStore opts B m acc
      | .waitForSTART =>
        .error (.assertion "We got an unexpected access phase during memory cycling")

/-- The events of the last cycle are deleted. -/
def clearEvents (m : JJYSeparateCachesMemoryTopology κ μ) : JJYSeparateCachesMemoryTopology κ μ :=
  { m with
    instructionComponent := m.instructionComponent.clearMisses.clearUpdates
    dataComponent := m.dataComponent.clearMisses.clearUpdates.clearWritebacks
    L2Component := m.L2Component.clearMisses.clearUpdates.clearWritebacks
    justEntered := none }

/-- If the pipeline should have stalled in this cycle, the topology stalls as well. -/
def afterMemoryCycle (m : JJYSeparateCachesMemoryTopology κ μ) :
    Except Fault (List (JJYSeparateCachesMemoryTopology κ μ)) := do
  if B.shouldPipelineStall m.memory then .ok [m]
  else forEach (checkDataPart opts C B) (← checkInstructionPart opts C B m)

def cycleMemory (potentialDataMissesPending : Bool) (m : JJYSeparateCachesMemoryTopology κ μ) :
    Except Fault (List (JJYSeparateCachesMemoryTopology κ μ)) := do
  forEach (fun memory => afterMemoryCycle opts C B { m with memory })
    (← B.cycle potentialDataMissesPending m.memory)

def cycle (potentialDataMissesPending : Bool) (m : JJYSeparateCachesMemoryTopology κ μ) :
    Except Fault (List (JJYSeparateCachesMemoryTopology κ μ)) := do
  forEach (fun startinstrTopology => do
      forEach (cycleMemory opts C B potentialDataMissesPending)
        (← mystartDataAccess opts C B startinstrTopology))
    (← mystartInstructionAccess opts C B (clearEvents m))

def isJoinable (m m' : JJYSeparateCachesMemoryTopology κ μ) : Bool :=
  B.isJoinable m.memory m'.memory &&
    m.instructionComponent.equalsWithoutCache m'.instructionComponent m.currentId m'.currentId &&
    m.dataComponent.equalsWithoutCache m'.dataComponent m.currentId m'.currentId &&
    m.L2Component.equalsWithoutCache m'.L2Component m.currentId m'.currentId &&
    m.justEntered == m'.justEntered

def join (m m' : JJYSeparateCachesMemoryTopology κ μ) :
    Except Fault (JJYSeparateCachesMemoryTopology κ μ) := do
  assertThat (isJoinable B m m') "Cannot join non-joinable states."
  let memory ← B.join m.memory m'.memory
  let instructionComponent ← m.instructionComponent.joinCache C.instrCache m'.instructionComponent
  let dataComponent ← m.dataComponent.joinCache C.dataCache m'.dataComponent
  let L2Component ← m.L2Component.joinCache C.l2Cache m'.L2Component
  .ok { m with memory, instructionComponent, dataComponent, L2Component }

def instrCompAllowsFastForward (m : JJYSeparateCachesMemoryTopology κ μ) : Bool :=
  (match m.instructionComponent.ongoingAccess with
    | some acc => acc.bgMemAccessId != 0
    | none => m.instructionComponent.waitingQueue.isEmpty) &&
    m.instructionComponent.justMissedCache.isNone && m.L2Component.justMissedCache.isNone &&
    m.instructionComponent.justUpdatedCache.isNone

def dataCompAllowsFastForward (m : JJYSeparateCachesMemoryTopology κ μ) : Bool :=
  (match m.dataComponent.ongoingAccess with
    | some acc => acc.phase == .waitForLOAD ||
        ((!opts.unblockStores || acc.bgmemStall) && acc.phase == .waitForSTORE)
    | none => m.dataComponent.waitingQueue.isEmpty) &&
    m.dataComponent.justMissedCache.isNone && m.L2Component.justMissedCache.isNone &&
    m.dataComponent.justUpdatedCache.isNone

/-- Forwards the background memory if both parts wait for it and no event is forgotten. -/
def fastForward (m : JJYSeparateCachesMemoryTopology κ μ) :
    Except Fault (List (JJYSeparateCachesMemoryTopology κ μ)) := do
  if instrCompAllowsFastForward m && dataCompAllowsFastForward opts m && m.justEntered.isNone then
    let forwarded ← B.fastForward m.memory
    .ok (forwarded.map fun memory => { m with memory })
  else .ok [m]

end Operations

end JJYSeparateCachesMemoryTopology

end Llvmta
