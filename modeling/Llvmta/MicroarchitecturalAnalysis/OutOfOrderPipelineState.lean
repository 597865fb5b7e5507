import Llvmta.MicroarchitecturalAnalysis.OutOfOrderPipelineComponents.ReservationStation

/-!
# The out-of-order pipeline

Instructions are fetched into a queue of four elements, issued to the reorder buffer and a
reservation station, executed by functional units, of which one can use the common data
bus in a cycle, and committed in order. Fetching goes on behind conditional branches; when
a control-flow instruction is committed, what follows it is flushed. A cycle also reports
which elements it has put into the queue and which it has committed.
-/

namespace Llvmta.MicroArch

open Checked

structure InstructionQueue where
  queue : List ExecutionElement
  instrAccessId : ℕ
  stallFetch : Bool
  deriving DecidableEq, Repr

/-- The number of times that an element was entered, with the scopes it enters. -/
structure ScopeEntrance where
  element : ExecutionElement
  count : ℕ
  scopes : List PersistenceScope
  deriving DecidableEq, Repr

structure OutOfOrderPipelineState (μ : Type) extends MicroArchitecturalState where
  memory : μ
  instructionQueue : InstructionQueue
  finalInstructions : List ExecutionElement
  regStatTabl : RegisterStatusTable
  reOrderBuffer : ReOrderBuffer
  resStations : List ReservationStation
  funcUnits : List FunctionalUnit
  commonDataBus : Option RobTag
  speculativeScopeEntrances : List ScopeEntrance
  deriving DecidableEq, Repr

/-- What a cycle does beside its result. -/
structure CycleLog where
  fetched : List ExecutionElement
  committed : List ExecutionElement
  /-- what is in flight or being fetched when instructions are committed -/
  behind : List ExecutionElement
  flushed : Bool
  deriving DecidableEq, Repr

namespace OutOfOrderPipelineState

variable (P : Program) {μ : Type} (M : MemoryTopology μ)

/-- The instructions that were fetched and are not committed. -/
def inFlight (s : OutOfOrderPipelineState μ) : List ExecutionElement :=
  s.reOrderBuffer.elements.map ReOrderBufferElement.executionElement ++ s.instructionQueue.queue

/-- The instruction that is being fetched. -/
def nextFetch (s : OutOfOrderPipelineState μ) : List ExecutionElement :=
  if s.instructionQueue.stallFetch then [] else [s.pc]

/-- Starts the access to the instruction at the program counter. -/
def startAccess (s : OutOfOrderPipelineState μ) (message : String) :
    Except Fault (OutOfOrderPipelineState μ) := do
  match ← M.accessInstr s.memory s.pc.1 1 with
  | (none, _) => .error (.assertion message)
  | (some instrAccessId, memory) =>
    .ok { s with memory, instructionQueue := { s.instructionQueue with instrAccessId } }

def initialStations : List ReservationStation := [.new 2 [0, 1], .new 1 [2], .new 1 [3]]

def initialUnits : List FunctionalUnit := [.newSimple, .newSimple, .newBranch, .newLoadStore]

/-- An empty pipeline that accesses its first instruction. -/
def new (progloc : ExecutionElement) : Except Fault (OutOfOrderPipelineState μ) :=
  startAccess M {
    toMicroArchitecturalState := .new progloc
    memory := M.new
    instructionQueue := ⟨[], 0, false⟩
    finalInstructions := []
    regStatTabl := .new
    reOrderBuffer := .new
    resStations := initialStations
    funcUnits := initialUnits
    commonDataBus := none
    speculativeScopeEntrances := [] } "Access instruction unsuccessful - first access."

section Scopes

/-- Counts another entrance of the element. -/
def enterSpeculatively (element : ExecutionElement) (scopes : List PersistenceScope) :
    List ScopeEntrance → Except Fault (List ScopeEntrance)
  | [] => .ok [⟨element, 1, scopes⟩]
  | entrance :: entrances =>
    if entrance.element = element then do
      assertThat (decide (scopes = entrance.scopes)) "Same instruction gives different scopes"
      .ok ({ entrance with count := entrance.count + 1 } :: entrances)
    else do .ok (entrance :: (← enterSpeculatively element scopes entrances))

/-- An entrance of the element is not speculative any longer. -/
def commitEntrance (element : ExecutionElement) : List ScopeEntrance → List ScopeEntrance
  | [] => []
  | entrance :: entrances =>
    if entrance.element = element then
      if entrance.count - 1 = 0 then entrances
      else { entrance with count := entrance.count - 1 } :: entrances
    else entrance :: commitEntrance element entrances

/-- Enters the scopes of the edge from the instruction at an address to the one at the
program counter. -/
def enterScopesFrom (s : OutOfOrderPipelineState μ) (source : ℕ) :
    Except Fault (OutOfOrderPipelineState μ) :=
  let scopes := P.scopesBetween P.getEnteringScopes source s.pc.1
  if P.needPersistenceScopes = true ∧ scopes ≠ [] then do
    let speculativeScopeEntrances ←
      enterSpeculatively s.pc scopes s.speculativeScopeEntrances
    .ok { s with speculativeScopeEntrances, memory := M.enterScopes s.memory scopes }
  else .ok s

/-- Leaves the scopes of each entrance as often as they were entered. -/
def leaveEntrances (memory : μ) (entrances : List ScopeEntrance) : μ :=
  entrances.foldl (fun memory entrance =>
    (List.replicate entrance.count entrance.scopes).foldl M.leaveScopes memory) memory

def leavePersistenceScope (s : OutOfOrderPipelineState μ) (source target : ℕ) :
    OutOfOrderPipelineState μ :=
  { s with memory := M.leaveScopes s.memory (P.scopesBetween P.getLeavingScopes source target) }

end Scopes

section InstructionQueue

/-- Whether the station accepts the instruction. -/
def accepts (s : OutOfOrderPipelineState μ) (mi : MachineInstr) (rS : ReservationStation) :
    Bool := rS.canExecuteInstruction s.funcUnits mi && !rS.isFull

/-- The instruction in the reorder buffer that produces the register, if its result is not
there yet. -/
def addSource (s : OutOfOrderPipelineState μ) (sources : List RobTag) (reg : ℕ) : List RobTag :=
  match s.regStatTabl.getRobTag reg with
  | some robIndex =>
    if !s.reOrderBuffer.isExecuted robIndex && s.commonDataBus != some robIndex then
      sources.insert robIndex
    else sources
  | none => sources

def sourcesOf (s : OutOfOrderPipelineState μ) (mi : MachineInstr) : List RobTag :=
  mi.usedRegisters.foldl s.addSource []

/-- Issues the element, which is the next one of the queue, to a station. -/
def issueTo (s : OutOfOrderPipelineState μ) (ee : ExecutionElement) (mi : MachineInstr) (k : ℕ) :
    Except Fault (OutOfOrderPipelineState μ) := do
  let sources := s.sourcesOf mi
  let (reOrderBuffer, regStatTabl, robTag) ←
    s.reOrderBuffer.issueInstruction P s.regStatTabl ee
  let rS ← (← read s.resStations k).issueInstruction robTag sources
  let front ← read s.instructionQueue.queue 0
  assertThat (decide (front = ee)) "Dispatching execution element was not possible."
  .ok { s with
    reOrderBuffer, regStatTabl, resStations := s.resStations.set k rS
    instructionQueue := { s.instructionQueue with queue := s.instructionQueue.queue.tail } }

/-- The inner one of two loops over the stations. -/
def issueToFirst (s : OutOfOrderPipelineState μ) (ee : ExecutionElement) (mi : MachineInstr) :
    Except Fault (OutOfOrderPipelineState μ) :=
  match s.resStations.findIdx? (s.accepts mi) with
  | some k => issueTo P s ee mi k
  | none => .ok s

/-- A round of the outer one of two loops over the stations. -/
def issueRound (ee : ExecutionElement) (mi : MachineInstr) (s : OutOfOrderPipelineState μ)
    (j : ℕ) : Except Fault (OutOfOrderPipelineState μ) :=
  if s.resStations[j]?.any (s.accepts mi) then issueToFirst P s ee mi else .ok s

def tryIssueInstr (s : OutOfOrderPipelineState μ) : Except Fault (OutOfOrderPipelineState μ) :=
  match s.instructionQueue.queue with
  | [] => .ok s
  | issueInstr :: _ => do
    let mi ← P.instrAt issueInstr.1
    if s.reOrderBuffer.isFull then .ok s
    else (List.range s.resStations.length).foldlM (issueRound P issueInstr mi) s

/-- Follows an unconditional branch or a call as soon as it is fetched. -/
def earlyBranch (s : OutOfOrderPipelineState μ) (ee : ExecutionElement)
    (ins2ctx : InstrContextMapping) : Except Fault (OutOfOrderPipelineState μ) := do
  let (m, alternatives) ← s.handleBranching P ee ins2ctx
  assertThat alternatives.isEmpty "Early branching caused a split! Take care of that!"
  .ok { s with toMicroArchitecturalState := m }

def branchEarly (s : OutOfOrderPipelineState μ) (ee : ExecutionElement) (mi : MachineInstr)
    (ins2ctx : InstrContextMapping) : Except Fault (OutOfOrderPipelineState μ) :=
  if mi.isUnconditionalBranch || (mi.isCall && !mi.isPredicated) then earlyBranch P s ee ins2ctx
  else .ok s

/-- What follows when an instruction was put into the queue. -/
def afterFetch (s : OutOfOrderPipelineState μ) (fetchedExecEle : ExecutionElement)
    (mi : MachineInstr) (ins2ctx : InstrContextMapping) :
    Except Fault (OutOfOrderPipelineState μ) := do
  assertThat (!fetchedExecEle.2.getTokenList.isEmpty)
    "Empty context for execution element detected."
  let s ← branchEarly P s fetchedExecEle mi ins2ctx
  if mi.isReturn || mi.isJumpTableBranch then
    .ok { s with instructionQueue := { s.instructionQueue with stallFetch := true } }
  else do
    let s ← enterScopesFrom P M s fetchedExecEle.1
    startAccess M s "Access instruction unsuccessful - after an old access."

/-- Fetches the accessed instruction. Behind the end of the program there is none. -/
def fetch (s : OutOfOrderPipelineState μ) (ins2ctx : InstrContextMapping) :
    Except Fault (OutOfOrderPipelineState μ × List ExecutionElement) := do
  let fetchedExecEle := s.pc
  let pc ← P.fetchNext s.pc
  match P.getMachineInstrByAddr fetchedExecEle.1 with
  | some mi => do
    let iq := { s.instructionQueue with queue := s.instructionQueue.queue ++ [fetchedExecEle] }
    let s ← afterFetch P M { s with pc, instructionQueue := iq } fetchedExecEle mi ins2ctx
    .ok (s, [fetchedExecEle])
  | none =>
    .ok ({ s with pc, instructionQueue := { s.instructionQueue with stallFetch := true } }, [])

def fillQueue (s : OutOfOrderPipelineState μ) (ins2ctx : InstrContextMapping) :
    Except Fault (OutOfOrderPipelineState μ × List ExecutionElement) := do
  if s.instructionQueue.queue.length < 4 ∧ s.instructionQueue.stallFetch = false then
    let (finished, memory) := M.finishedInstrAccess s.memory s.instructionQueue.instrAccessId
    if finished then fetch P M { s with memory } ins2ctx else .ok ({ s with memory }, [])
  else .ok (s, [])

/-- Flushes the queue after the instruction at an address was committed. -/
def flushQueue (s : OutOfOrderPipelineState μ) (committedInstr : ℕ) :
    Except Fault (OutOfOrderPipelineState μ) := do
  let s ← enterScopesFrom P M
    { s with instructionQueue := { s.instructionQueue with queue := [] } } committedInstr
  let s ← startAccess M s "Memory did not accept fresh access after flush"
  .ok { s with instructionQueue := { s.instructionQueue with stallFetch := false } }

end InstructionQueue

section Commit

def emptyPipeline (s : OutOfOrderPipelineState μ) (committedInstr : ℕ) :
    Except Fault (OutOfOrderPipelineState μ) := do
  let s := if P.needPersistenceScopes then
    { s with
      memory := leaveEntrances M s.memory s.speculativeScopeEntrances
      speculativeScopeEntrances := [] }
    else s
  let s ← flushQueue P M s committedInstr
  let reOrderBuffer ← s.reOrderBuffer.flush
  .ok { s with
    reOrderBuffer
    resStations := s.resStations.map ReservationStation.flush
    commonDataBus := none
    regStatTabl := .new
    funcUnits := s.funcUnits.map FunctionalUnit.flush }

/-- Whether the pipeline is flushed when the instruction is committed. -/
def changesControlFlow (mi : MachineInstr) : Bool :=
  mi.isConditionalBranch || (mi.isCall && mi.isPredicated) || mi.isReturn || mi.isJumpTableBranch

/-- The state after the committed instruction and its alternatives, each with whether it was
flushed. -/
def checkForBranches (s : OutOfOrderPipelineState μ) (ee : ExecutionElement)
    (ins2ctx : InstrContextMapping) : Except Fault
      ((OutOfOrderPipelineState μ × Bool) × List (OutOfOrderPipelineState μ × Bool)) := do
  let mi ← P.instrAt ee.1
  if changesControlFlow mi then do
    let (m, alternatives) ← s.handleBranching P ee ins2ctx
    let alternatives := alternatives.map fun m => { s with toMicroArchitecturalState := m }
    let s ← emptyPipeline P M { s with toMicroArchitecturalState := m } ee.1
    if mi.isReturn || mi.isJumpTableBranch then do
      let flushed ← forEach (fun alt => do .ok [(← emptyPipeline P M alt ee.1, true)]) alternatives
      .ok ((s, true), flushed)
    else .ok ((s, true), alternatives.map (·, false))
  else .ok ((s, false), [])

/-- The effects of the committed instructions, one after the other. -/
def handleFinal (ins2ctx : InstrContextMapping) (flushed : Bool) :
    OutOfOrderPipelineState μ → List ExecutionElement →
      Except Fault (List (OutOfOrderPipelineState μ × Bool))
  | s, [] => .ok [(s, flushed)]
  | s, fi :: fis => do
    let s := if P.needPersistenceScopes then
      { s with speculativeScopeEntrances := commitEntrance fi s.speculativeScopeEntrances }
      else s
    let ((s, flushes), alternatives) ← checkForBranches P M s fi ins2ctx
    let rest ← handleFinal ins2ctx (flushed || flushes) s fis
    .ok (alternatives.map (fun alt => (alt.1, flushed || alt.2)) ++ rest)

/-- The address of what follows the committed instructions. -/
def followingAddr (s : OutOfOrderPipelineState μ) : ℕ :=
  match s.reOrderBuffer.getHeadElement, s.instructionQueue.queue with
  | some robHeadElement, _ => robHeadElement.1
  | none, lastInstrQueueElement :: _ => lastInstrQueueElement.1
  | none, [] => s.pc.1

/-- Closes the scopes that are left by the edges behind the committed instructions. -/
def closeScopes : OutOfOrderPipelineState μ → List ExecutionElement → OutOfOrderPipelineState μ
  | s, [] => s
  | s, [fi] => leavePersistenceScope P M s fi.1 s.followingAddr
  | s, fi :: nextfi :: fis => closeScopes (leavePersistenceScope P M s fi.1 nextfi.1) (nextfi :: fis)

end Commit

section FastForward

/-- The comparison of what does not belong to the memory topology. -/
def equalsUpToMemory (s s' : OutOfOrderPipelineState μ) : Bool :=
  let rob := s.reOrderBuffer
  let rob' := s'.reOrderBuffer
  (s.funcUnits.zip s'.funcUnits).all (fun e => e.1.equals rob e.2 rob') &&
    decide (s.instructionQueue.queue = s'.instructionQueue.queue) &&
    s.instructionQueue.stallFetch == s'.instructionQueue.stallFetch &&
    decide (s.finalInstructions = s'.finalInstructions) &&
    s.regStatTabl.equals rob s'.regStatTabl rob' && rob.equals rob' &&
    s.resStations.length == s'.resStations.length &&
    (s.resStations.zip s'.resStations).all (fun e => e.1.equals rob e.2 rob') &&
    s.commonDataBus.map rob.getRelativeToHead == s'.commonDataBus.map rob'.getRelativeToHead

/-- The same scopes were entered equally often. -/
def sameEntrances (entrances entrances' : List ScopeEntrance) : Bool :=
  entrances.length == entrances'.length && entrances.all fun e => decide (e ∈ entrances')

def isJoinableUpToMemory (s s' : OutOfOrderPipelineState μ) : Except Fault Bool := do
  let result := equalsUpToMemory s s' && s.isJoinable s'.toMicroArchitecturalState
  assertThat
    (!result || sameEntrances s.speculativeScopeEntrances s'.speculativeScopeEntrances)
    "Speculative scope entrances do not respect join"
  .ok result

/-- Whether nothing will change until a memory port is not busy any longer. -/
def isConvergedAfterCycleFrom (s origin : OutOfOrderPipelineState μ) : Except Fault Bool := do
  let converged ← isJoinableUpToMemory s origin
  assertThat (!converged || P.unblockStores || M.isBusyAccessingInstr s.memory ||
      M.isBusyAccessingData s.memory ||
      (s.reOrderBuffer.isEmpty && s.instructionQueue.queue.isEmpty))
    "instrPortBusy || dataPortBusy || cornerCase"
  .ok converged

def fastForwardAndInsert (origin s : OutOfOrderPipelineState μ) :
    Except Fault (List (OutOfOrderPipelineState μ)) := do
  if ← isConvergedAfterCycleFrom P M s origin then
    .ok ((← M.fastForward s.memory).map fun memory => { s with memory })
  else .ok [s]

end FastForward

section Cycle

/-- A finished instruction uses the common data bus if it is free. -/
def broadcast (s : OutOfOrderPipelineState μ) (i : ℕ) (fu : FunctionalUnit) :
    OutOfOrderPipelineState μ :=
  match fu.finishedInstruction, s.commonDataBus with
  | some finTag, none =>
    { s with
      funcUnits := s.funcUnits.set i { fu with finishedInstruction := none }
      commonDataBus := some finTag }
  | _, _ => { s with funcUnits := s.funcUnits.set i fu }

def cycleFuncUnit (addrInfo : AddressInformation) (i : ℕ) (s : OutOfOrderPipelineState μ) :
    Except Fault (List (OutOfOrderPipelineState μ)) := do
  let fu ← read s.funcUnits i
  let results ← fu.cycle P M s.reOrderBuffer addrInfo s.memory
  .ok (results.map fun (fu, memory) => broadcast { s with memory } i fu)

/-- The functional units one after the other. -/
def cycleFuncUnits (addrInfo : AddressInformation) :
    List ℕ → List (OutOfOrderPipelineState μ) → Except Fault (List (OutOfOrderPipelineState μ))
  | [], states => .ok states
  | i :: is, states => do
    let states ← forEach (cycleFuncUnit P M addrInfo i) states
    cycleFuncUnits addrInfo is states

/-- Stations, reorder buffer and instruction queue in turn, up to the effects of what was
committed. -/
def cycleComponents (ins2ctx : InstrContextMapping) (s : OutOfOrderPipelineState μ) :
    Except Fault
      (OutOfOrderPipelineState μ × List ExecutionElement × List ExecutionElement) := do
  let (funcUnits, resStations) ←
    ReservationStation.cycleAll P s.reOrderBuffer s.commonDataBus s.funcUnits s.resStations
  let (reOrderBuffer, regStatTabl, tempFi) ←
    s.reOrderBuffer.cycle P s.regStatTabl s.commonDataBus
  let s := { s with
    funcUnits, resStations, reOrderBuffer, regStatTabl
    finalInstructions := s.finalInstructions ++ tempFi }
  let s ← tryIssueInstr P s
  let (s, fetched) ← fillQueue P M s ins2ctx
  .ok (s, fetched, tempFi)

/-- The rest of a cycle after that of the functional units. -/
def finishCycle (ins2ctx : InstrContextMapping) (origin ooops : OutOfOrderPipelineState μ) :
    Except Fault (List (OutOfOrderPipelineState μ × CycleLog)) := do
  assertThat (!M.shouldPipelineStall ooops.memory) "Should not cycle a stalling state"
  let (s, fetched, tempFi) ← cycleComponents P M ins2ctx ooops
  let results ← handleFinal P M ins2ctx false s tempFi
  let log (flushed : Bool) : CycleLog := ⟨fetched, tempFi, s.inFlight ++ s.nextFetch, flushed⟩
  forEach (fun result => do
    let forwarded ← fastForwardAndInsert P M origin result.1
    .ok (forwarded.map fun s =>
      (if P.needPersistenceScopes then closeScopes P M s tempFi else s, log result.2))) results

/-- What a cycle of the memory leads to: while the pipeline stalls nothing else happens. -/
def cyclePipeline (dep : StateDep) (origin s : OutOfOrderPipelineState μ) :
    Except Fault (List (OutOfOrderPipelineState μ × CycleLog)) := do
  if M.shouldPipelineStall s.memory then
    .ok ((← fastForwardAndInsert P M origin s).map (·, ⟨[], [], [], false⟩))
  else
    let states ← cycleFuncUnits P M dep.addrInfo (List.range s.funcUnits.length) [s]
    forEach (finishCycle P M dep.ins2ctx origin) states

/-- The successors with what happened in the cycle. -/
def observedCycle (dep : StateDep) (s : OutOfOrderPipelineState μ) :
    Except Fault (List (OutOfOrderPipelineState μ × CycleLog)) := do
  let succ := { s with time := s.time.add (.ofValue 1), commonDataBus := none }
  let memories ← M.cycle false succ.memory
  forEach (cyclePipeline P M dep s) (memories.map fun memory => { succ with memory })

/-- The tags that stations and units hold. -/
def heldTags (s : OutOfOrderPipelineState μ) : List RobTag :=
  s.funcUnits.flatMap FunctionalUnit.getExecutingRobTags ++
    s.resStations.flatMap ReservationStation.getExecutingRobTags

def checkTagValidity (s : OutOfOrderPipelineState μ) : Bool :=
  s.reOrderBuffer.getExecutingRobTags.all (fun tag => decide (tag ∈ s.heldTags)) &&
    s.heldTags.all fun tag => decide (tag ∈ s.reOrderBuffer.getExecutingRobTags)

def cycle (dep : StateDep) (s : OutOfOrderPipelineState μ) :
    Except Fault (List (OutOfOrderPipelineState μ)) := do
  let successors ← observedCycle P M dep s
  assertThat (successors.all fun succ => succ.1.checkTagValidity) "Validity assumption violated"
  assertThat (!successors.isEmpty) "Empty successor set"
  .ok (successors.map Prod.fst)

end Cycle

/-- Whether the element has left the pipeline; if so, this is forgotten. -/
def isFinal (s : OutOfOrderPipelineState μ) (ee : ExecutionElement) :
    Bool × OutOfOrderPipelineState μ :=
  if P.goesExternal ee.1 then
    (s.reOrderBuffer.isEmpty && s.instructionQueue.queue.isEmpty &&
      !M.hasUnfinishedAccesses s.memory, s)
  else (decide (ee ∈ s.finalInstructions),
    { s with finalInstructions := s.finalInstructions.erase ee })

def resetLocalMetrics (s : OutOfOrderPipelineState μ) : OutOfOrderPipelineState μ :=
  { s with time := .ofValue 0, memory := M.resetLocalMetrics s.memory }

/-- The oldest assumptions about branches and returns are forgotten when they were used. -/
def useBranchAssumption (s : OutOfOrderPipelineState μ) : OutOfOrderPipelineState μ :=
  { s with condBranchAssumptions := s.condBranchAssumptions.tail }

def useReturnAssumption (s : OutOfOrderPipelineState μ) : OutOfOrderPipelineState μ :=
  { s with returnAssumptions := s.returnAssumptions.tail }

end OutOfOrderPipelineState

end Llvmta.MicroArch
