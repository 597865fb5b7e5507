import Llvmta.Library.OrderedMap
import Llvmta.MicroarchitecturalAnalysis.MicroArchitecturalState

/-!
# The in-order pipeline

Five stages are processed back to front in a cycle. Control-flow instructions take effect
when they leave the execute stage, or the memory stage if they load to the program counter;
what was fetched behind them is flushed then. A cycle also reports which elements it has
fetched, dropped and completed, and which data accesses it has issued and found finished.
-/

namespace Llvmta.MicroArch

open Checked

/-- What the in-order pipeline depends on beside the program. -/
structure InOrderTarget where
  strictInOrder : Bool
  enableStrictInorderDataInstrArbitration : Bool
  readsRegister : MachineInstr → ℕ → Bool
  /-- the opcodes of control-flow instructions that load to the program counter -/
  loadsToPc : ℕ → Bool

/-- What happens to the data access of an instruction at a position. -/
inductive DataEvent where
  | issued (ee : ExecutionElement) (pos : ℕ)
  | finished (ee : ExecutionElement) (pos : ℕ)
  deriving DecidableEq, Repr

structure InOrderPipelineState (μ : Type) extends MicroArchitecturalState where
  memory : μ
  ifId : Option ExecutionElement
  idEx : Option ExecutionElement
  exMem : Option ExecutionElement
  memWb : Option ExecutionElement
  wbFin : Option ExecutionElement
  /-- the time until the execute stage is done -/
  remainingExecutionTimes : List ℕ
  stallMemory : Bool
  interlock : Bool
  flushedFetchStage : Bool
  instructionAccessId : Option ℕ
  instructionAccessFinished : Bool
  currMemoryAccess : ℕ
  dataAccessIds : OrderedMap ℕ ℕ
  deriving DecidableEq, Repr

/-- What a cycle does beside its result. -/
structure InOrderLog where
  fetched : List ExecutionElement
  /-- the control-flow instruction that has flushed the pipeline -/
  cause : Option ExecutionElement
  /-- what waited to be decoded when the pipeline was flushed -/
  flushed : List ExecutionElement
  /-- what was to be fetched next when the pipeline was flushed -/
  abandoned : List ExecutionElement
  /-- what was decoded without being an instruction -/
  ended : List ExecutionElement
  completed : List ExecutionElement
  accesses : List DataEvent
  deriving DecidableEq, Repr

namespace InOrderPipelineState

variable (P : Program) (T : InOrderTarget) {μ : Type} (M : MemoryTopology μ)

/-- An empty pipeline that accesses its first instruction. -/
def new (progloc : ExecutionElement) : Except Fault (InOrderPipelineState μ) := do
  let (instructionAccessId, memory) ← M.accessInstr M.new progloc.1 1
  .ok {
    toMicroArchitecturalState := .new progloc
    memory
    ifId := none
    idEx := none
    exMem := none
    memWb := none
    wbFin := none
    remainingExecutionTimes := []
    stallMemory := false
    interlock := false
    flushedFetchStage := false
    instructionAccessId
    instructionAccessFinished := false
    currMemoryAccess := 0
    dataAccessIds := .empty }

/-- The element in the first populated one of the stages. -/
def nextPopulatedStage (stages : List (Option ExecutionElement)) :
    Except Fault ExecutionElement :=
  match stages.findSome? id with
  | some ee => .ok ee
  | none => .error (.assertion "We flush pipe but have no flushing instr?")

section Memory

def accessesMemory (mi : MachineInstr) : Bool := mi.mayLoad || mi.mayStore

/-- Starts the next data access of the instruction in the memory stage, if there is one. -/
def accessDataFromMemoryTopology (addrInfo : AddressInformation) (s : InOrderPipelineState μ) :
    Except Fault (InOrderPipelineState μ × List DataEvent) :=
  match s.exMem with
  | none => .error (.assertion "No instruction in EX_MEM!")
  | some ee => do
    let currMemInst ← P.instrAt ee.1
    if accessesMemory currMemInst ∧ s.currMemoryAccess < addrInfo.getNumOfDataAccesses ee.1 then
      let addrItv := addrInfo.getDataAccessAddress ee.1 ee.2 s.currMemoryAccess
      match ← M.accessData s.memory addrItv (if currMemInst.mayLoad then .load else .store) 1 with
      | (none, _) =>
        .error (.assertion "Data access could not be processed by the memory topology!")
      | (some dataAccess, memory) =>
        .ok ({ s with
          memory
          dataAccessIds := s.dataAccessIds.insert s.currMemoryAccess dataAccess
          currMemoryAccess := s.currMemoryAccess + 1 }, [.issued ee s.currMemoryAccess])
    else .ok (s, [])

/-- Whether the instruction in a stage may access data. -/
def mayAccessData (stage : Option ExecutionElement) : Except Fault Bool :=
  match stage with
  | none => .ok false
  | some ee => do .ok (accessesMemory (← P.instrAt ee.1))

/-- Whether accesses of the instructions in the pipeline may miss. The memory is asked for the
access of the memory stage. -/
def potentialDataMissesPending (s : InOrderPipelineState μ) : Except Fault (Bool × μ) :=
  if T.enableStrictInorderDataInstrArbitration then do
    let decodes := match s.ifId with
      | none => false
      | some ee => match P.getMachineInstrByAddr ee.1 with
        | some mi => accessesMemory mi
        | none => true
    let executes ← mayAccessData P s.idEx
    let accesses ← mayAccessData P s.exMem
    match accesses, s.dataAccessIds.entries with
    | true, (_, id) :: _ =>
      let (finished, memory) := M.finishedDataAccess s.memory id
      .ok (decodes || executes || !finished, memory)
    | _, _ => .ok (decodes || executes, s.memory)
  else .ok (false, s.memory)

def cycleMemoryTopology (s : InOrderPipelineState μ) :
    Except Fault (List (InOrderPipelineState μ)) := do
  let (pending, memory) ← potentialDataMissesPending P T M s
  .ok ((← M.cycle pending memory).map fun memory => { s with memory })

end Memory

section Branches

/-- Leaves what was entered for the edge from the first populated one of the stages. -/
def leaveSpeculatively (s : InOrderPipelineState μ) (stages : List (Option ExecutionElement))
    (fetchaddr : ℕ) : Except Fault (InOrderPipelineState μ) := do
  let next ← nextPopulatedStage stages
  .ok { s with
    memory := M.leaveScopes s.memory (P.scopesBetween P.getEnteringScopes next.1 fetchaddr) }

/-- Leaves what was entered for the instruction that is being accessed. -/
def leaveAccessed (s : InOrderPipelineState μ) (oldPc : ℕ) :
    Except Fault (InOrderPipelineState μ) :=
  if s.instructionAccessId.isSome || s.instructionAccessFinished then
    leaveSpeculatively P M s [s.ifId, s.idEx, s.exMem, s.memWb, s.wbFin] oldPc
  else .ok s

/-- Leaves what was entered for the instruction that is to be decoded. -/
def leaveFetched (s : InOrderPipelineState μ) : Except Fault (InOrderPipelineState μ) :=
  match s.ifId with
  | some ee => leaveSpeculatively P M s [s.idEx, s.exMem, s.memWb, s.wbFin] ee.1
  | none => .ok s

def leaveSpeculations (s : InOrderPipelineState μ) (oldPc : ℕ) :
    Except Fault (InOrderPipelineState μ) :=
  if P.needPersistenceScopes then do leaveFetched P M (← leaveAccessed P M s oldPc) else .ok s

def emptyPipelineDueToBranching (s : InOrderPipelineState μ) (oldPc : ℕ) :
    Except Fault (InOrderPipelineState μ) := do
  let s ← leaveSpeculations P M s oldPc
  .ok { s with flushedFetchStage := true, ifId := none }

def changesControlFlow (mi : MachineInstr) : Bool := mi.isBranch || mi.isCall || mi.isReturn

/-- Starts the access to the instruction at the program counter. -/
def accessInstruction (s : InOrderPipelineState μ) : Except Fault (InOrderPipelineState μ) := do
  let (instructionAccessId, memory) ← M.accessInstr s.memory s.pc.1 1
  .ok { s with instructionAccessId, memory }

/-- What becomes of the state when the control-flow instruction takes effect. -/
def takeBranch (ins2ctx : InstrContextMapping) (memory : Bool) (ee : ExecutionElement)
    (exInstr : MachineInstr) (s : InOrderPipelineState μ) :
    Except Fault (InOrderPipelineState μ × List (InOrderPipelineState μ)) := do
  let oldPc := s.pc.1
  let (m, alternatives) ← s.handleBranching P ee ins2ctx
  let alternatives := alternatives.map fun m => { s with toMicroArchitecturalState := m }
  assertThat (!memory || s.idEx.isNone) "Internal: Should be empty"
  let taken ← emptyPipelineDueToBranching P M { s with toMicroArchitecturalState := m } oldPc
  if exInstr.isReturn || exInstr.isJumpTableBranch then
    .ok (taken, ← forEach
      (fun alt => do .ok [← emptyPipelineDueToBranching P M alt oldPc]) alternatives)
  else if T.strictInOrder then
    .ok (taken, ← forEach (fun alt => do .ok [← accessInstruction M alt]) alternatives)
  else .ok (taken, alternatives)

/-- The state after the memory or the execute stage, where the instruction may have taken
effect, and the alternatives. -/
def checkForBranches (ins2ctx : InstrContextMapping) (memory : Bool)
    (s : InOrderPipelineState μ) :
    Except Fault (InOrderPipelineState μ × List (InOrderPipelineState μ)) :=
  match if memory then s.exMem else s.idEx with
  | none => .error (.assertion "No instruction in the stage")
  | some ee =>
    match P.getMachineInstrByAddr ee.1 with
    | none => .ok (s, [])
    | some exInstr =>
      if changesControlFlow exInstr then
        if !memory && exInstr.mayLoad then do
          assertThat (T.loadsToPc exInstr.getOpcode) "Unexpected opcode"
          .ok (s, [])
        else if memory && !exInstr.mayLoad then .ok (s, [])
        else takeBranch P T M ins2ctx memory ee exInstr s
      else .ok (s, [])

end Branches

section Stages

def processWriteBackStage (s : InOrderPipelineState μ) : InOrderPipelineState μ :=
  match s.memWb with
  | none => s
  | some compl =>
    let nextaddr := (([s.exMem, s.idEx, s.ifId].findSome? id).getD s.pc).1
    { s with
      wbFin := some compl
      memWb := none
      memory := if P.needPersistenceScopes then
        M.leaveScopes s.memory (P.scopesBetween P.getLeavingScopes compl.1 nextaddr)
        else s.memory }

/-- Polls the accesses, each of which is followed by the next one when it is finished. -/
def pollAccesses (addrInfo : AddressInformation) (ee : ExecutionElement) :
    List (ℕ × ℕ) → InOrderPipelineState μ →
      Except Fault (InOrderPipelineState μ × List DataEvent)
  | [], s => .ok (s, [])
  | (pos, id) :: accesses, s =>
    match M.finishedDataAccess s.memory id with
    | (true, memory) => do
      let (s, issued) ← accessDataFromMemoryTopology P M addrInfo
        { s with memory, dataAccessIds := s.dataAccessIds.erase pos }
      let (s, events) ← pollAccesses addrInfo ee accesses s
      .ok (s, .finished ee pos :: issued ++ events)
    | (false, memory) => pollAccesses addrInfo ee accesses { s with memory }

/-- The accesses of the instruction in the memory stage, which stalls until they are finished. -/
def finishAccesses (addrInfo : AddressInformation) (ee : ExecutionElement)
    (currMemInst : MachineInstr) (s : InOrderPipelineState μ) :
    Except Fault (InOrderPipelineState μ × List DataEvent) :=
  if accessesMemory currMemInst then do
    let (s, events) ← pollAccesses P M addrInfo ee s.dataAccessIds.entries
      { s with stallMemory := true }
    .ok ({ s with
      stallMemory := !(decide (addrInfo.getNumOfDataAccesses ee.1 ≤ s.currMemoryAccess) &&
        s.dataAccessIds.entries.isEmpty) }, events)
  else .ok (s, [])

/-- Whether the instruction in the execute stage reads what the other one has loaded. -/
def hasHazard (currMemInst : MachineInstr) (idEx : Option ExecutionElement) :
    Except Fault Bool :=
  match currMemInst.mayLoad, currMemInst.operands, idEx with
  | true, storedOperand :: _, some ee =>
    if storedOperand.isReg then do
      .ok (T.readsRegister (← P.instrAt ee.1) storedOperand.getReg)
    else .ok false
  | _, _, _ => .ok false

/-- Moves the instruction on to the write-back stage, if there is room. -/
def leaveMemoryStage (ins2ctx : InstrContextMapping) (ee : ExecutionElement)
    (currMemInst : MachineInstr) (s : InOrderPipelineState μ) :
    Except Fault (List (InOrderPipelineState μ)) :=
  if s.stallMemory || s.memWb.isSome then .ok [s]
  else do
    let interlock ← hasHazard P T currMemInst s.idEx
    let (s, branched) ← checkForBranches P T M ins2ctx true { s with interlock, memWb := some ee }
    .ok (branched.map (fun alt => { alt with exMem := none }) ++ [{ s with exMem := none }])

def processMemoryStage (dep : StateDep) (s : InOrderPipelineState μ) :
    Except Fault (List (InOrderPipelineState μ × List DataEvent)) :=
  match s.exMem with
  | none => .ok [(s, [])]
  | some ee => do
    let currMemInst ← P.instrAt ee.1
    let (s, events) ← finishAccesses P M dep.addrInfo ee currMemInst s
    .ok ((← leaveMemoryStage P T M dep.ins2ctx ee currMemInst s).map (·, events))

/-- Moves the instruction on to the memory stage, and starts its first data access. -/
def enterMemoryStage (dep : StateDep) (ee : ExecutionElement) (s : InOrderPipelineState μ) :
    Except Fault (List (InOrderPipelineState μ × List DataEvent)) := do
  let (s, events) ← accessDataFromMemoryTopology P M dep.addrInfo
    { s with exMem := some ee, dataAccessIds := .empty, currMemoryAccess := 0 }
  let (s, branched) ← checkForBranches P T M dep.ins2ctx false s
  .ok ((branched ++ [s]).map fun alt =>
    ({ alt with idEx := none, remainingExecutionTimes := [] }, events))

/-- The states in which the instruction has been executed, if this is possible. -/
def finishExecution (dep : StateDep) (couldFinish : Bool) (ee : ExecutionElement)
    (s : InOrderPipelineState μ) :
    Except Fault (List (InOrderPipelineState μ × List DataEvent)) :=
  if !couldFinish then .ok []
  else if !P.hasMachineInstrByAddr ee.1 then do
    assertThat ee.2.getTokenList.isEmpty
      "No Machine Instruction for address, but context available"
    .ok [({ s with idEx := none, remainingExecutionTimes := [] }, [])]
  else if s.exMem.isNone then enterMemoryStage P T M dep ee s
  else .ok [({ s with remainingExecutionTimes := [0] }, [])]

/-- The times that remain if the instruction is not executed in this cycle. -/
def longerExecutionTimes (times : List ℕ) : List ℕ :=
  (times.filter fun exTime => decide (1 < exTime)).map (· - 1)

def processExecuteStage (dep : StateDep) (s : InOrderPipelineState μ) :
    Except Fault (List (InOrderPipelineState μ × List DataEvent)) :=
  match s.idEx, s.interlock with
  | some ee, false => do
    assertThat (!s.remainingExecutionTimes.isEmpty) "Non-empty EX stage needs exec times"
    let couldFinish := s.remainingExecutionTimes.any fun exTime => decide (exTime ≤ 1)
    let newRemExecTime := longerExecutionTimes s.remainingExecutionTimes
    assertThat (couldFinish || !newRemExecTime.isEmpty) "No successor on execution?"
    let finished ← finishExecution P T M dep couldFinish ee s
    .ok (finished ++ if newRemExecTime.isEmpty then []
      else [({ s with remainingExecutionTimes := newRemExecTime }, [])])
  | _, _ => do
    assertThat (s.idEx.isSome || s.remainingExecutionTimes.isEmpty) "Exec times despite empty?"
    .ok [(s, [])]

/-- What is not an instruction is dropped. -/
def processInstructionDecodeStage (s : InOrderPipelineState μ) :
    Except Fault (InOrderPipelineState μ) :=
  match s.ifId, s.idEx with
  | some ee, none =>
    match P.getMachineInstrByAddr ee.1 with
    | some mi =>
      match P.instructionExecutionTimes mi.getOpcode with
      | some remainingExecutionTimes =>
        .ok { s with idEx := some ee, remainingExecutionTimes, ifId := none }
      | none => .error (.assertion "No timing for execution stage for some instruction.")
    | none => .ok { s with ifId := none }
  | _, _ => .ok s

/-- Enters the scopes of the edge from the first populated stage to the program counter. -/
def enterAfterFlush (s : InOrderPipelineState μ) : Except Fault (InOrderPipelineState μ) :=
  if P.needPersistenceScopes then do
    let next ← nextPopulatedStage [s.ifId, s.idEx, s.exMem, s.memWb, s.wbFin]
    .ok { s with
      memory := M.enterScopes s.memory (P.scopesBetween P.getEnteringScopes next.1 s.pc.1) }
  else .ok s

/-- Fetching starts over at the program counter. -/
def restartFetch (s : InOrderPipelineState μ) : Except Fault (InOrderPipelineState μ) := do
  let s ← enterAfterFlush P M { s with instructionAccessFinished := false, flushedFetchStage := false }
  accessInstruction M s

/-- Whether the instruction access is finished now. -/
def pollFetch (s : InOrderPipelineState μ) : InOrderPipelineState μ :=
  match s.instructionAccessId with
  | none => s
  | some id =>
    match M.finishedInstrAccess s.memory id with
    | (true, memory) =>
      { s with memory, instructionAccessFinished := true, instructionAccessId := none }
    | (false, memory) => { s with memory }

/-- Whether fetching stops behind the instruction. -/
def stopsFetch (instr : MachineInstr) : Bool :=
  instr.isCall || instr.isReturn || instr.isJumpTableBranch ||
    (instr.isBranch && T.strictInOrder)

/-- Fetches the next instruction and accesses the one behind it. -/
def fetch (s : InOrderPipelineState μ) : Except Fault (InOrderPipelineState μ) := do
  let fetchedElement := s.pc
  let pc ← P.fetchNext s.pc
  let memory := if P.needPersistenceScopes then
    M.enterScopes s.memory (P.scopesBetween P.getEnteringScopes fetchedElement.1 pc.1)
    else s.memory
  let s := { s with pc, ifId := some fetchedElement, instructionAccessFinished := false, memory }
  match P.getMachineInstrByAddr fetchedElement.1 with
  | none => .ok s
  | some instr => if stopsFetch T instr then .ok s else accessInstruction M s

def processInstructionFetchStage (s : InOrderPipelineState μ) :
    Except Fault (InOrderPipelineState μ) :=
  if s.flushedFetchStage then restartFetch P M s
  else
    let s := pollFetch M s
    if s.ifId.isNone && s.instructionAccessFinished then fetch P T M s else .ok s

end Stages

section Cycle

def isJoinableUpToMemory (s s' : InOrderPipelineState μ) : Bool :=
  s.isJoinable s'.toMicroArchitecturalState &&
    decide (s.remainingExecutionTimes = s'.remainingExecutionTimes) &&
    s.stallMemory == s'.stallMemory && decide (s.ifId = s'.ifId) && decide (s.idEx = s'.idEx) &&
    decide (s.exMem = s'.exMem) && decide (s.memWb = s'.memWb) && decide (s.wbFin = s'.wbFin) &&
    s.interlock == s'.interlock && s.flushedFetchStage == s'.flushedFetchStage &&
    s.instructionAccessFinished == s'.instructionAccessFinished &&
    s.currMemoryAccess == s'.currMemoryAccess

def isEmpty (s : InOrderPipelineState μ) : Bool :=
  s.wbFin.isNone && s.memWb.isNone && s.exMem.isNone && s.idEx.isNone && s.ifId.isNone

/-- Whether nothing will change until a memory port is not busy any longer. -/
def isConvergedAfterCycleFrom (s origin : InOrderPipelineState μ) : Except Fault Bool := do
  let converged := isJoinableUpToMemory s origin
  assertThat (!converged || P.unblockStores || M.isBusyAccessingInstr s.memory ||
      M.isBusyAccessingData s.memory || s.isEmpty)
    "instrPortBusy || dataPortBusy || cornerCase"
  .ok converged

def fastForwardAndInsert (origin s : InOrderPipelineState μ) :
    Except Fault (List (InOrderPipelineState μ)) := do
  if ← isConvergedAfterCycleFrom P M s origin then
    .ok ((← M.fastForward s.memory).map fun memory => { s with memory })
  else .ok [s]

/-- Decode and fetch stage after the other ones, whose results are given. -/
def finishCycle (origin s memSucc execSucc : InOrderPipelineState μ) (accesses : List DataEvent) :
    Except Fault (List (InOrderPipelineState μ × InOrderLog)) := do
  let decoded ← processInstructionDecodeStage P execSucc
  let fetched ← processInstructionFetchStage P T M decoded
  let forwarded ← fastForwardAndInsert P M origin fetched
  let log : InOrderLog := {
    fetched := if decoded.ifId.isNone then fetched.ifId.toList else []
    cause := if memSucc.flushedFetchStage then s.exMem
      else if execSucc.flushedFetchStage then memSucc.idEx else none
    flushed := if execSucc.flushedFetchStage then s.ifId.toList else []
    abandoned := if execSucc.flushedFetchStage then [s.pc] else []
    ended := if decoded.ifId.isNone && decoded.idEx == execSucc.idEx then execSucc.ifId.toList
      else []
    completed := s.memWb.toList
    accesses }
  .ok (forwarded.map (·, log))

/-- What a cycle of the memory leads to: while the pipeline stalls nothing else happens. -/
def cyclePipeline (dep : StateDep) (origin s : InOrderPipelineState μ) :
    Except Fault (List (InOrderPipelineState μ × InOrderLog)) := do
  assertThat s.wbFin.isNone "Final should be cleared"
  if M.shouldPipelineStall s.memory then
    .ok ((← fastForwardAndInsert P M origin s).map (·, ⟨[], none, [], [], [], [], []⟩))
  else
    let memSuccs ← processMemoryStage P T M dep (processWriteBackStage P M s)
    forEach (fun (memSucc, events) => do
      let execSuccs ← processExecuteStage P T M dep memSucc
      forEach (fun (execSucc, events') =>
        finishCycle P T M origin s memSucc execSucc (events ++ events')) execSuccs) memSuccs

/-- The successors with what happened in the cycle. -/
def observedCycle (dep : StateDep) (s : InOrderPipelineState μ) :
    Except Fault (List (InOrderPipelineState μ × InOrderLog)) := do
  let succ := { s with stallMemory := false, interlock := false, time := s.time.add (.ofValue 1) }
  forEach (cyclePipeline P T M dep s) (← cycleMemoryTopology P T M succ)

def cycle (dep : StateDep) (s : InOrderPipelineState μ) :
    Except Fault (List (InOrderPipelineState μ)) := do
  .ok ((← observedCycle P T M dep s).map Prod.fst)

end Cycle

/-- Whether the element has left the pipeline; if so, this is forgotten. -/
def isFinal (s : InOrderPipelineState μ) (ee : ExecutionElement) :
    Bool × InOrderPipelineState μ :=
  if P.goesExternal ee.1 then (s.isEmpty && !M.hasUnfinishedAccesses s.memory, s)
  else if s.wbFin = some ee then (true, { s with wbFin := none })
  else (false, s)

def resetLocalMetrics (s : InOrderPipelineState μ) : InOrderPipelineState μ :=
  { s with time := .ofValue 0, memory := M.resetLocalMetrics s.memory }

def useBranchAssumption (s : InOrderPipelineState μ) : InOrderPipelineState μ :=
  { s with condBranchAssumptions := s.condBranchAssumptions.tail }

def useReturnAssumption (s : InOrderPipelineState μ) : InOrderPipelineState μ :=
  { s with returnAssumptions := s.returnAssumptions.tail }

end InOrderPipelineState

end Llvmta.MicroArch
