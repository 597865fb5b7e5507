import Llvmta.Memory.AbstractCyclingMemory
import Llvmta.Memory.MemoryTopologyInterface
import Llvmta.PartitionUtil.Context

/-!
# Microarchitectural states

What all pipelines have in common: the program they execute, the time, the program
counter, and the assumptions about branches and returns under which a state was reached.
When a control-flow instruction takes effect, a state may have several successors, which
differ in these assumptions.
-/

namespace Llvmta.MicroArch

open Checked

structure MachineOperand where
  isReg : Bool
  isUse : Bool
  isDef : Bool
  getReg : ℕ
  deriving DecidableEq, Repr

/-- What the pipelines read of an instruction. -/
structure MachineInstr where
  getOpcode : ℕ
  isBranch : Bool
  isBarrier : Bool
  isIndirectBranch : Bool
  isCall : Bool
  isReturn : Bool
  isJumpTableBranch : Bool
  isPredicated : Bool
  mayLoad : Bool
  mayStore : Bool
  operands : List MachineOperand
  getParent : MachineBasicBlock
  /-- the target of a branch, the targets of a jump-table branch -/
  targetMBBs : List MachineBasicBlock
  deriving DecidableEq, Repr

namespace MachineInstr

def isConditionalBranch (mi : MachineInstr) : Bool :=
  mi.isBranch && !mi.isBarrier && !mi.isIndirectBranch

def isUnconditionalBranch (mi : MachineInstr) : Bool :=
  mi.isBranch && mi.isBarrier && !mi.isIndirectBranch

/-- The registers that the instruction writes, in the order of its operands. -/
def definedRegisters (mi : MachineInstr) : List ℕ :=
  (mi.operands.filter fun op => op.isReg && op.isDef).map MachineOperand.getReg

/-- The registers that the instruction waits for. -/
def usedRegisters (mi : MachineInstr) : List ℕ :=
  (mi.operands.filter fun op => op.isReg && op.isUse && op.getReg != 0).map MachineOperand.getReg

end MachineInstr

/-- An address with the context it is executed in. -/
abbrev ExecutionElement := ℕ × Context

/-- The contexts that are alive at an instruction, which is given by its address. -/
abbrev InstrContextMapping := ℕ → List Context

/-- Data accesses of the instruction at an address. -/
structure AddressInformation where
  getNumOfDataAccesses : ℕ → ℕ
  getDataAccessAddress : ℕ → Context → (pos : ℕ) → AbstractAddress

structure StateDep where
  ins2ctx : InstrContextMapping
  addrInfo : AddressInformation

/-- Where execution continues after a return: the address to continue at, with the
context there and the one of the call site. -/
structure ReturnLocation where
  targetAddr : ℕ
  contCtx : Context
  callCtx : Context
  deriving DecidableEq, Repr

/-- The analysed program, as far as pipelines depend on it. What the directives make of
contexts is given by the elements that follow an instruction. -/
structure Program where
  getMachineInstrByAddr : ℕ → Option MachineInstr
  /-- the program counter after `fetchNextInstruction` -/
  fetchNext : ExecutionElement → Except Fault ExecutionElement
  /-- `handlePCUpdate`: the program counter after a branch to the block -/
  pcUpdate : ExecutionElement → MachineBasicBlock → Except Fault ExecutionElement
  /-- `handleCall`: the program counter after the call, which had the given one before -/
  callTarget : (pc : ExecutionElement) → ExecutionElement → Except Fault ExecutionElement
  returnLocations : InstrContextMapping → ExecutionElement → Except Fault (List ReturnLocation)
  /-- the possible execution times of an opcode, in increasing order -/
  instructionExecutionTimes : ℕ → Option (List ℕ)
  needPersistenceScopes : Bool
  /-- the scopes that an edge enters, none if it does not enter a scope -/
  getEnteringScopes : MBBedge → List PersistenceScope
  getLeavingScopes : MBBedge → List PersistenceScope
  unblockStores : Bool

namespace Program

variable (P : Program)

def hasMachineInstrByAddr (addr : ℕ) : Bool := (P.getMachineInstrByAddr addr).isSome

/-- The instruction at an address that belongs to one. -/
def instrAt (addr : ℕ) : Except Fault MachineInstr :=
  match P.getMachineInstrByAddr addr with
  | some mi => .ok mi
  | none => .error (.assertion "Cannot find instruction for given address")

def goesExternal (addr : ℕ) : Bool := !P.hasMachineInstrByAddr addr

/-- The scopes that are entered, respectively left, between two instructions. -/
def scopesBetween (scopes : MBBedge → List PersistenceScope) (source target : ℕ) :
    List PersistenceScope :=
  match P.getMachineInstrByAddr source, P.getMachineInstrByAddr target with
  | some mi, some mi' =>
    if mi.getParent = mi'.getParent then [] else scopes (mi.getParent, mi'.getParent)
  | _, _ => []

variable {P}

theorem instrAt_eq_ok {addr : ℕ} {mi : MachineInstr} :
    P.instrAt addr = .ok mi ↔ P.getMachineInstrByAddr addr = some mi := by
  unfold instrAt
  split <;> simp_all

end Program

/-- The topologies that pipelines run on. -/
structure MemoryTopology (μ : Type) extends MemoryTopologyInterface μ where
  enterScope : μ → PersistenceScope → μ
  leaveScope : μ → PersistenceScope → μ
  hasUnfinishedAccesses : μ → Bool
  isBusyAccessingInstr : μ → Bool
  isBusyAccessingData : μ → Bool

namespace MemoryTopology

variable {μ : Type} (M : MemoryTopology μ)

def enterScopes (memory : μ) (scopes : List PersistenceScope) : μ :=
  scopes.foldl M.enterScope memory

def leaveScopes (memory : μ) (scopes : List PersistenceScope) : μ :=
  scopes.foldl M.leaveScope memory

end MemoryTopology

structure BranchOutcome where
  btaken : Bool
  target : Option MachineBasicBlock
  deriving DecidableEq, Repr

namespace BranchOutcome

def nottaken : BranchOutcome := ⟨false, none⟩

def taken (target : MachineBasicBlock) : BranchOutcome := ⟨true, some target⟩

/-- A return that is taken has no target block. -/
def takenReturn : BranchOutcome := ⟨true, none⟩

end BranchOutcome

structure MicroArchitecturalState where
  time : IntervalCounter
  pc : ExecutionElement
  condBranchAssumptions : List (ExecutionElement × BranchOutcome)
  returnAssumptions : List ExecutionElement
  deriving DecidableEq, Repr

namespace MicroArchitecturalState

variable (P : Program)

def new (progloc : ExecutionElement) : MicroArchitecturalState := ⟨.ofValue 0, progloc, [], []⟩

/-- Bounds of times can be joined. -/
def isJoinable (m m' : MicroArchitecturalState) : Bool :=
  decide (m.pc = m'.pc) && decide (m.condBranchAssumptions = m'.condBranchAssumptions) &&
    decide (m.returnAssumptions = m'.returnAssumptions)

/-- The state after a branch from `ee` to a block that is assumed to be the target. -/
def branchTo (m : MicroArchitecturalState) (ee : ExecutionElement) (assume : Bool)
    (targetMBB : MachineBasicBlock) : Except Fault MicroArchitecturalState := do
  let pc ← P.pcUpdate ee targetMBB
  .ok { m with
    pc
    condBranchAssumptions := m.condBranchAssumptions ++
      if assume then [(ee, BranchOutcome.taken targetMBB)] else [] }

/-- The state itself takes the branch; the alternatives are the other targets of a jump
table, or the case that the branch is not taken. -/
def handleBranch (m : MicroArchitecturalState) (ee : ExecutionElement) (mi : MachineInstr) :
    Except Fault (MicroArchitecturalState × List MicroArchitecturalState) := do
  if mi.isJumpTableBranch then
    match mi.targetMBBs with
    | [] => .error (.assertion "Empty jump table")
    | tgtmbb :: tgtmbbs =>
      let taken ← branchTo P m ee true tgtmbb
      let alternatives ← forEach (fun tgt => do .ok [← branchTo P m ee true tgt]) tgtmbbs
      .ok (taken, alternatives)
  else
    match mi.targetMBBs with
    | [] => .error (.assertion "First operand of a branch should be MBB")
    | targetMBB :: _ =>
      if mi.isConditionalBranch then
        let notTaken := { m with
          condBranchAssumptions := m.condBranchAssumptions ++ [(ee, BranchOutcome.nottaken)] }
        .ok (← branchTo P m ee true targetMBB, [notTaken])
      else do
        assertThat mi.isUnconditionalBranch "Expected non-conditional branch"
        .ok (← branchTo P m ee false targetMBB, [])

def handleCall (m : MicroArchitecturalState) (ee : ExecutionElement) :
    Except Fault MicroArchitecturalState := do
  let pc ← P.callTarget m.pc ee
  .ok { m with pc }

/-- The state after a return from `ee` to the location. -/
def returnTo (m : MicroArchitecturalState) (ee : ExecutionElement) (returnLoc : ReturnLocation) :
    MicroArchitecturalState :=
  { m with
    pc := (returnLoc.targetAddr, returnLoc.contCtx)
    returnAssumptions := m.returnAssumptions ++ [(returnLoc.targetAddr, returnLoc.callCtx)]
    condBranchAssumptions := m.condBranchAssumptions ++ [(ee, BranchOutcome.takenReturn)] }

/-- The state itself returns to the first location, unless the return is predicated:
then it is the case that the return is not taken. -/
def handleReturn (m : MicroArchitecturalState) (ee : ExecutionElement) (mi : MachineInstr)
    (ins2ctx : InstrContextMapping) :
    Except Fault (MicroArchitecturalState × List MicroArchitecturalState) := do
  match ← P.returnLocations ins2ctx ee with
  | [] => .error (.assertion "We saw a return but have no valid point to return to")
  | firstRetLoc :: returnLocs =>
    if mi.isPredicated then
      .ok ({ m with
          condBranchAssumptions := m.condBranchAssumptions ++ [(ee, BranchOutcome.nottaken)] },
        (firstRetLoc :: returnLocs).map (returnTo m ee))
    else .ok (returnTo m ee firstRetLoc, returnLocs.map (returnTo m ee))

/-- The state after the control-flow instruction and its alternatives. -/
def handleBranching (m : MicroArchitecturalState) (ee : ExecutionElement)
    (ins2ctx : InstrContextMapping) :
    Except Fault (MicroArchitecturalState × List MicroArchitecturalState) := do
  let mi ← P.instrAt ee.1
  if mi.isBranch then handleBranch P m ee mi
  else if mi.isCall then .ok (← handleCall P m ee, [])
  else if mi.isReturn then handleReturn P m ee mi ins2ctx
  else .error (.assertion "No control-flow changing instruction")

variable {P} {m m₀ m' : MicroArchitecturalState} {ee : ExecutionElement} {mi : MachineInstr}

/-- Only a control-flow instruction has an effect. -/
theorem changes_of_handleBranching {ins2ctx : InstrContextMapping}
    {result : MicroArchitecturalState × List MicroArchitecturalState}
    (hmi : P.getMachineInstrByAddr ee.1 = some mi)
    (h : m.handleBranching P ee ins2ctx = .ok result) :
    (mi.isBranch || mi.isCall || mi.isReturn) = true := by
  obtain ⟨mi', hmi', h⟩ := bind_eq_ok.mp h
  cases hmi.symm.trans (Program.instrAt_eq_ok.mp hmi')
  by_contra hnone
  simp only [Bool.or_eq_true, not_or, Bool.not_eq_true] at hnone
  obtain ⟨⟨hbranch, hcall⟩, hreturn⟩ := hnone
  rw [hbranch, hcall, hreturn] at h
  cases h

/-- Without the branch taken fetching goes on as before. -/
theorem pc_of_handleBranching {ins2ctx : InstrContextMapping}
    {alternatives : List MicroArchitecturalState}
    (hmi : P.getMachineInstrByAddr ee.1 = some mi)
    (hreturn : (mi.isReturn || mi.isJumpTableBranch) = false)
    (h : m.handleBranching P ee ins2ctx = .ok (m₀, alternatives)) (hm : m' ∈ alternatives) :
    m'.pc = m.pc := by
  rw [Bool.or_eq_false_iff] at hreturn
  obtain ⟨mi', hmi', h⟩ := bind_eq_ok.mp h
  cases hmi.symm.trans (Program.instrAt_eq_ok.mp hmi')
  split at h
  · unfold handleBranch at h
    rw [hreturn.2, if_neg Bool.false_ne_true] at h
    split at h
    · cases h
    · split at h
      · obtain ⟨_, _, h⟩ := bind_eq_ok.mp h
        cases h
        cases List.mem_singleton.mp hm
        rfl
      · obtain ⟨_, _, h⟩ := bind_eq_ok.mp h
        obtain ⟨_, _, h⟩ := bind_eq_ok.mp h
        cases h
        exact nomatch hm
  · rw [hreturn.1] at h
    split at h
    · obtain ⟨_, _, h⟩ := bind_eq_ok.mp h
      cases h
      exact nomatch hm
    · cases h

end MicroArchitecturalState

end Llvmta.MicroArch
