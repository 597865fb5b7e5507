import Llvmta.Library.CheckedFold
import Llvmta.PartitionUtil.Context
import Llvmta.PathAnalysis.GraphConstraint
import Llvmta.Util.Graph

/-!
# The state graph

The vertices of the state graph are states of the microarchitectural analysis where basic
blocks and calls begin and end; vertex 0 stands for the time between two runs. Its edges
within a block, between blocks and between functions are what the constraints of the path
analysis speak about.
-/

namespace Llvmta

/-- The control flow of the program. -/
structure ControlFlow where
  /-- the blocks of all functions -/
  machineBasicBlocks : List MachineBasicBlock
  getParent : MachineBasicBlock → MachineFunctionId
  getNonEmptyPredecessorBasicBlocks : MachineBasicBlock → List MachineBasicBlock
  getNonEmptySuccessorBasicBlocks : MachineBasicBlock → List MachineBasicBlock
  getCallSitesInMBB : MachineBasicBlock → List CallSite
  getPotentialCallees : CallSite → List MachineFunctionId
  /-- the call sites that call a function -/
  getCallSites : MachineFunctionId → List CallSite

/-- The states at the borders of blocks and calls are vertices of the graph. Each of them is
a state of one block or one call site, and in one context, if that is known. -/
structure StateGraph where
  getGraph : Graph
  getInStates : MachineBasicBlock → List ℕ
  getOutStates : MachineBasicBlock → List ℕ
  getCallStates : CallSite → List ℕ
  getReturnStates : CallSite → List ℕ
  getContextOfState : ℕ → Option Context
  inStates_nodup : ∀ bb, (getInStates bb).Nodup
  callStates_nodup : ∀ cs, (getCallStates cs).Nodup
  returnStates_nodup : ∀ cs, (getReturnStates cs).Nodup
  outStates_block : ∀ {bb bb' s}, s ∈ getOutStates bb → s ∈ getOutStates bb' → bb = bb'
  callStates_outStates : ∀ {cs bb s}, s ∈ getCallStates cs → s ∉ getOutStates bb

/-- The states before the entry block of a loop or scope, by whether they are in it. -/
structure PredecessorStates where
  outStatesWithinScope : List ℕ
  outStatesOutsideScope : List ℕ
  deriving Repr

section Predecessors

variable (cf : ControlFlow) (sg : StateGraph)

/-- The call states of a block that lead to a function. -/
def callStatesTo (function : MachineFunctionId) (predBB : MachineBasicBlock) : List ℕ :=
  ((cf.getCallSitesInMBB predBB).filter fun cs =>
    decide (function ∈ cf.getPotentialCallees cs)).flatMap sg.getCallStates

/-- A predecessor of the entry block of a loop or scope: a block of the same function, or one
that calls it. -/
def addPredecessor (contains : MachineBasicBlock → Bool) (entryBB : MachineBasicBlock)
    (states : PredecessorStates) (predBB : MachineBasicBlock) : Except Fault PredecessorStates :=
  if cf.getParent entryBB = cf.getParent predBB then do
    let outStates := sg.getOutStates predBB
    assertThat (decide (0 < outStates.length)) "Non empty BB should have out states"
    if contains predBB then
      .ok { states with outStatesWithinScope := states.outStatesWithinScope ++ outStates }
    else .ok { states with outStatesOutsideScope := states.outStatesOutsideScope ++ outStates }
  else
    let callStates := callStatesTo cf sg (cf.getParent entryBB) predBB
    .ok { states with outStatesOutsideScope := states.outStatesOutsideScope ++ callStates }

def predecessorStates (contains : MachineBasicBlock → Bool) (entryBB : MachineBasicBlock) :
    Except Fault PredecessorStates :=
  (cf.getNonEmptyPredecessorBasicBlocks entryBB).foldlM (addPredecessor cf sg contains entryBB)
    ⟨[], []⟩

/-- The states of a predecessor block that are not in the loop or scope. -/
def outsideStates (contains : MachineBasicBlock → Bool) (entryBB predBB : MachineBasicBlock) :
    List ℕ :=
  if cf.getParent entryBB = cf.getParent predBB then
    if contains predBB then [] else sg.getOutStates predBB
  else callStatesTo cf sg (cf.getParent entryBB) predBB

/-- The states of a predecessor block that are in the loop or scope. -/
def withinStates (contains : MachineBasicBlock → Bool) (entryBB predBB : MachineBasicBlock) :
    List ℕ :=
  if cf.getParent entryBB = cf.getParent predBB then
    if contains predBB then sg.getOutStates predBB else []
  else []

variable {cf sg} {contains : MachineBasicBlock → Bool} {entryBB : MachineBasicBlock}
  {states states' : PredecessorStates} {p : ℕ}

theorem addPredecessor_spec {predBB : MachineBasicBlock}
    (h : addPredecessor cf sg contains entryBB states predBB = .ok states') :
    (p ∈ states'.outStatesOutsideScope ↔
      p ∈ states.outStatesOutsideScope ∨ p ∈ outsideStates cf sg contains entryBB predBB) ∧
    (p ∈ states'.outStatesWithinScope ↔
      p ∈ states.outStatesWithinScope ∨ p ∈ withinStates cf sg contains entryBB predBB) := by
  unfold addPredecessor at h
  unfold outsideStates withinStates
  by_cases hparent : cf.getParent entryBB = cf.getParent predBB
  · rw [if_pos hparent] at h
    obtain ⟨_, _, h⟩ := Checked.bind_eq_ok.mp h
    rw [if_pos hparent, if_pos hparent]
    by_cases hcontains : contains predBB = true
    · rw [if_pos hcontains] at h
      cases h
      simp [hcontains]
    · rw [if_neg hcontains] at h
      cases h
      simp [hcontains]
  · rw [if_neg hparent] at h
    cases h
    simp [hparent]

theorem mem_outStatesOutsideScope (h : predecessorStates cf sg contains entryBB = .ok states) :
    p ∈ states.outStatesOutsideScope ↔
      ∃ predBB ∈ cf.getNonEmptyPredecessorBasicBlocks entryBB,
        p ∈ outsideStates cf sg contains entryBB predBB := by
  unfold predecessorStates at h
  rw [Checked.foldlM_adds (H := fun states : PredecessorStates =>
    p ∈ states.outStatesOutsideScope) (A := fun predBB =>
      p ∈ outsideStates cf sg contains entryBB predBB) ?_ h]
  · simp
  · intro states predBB states' hok
    exact (addPredecessor_spec hok).1

theorem mem_outStatesWithinScope (h : predecessorStates cf sg contains entryBB = .ok states) :
    p ∈ states.outStatesWithinScope ↔
      ∃ predBB ∈ cf.getNonEmptyPredecessorBasicBlocks entryBB,
        p ∈ withinStates cf sg contains entryBB predBB := by
  unfold predecessorStates at h
  rw [Checked.foldlM_adds (H := fun states : PredecessorStates =>
    p ∈ states.outStatesWithinScope) (A := fun predBB =>
      p ∈ withinStates cf sg contains entryBB predBB) ?_ h]
  · simp
  · intro states predBB states' hok
    exact (addPredecessor_spec hok).2

end Predecessors

end Llvmta
